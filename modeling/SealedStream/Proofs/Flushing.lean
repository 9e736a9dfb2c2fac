import SealedStream.Chunk.Plain
import SealedStream.Proofs.Uniform

/-!
# Flushes leave no trace

Only a writer that has failed refuses to flush.  Else a flush is passed on to the sink,
also when the writer is closed, and what the sink answers is the answer: an error of the
sink is reported as the sink's own and is not kept.

So a run of writes and flushes leaves the writer that its writes alone would leave, but
for the part of the sink that answers flushes, and a write after it is answered as if
there had been no flush.  Of closing this cannot be said, as it flushes the sink itself.
-/

namespace SealedStream

namespace Sink

theorem deliver_withFlushes (s : Sink) (flushes : List Reply) (calls : Nat)
    (replies : List Reply) (bs : Bytes) :
    (s.withFlushes flushes calls).deliver replies bs =
      ((s.deliver replies bs).1, (s.deliver replies bs).2.withFlushes flushes calls) := by
  induction replies generalizing s bs with
  | nil => cases bs <;> rfl
  | cons reply replies ih =>
      cases bs with
      | nil => rfl
      | cons b bs =>
          cases reply with
          | accept limit =>
              simp only [deliver]
              split
              · rfl
              · exact ih (push { s with writeCalls := s.writeCalls + 1 }
                  ((b :: bs).take limit)) ((b :: bs).drop limit)
          | failure e =>
              simp only [deliver]
              split
              · exact ih { s with writeCalls := s.writeCalls + 1 } (b :: bs)
              · rfl

/-- The second sink is the first one but for the part that is for flushes. -/
def SameButFlushes (a b : Sink) : Prop :=
  ∃ flushes calls, b = a.withFlushes flushes calls

/-- Two such sinks are written to alike, and do not come apart. -/
theorem pairing_sameButFlushes : Pairing SameButFlushes fun _ _ _ => False where
  goesOn _ hno := hno
  writeAll := by
    rintro a _ bs ⟨flushes, calls, rfl⟩
    have hstep : (a.withFlushes flushes calls).writeAll bs =
        ((a.writeAll bs).1, (a.writeAll bs).2.withFlushes flushes calls) :=
      deliver_withFlushes a flushes calls a.writes bs
    rw [hstep]
    exact .inl ⟨rfl, flushes, calls, rfl⟩

theorem SameButFlushes.trans {a b c : Sink} (h : SameButFlushes a b)
    (h' : SameButFlushes b c) : SameButFlushes a c := by
  obtain ⟨flushes, calls, rfl⟩ := h
  obtain ⟨flushes', calls', rfl⟩ := h'
  exact ⟨flushes', calls', rfl⟩

end Sink

namespace Writer

variable {σ : Type} {w v : Writer σ}

theorem Like.flush_right (h : Like Sink.SameButFlushes w v) :
    Like Sink.SameButFlushes w v.flush.2 := by
  obtain ⟨flushes, calls, hv⟩ := v.flush_writer
  rw [hv]
  obtain ⟨sink, rfl, hsink⟩ := h
  exact ⟨_, rfl, hsink.trans ⟨flushes, calls, rfl⟩⟩

/-- The flushes in a run that does not close the writer make no difference to it.  The
induction is on the calls. -/
theorem Like.serveAll_flushes (h : Like Sink.SameButFlushes w v) {requests : List Request}
    (hclose : .close ∉ requests) :
    Like Sink.SameButFlushes (w.serveAll (requests.filter (· ≠ .flush)))
      (v.serveAll requests) := by
  induction requests generalizing w v with
  | nil => exact h
  | cons request requests ih =>
      have hrest : Request.close ∉ requests := fun hmem => hclose (List.mem_cons_of_mem _ hmem)
      cases request with
      | close => exact (hclose List.mem_cons_self).elim
      | flush => exact ih h.flush_right hrest
      | write data | writeSome data =>
          have hwrite : Like Sink.SameButFlushes (w.write data).2 (v.write data).2 :=
            ((h.write Sink.pairing_sameButFlushes data).resolve_right (by simp)).2
          simp only [List.filter_cons, ne_eq, reduceCtorEq, not_false_eq_true, decide_true,
            if_true, serveAll, serve, writeSome_snd]
          exact ih hwrite hrest

/-- A writer that has failed refuses to flush.  Every other one, closed or not, passes the
flush on to its sink, reports the sink's answer and keeps nothing of it.

So after writes and flushes, failed flushes among them, a writer is where the writes
alone would have brought it, but for the part of the sink that is for flushes, and it
answers the next write as it would have done there. -/
theorem flush_leaves_no_trace (w : Writer σ) :
    (∀ f, w.phase = .failed f → w.flush = (.error (.stream f), w)) ∧
    ((∀ f, w.phase ≠ .failed f) → w.flush = (w.sink.flush.1.mapError .plain,
      { w with sink := w.sink.withFlushes w.sink.flushes.tail (w.sink.flushCalls + 1) })) ∧
    ∀ requests, .close ∉ requests →
      (∃ flushes calls, w.serveAll requests =
        { w.serveAll (requests.filter (· ≠ .flush)) with
          sink := (w.serveAll (requests.filter (· ≠ .flush))).sink.withFlushes flushes calls }) ∧
      ∀ data, ((w.serveAll requests).write data).1 =
        ((w.serveAll (requests.filter (· ≠ .flush))).write data).1 := by
  refine ⟨fun f hphase => (refuses_of_failed hphase).flush, fun hphase => ?_,
    fun requests hclose => ?_⟩
  · rw [flush_passes hphase, Sink.flush_snd]
  · have hself : Like Sink.SameButFlushes w w :=
      ⟨w.sink, rfl, w.sink.flushes, w.sink.flushCalls, rfl⟩
    have hrun := hself.serveAll_flushes hclose
    refine ⟨?_, fun data => ?_⟩
    · obtain ⟨sink, hw, flushes, calls, rfl⟩ := hrun
      exact ⟨flushes, calls, hw⟩
    · exact ((hrun.write Sink.pairing_sameButFlushes data).resolve_right (by simp)).1

/-- A sink whose first flush fails for want of room. -/
def fullSink : Sink :=
  .scheduled [] [.failure ⟨.other, some "disk full"⟩]

/-- The writer that has been told of the full disk takes the next bytes nevertheless. -/
theorem fullSink_flush_forgotten :
    ∃ w, start fullSink Chunk.blankSealer () Layout.standard.unbuffered = .ok w ∧
      w.flush.1 = .error (.plain ⟨.other, some "disk full"⟩) ∧
      ((w.serveAll [.flush]).write [97]).1 = (w.write [97]).1 ∧
      (w.write [97]).1 = .ok 1 := by
  have hstart : start fullSink Chunk.blankSealer () Layout.standard.unbuffered = .ok _ := rfl
  refine ⟨_, hstart, ?_, ?_, rfl⟩
  · rw [(flush_leaves_no_trace _).2.1 (by simp)]
    rfl
  · exact ((flush_leaves_no_trace _).2.2 [.flush] (by decide)).2 [97]

/-- It is not so that a flush that fails is the answer to every later call, nor that a
closed writer refuses to flush: on the full disk a write and the close succeed after the
flush that has failed, and the sink of a closed writer is flushed once more. -/
theorem flush_neither_kept_nor_refused :
    (∃ w, start fullSink Chunk.blankSealer () Layout.standard.unbuffered = .ok w ∧
      w.flush.1 = .error (.plain ⟨.other, some "disk full"⟩) ∧
      (w.flush.2.write [97]).1 = .ok 1 ∧
      (w.flush.2.write [97]).2.sink.bytes ≠ w.flush.2.sink.bytes ∧
      (w.flush.2.write [97]).2.flush.1 = .ok () ∧
      (w.flush.2.write [97]).2.close.1 = .ok ()) ∧
    ∃ w, start .perfect Chunk.blankSealer () Layout.standard.unbuffered = .ok w ∧
      w.close.1 = .ok () ∧ w.close.2.flush.1 = .ok () ∧
      w.close.2.sink.flushCalls = 1 ∧ w.close.2.flush.2.sink.flushCalls = 2 :=
  ⟨⟨_, rfl, rfl, rfl, by decide, rfl, rfl⟩, ⟨_, rfl, rfl, rfl, rfl, rfl⟩⟩

end Writer

end SealedStream
