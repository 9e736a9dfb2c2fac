import SealedStream.Proofs.SinkFaults

/-!
# The life of a writer

A writer writes until a call fails or closing succeeds; neither is ever undone.  A
failure, of the sealer, of the sink or of the stream, at whatever step of a write or a
close, is the answer to every later call, and nothing is called for it again.  After a
close that has succeeded the sink gets no further byte.

So there is at most one end in what a writer puts out, however the calls follow one
another and wherever they fail: a close that has failed cannot be made again.

A flush that fails is another matter, see `SealedStream.Proofs.Flushing`.
-/

namespace SealedStream

namespace Writer

variable {σ : Type} {sealer : Sealer σ} {codec : σ} {l : Layout} {s : Sink} {w : Writer σ}
  {f : Failure}

/-- From now on every call is refused with this failure.  All stays as it is, the state of
the sealer and the calls counted by the sink included, and with any other sealer and sink
in their places the writer would refuse the calls as well. -/
structure Stuck (w : Writer σ) (f : Failure) : Prop where
  still (later : List Request) : w.serveAll later = w
  refuses : w.Refuses f
  unasked {τ : Type} (sealer : Sealer τ) (codec : τ) (sink : Sink) :
    Refuses ⟨w.layout, sealer, codec, sink, w.pending, w.nextCounter, w.phase⟩ f

theorem stuck_of_failed (h : w.phase = .failed f) : w.Stuck f where
  still later := (refuses_of_failed h).serveAll later
  refuses := refuses_of_failed h
  unasked _ _ _ := refuses_of_failed h

/-- In the sink stand data chunks, whose lengths fit their form, and one end behind them at the
most, perhaps cut short; when the writer is closed, the whole of them stands there with the
end. -/
theorem sent_chunks (hsink : s.bytes = []) (h : start s sealer codec l = .ok w)
    (requests : List Request) :
    ∃ data state rest, SentChunks l sealer codec data state ∧
      (rest = [] ∨ Ending l sealer state rest) ∧
      (w.serveAll requests).sink.bytes <+: l.frames data ++ rest ∧
      ((w.serveAll requests).phase = .closed → Ending l sealer state rest ∧
        (w.serveAll requests).sink.bytes = l.frames data ++ rest) := by
  obtain ⟨hl, -⟩ := start_ok h
  obtain ⟨v, ⟨log, rfl⟩, hcourse⟩ :=
    start_course rfl ⟨rfl, rfl⟩ (start_onto h .perfect) requests
  obtain ⟨data, state, rest, hsent, hrest, hbytes, hclosed⟩ := hcourse.bytes_eq hl
  refine ⟨data, state, rest, hsent, hrest, ?_⟩
  dsimp only at hbytes hclosed
  rcases (start_level hsink h trivial).serveAll Sink.tracks_nothing (.inr fun _ _ => trivial) with
    hrun | ⟨-, e, hphase, hbehind⟩
  · rw [hrun.bytes_eq] at hbytes
    rw [hrun.phase_eq] at hclosed
    exact ⟨hbytes ▸ List.prefix_rfl, fun hend => ⟨hclosed hend, hbytes⟩⟩
  · exact ⟨hbytes ▸ hbehind.bytes_prefix, by simp [hphase]⟩

/-- So no more than one end has been put out. -/
theorem one_end (hsink : s.bytes = []) (h : start s sealer codec l = .ok w)
    (requests : List Request) :
    ∃ data state rest, DataChunks l sealer codec data state ∧
      (rest = [] ∨ Ending l sealer state rest) ∧
      (w.serveAll requests).sink.bytes <+: l.frames data ++ rest ∧
      ((w.serveAll requests).phase = .closed → Ending l sealer state rest ∧
        (w.serveAll requests).sink.bytes = l.frames data ++ rest) := by
  obtain ⟨data, state, rest, hsent, hrest⟩ := sent_chunks hsink h requests
  exact ⟨data, state, rest, hsent.toDataChunks, hrest⟩

/-- Whatever has been asked of a writer:

a write or close that fails, other than for the stream being closed, is the last call that
does anything;

after a close that succeeds every write and close is refused, and nothing changes but the
part of the sink that answers flushes;

and no more than one end has been put out. -/
theorem writer_life_cycle (hsink : s.bytes = []) (h : start s sealer codec l = .ok w)
    (requests : List Request) :
    (∀ request f, (w.serveAll requests).Fails f request → f ≠ .streamClosed →
      ((w.serveAll requests).serve request).Stuck f) ∧
    ((w.serveAll requests).close.1 = .ok () → ∀ later,
      ((w.serveAll requests).close.2.serveAll later).Shut ∧
        ∃ flushes calls, (w.serveAll requests).close.2.serveAll later =
          { (w.serveAll requests).close.2 with
            sink := (w.serveAll requests).close.2.sink.withFlushes flushes calls }) ∧
    ∃ data state rest, DataChunks l sealer codec data state ∧
      (rest = [] ∨ Ending l sealer state rest) ∧
      (w.serveAll requests).sink.bytes <+: l.frames data ++ rest ∧
      ((w.serveAll requests).phase = .closed → Ending l sealer state rest ∧
        (w.serveAll requests).sink.bytes = l.frames data ++ rest) := by
  refine ⟨fun request f hfails hf => stuck_of_failed (failed_of_fails hfails hf), ?_,
    one_end hsink h requests⟩
  intro hclose later
  have hclosed := closed_of_close hclose
  obtain ⟨flushes, calls, hlater⟩ := closed_serveAll hclosed later
  refine ⟨shut_of_closed ?_, flushes, calls, hlater⟩
  rw [hlater]
  exact hclosed

/-- A chunk that cannot be sealed: the failure is the answer to everything after it, the
close included.  Without the fault the same writer is closed, and refuses what follows. -/
theorem failing_sealer_life :
    (∃ w, start .perfect (Chunk.failingSealer 0 .encryptionFailed) 0 sampleLayout = .ok w ∧
      (w.write [97, 98]).1 = .error .encryptionFailed ∧
      (w.serveAll [.write [97, 98], .close, .write [], .flush]).close =
        (.error .encryptionFailed, (w.write [97, 98]).2)) ∧
    ∃ w, start .perfect (Chunk.failingSealer 0 .encryptionFailed) 9 sampleLayout = .ok w ∧
      (w.serveAll [.write [97, 98]]).close.1 = .ok () ∧
      ((w.serveAll [.write [97, 98]]).close.2.serveAll [.flush, .close]).sink.bytes =
        [3, 1, 97, 98, 1, 0] ∧
      ((w.serveAll [.write [97, 98]]).close.2.serveAll [.flush, .close]).Shut := by
  constructor
  · have hstart : start .perfect (Chunk.failingSealer 0 .encryptionFailed) 0 sampleLayout =
        .ok _ := rfl
    obtain ⟨hstuck, -, -⟩ := writer_life_cycle rfl hstart []
    have hfailed := hstuck (.write [97, 98]) .encryptionFailed rfl (by decide)
    refine ⟨_, hstart, rfl, ?_⟩
    exact (congrArg close (hfailed.still [.close, .write [], .flush])).trans hfailed.refuses.close
  · have hstart : start .perfect (Chunk.failingSealer 0 .encryptionFailed) 9 sampleLayout =
        .ok _ := rfl
    obtain ⟨-, hclosed, -⟩ := writer_life_cycle rfl hstart [.write [97, 98]]
    exact ⟨_, hstart, rfl, rfl, (hclosed rfl [.flush, .close]).1⟩

end Writer

end SealedStream
