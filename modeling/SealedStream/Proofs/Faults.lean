import SealedStream.Proofs.Uniform
import SealedStream.Proofs.Writing

/-!
# Sinks with faults

A sink answers from a schedule of replies.  Most replies let it go on, however little
they accept; a reply that accepts nothing, or fails with more than an interruption,
ends the call with an error.  `Sink.Unfaulted` and `Sink.Faulted` say from the replies
used up between two states of a sink that none of them has ended a call, or that the
last one has, with which error.

Next to a sink that has accepted everything so far, a sink with faults has accepted
the same bytes as long as it is not faulted, and the beginning of them for ever after.
-/

namespace SealedStream

namespace Sink

/-- The error with which a reply ends a write, if it ends it. -/
def Reply.writeError? : Reply → Option IoError
  | .accept limit => if limit = 0 then some .nothingWritten else none
  | .failure e => if e.isInterrupted then none else some e

/-- The error with which a reply ends a flush. -/
def Reply.flushError? : Reply → Option IoError
  | .accept _ => none
  | .failure e => some e

/-- Coming from the first state to the second, the sink has used up no reply that ends a
call. -/
def Unfaulted (s s' : Sink) : Prop :=
  ∃ writes flushes, s.writes = writes ++ s'.writes ∧ s.flushes = flushes ++ s'.flushes ∧
    (∀ r ∈ writes, r.writeError? = none) ∧ ∀ r ∈ flushes, r.flushError? = none

/-- Coming from the first state to the second, the last reply that the sink has used up is
the first one to end a call, and it has ended it with this error. -/
def Faulted (e : IoError) (s s' : Sink) : Prop :=
  ∃ m, s.Unfaulted m ∧
    ((∃ r, m.writes = r :: s'.writes ∧ m.flushes = s'.flushes ∧ r.writeError? = some e) ∨
      ∃ r, m.flushes = r :: s'.flushes ∧ m.writes = s'.writes ∧ r.flushError? = some e)

/-- The sink has no faults to come. -/
structure Perfect (s : Sink) : Prop where
  writes_eq : s.writes = []
  flushes_eq : s.flushes = []

/-- What had been accepted after so many pieces. -/
def bytesAfter (s : Sink) (k : Nat) : Bytes :=
  (s.pieces.reverse.take k).flatten

variable {s s' a b : Sink} {e : IoError}

/-- At no time had anything been accepted that is not there in the end. -/
theorem bytesAfter_prefix (s : Sink) (k : Nat) : s.bytesAfter k <+: s.bytes := by
  refine ⟨(s.pieces.reverse.drop k).flatten, ?_⟩
  rw [bytesAfter, bytes, ← List.flatten_append, List.take_append_drop]

theorem Unfaulted.refl (s : Sink) : s.Unfaulted s :=
  ⟨[], [], rfl, rfl, by simp, by simp⟩

theorem Unfaulted.trans {s₁ s₂ s₃ : Sink} (h : s₁.Unfaulted s₂) (h' : s₂.Unfaulted s₃) :
    s₁.Unfaulted s₃ := by
  obtain ⟨writes, flushes, hwrites, hflushes, hw, hf⟩ := h
  obtain ⟨writes', flushes', hwrites', hflushes', hw', hf'⟩ := h'
  refine ⟨writes ++ writes', flushes ++ flushes', by simp [hwrites, hwrites'],
    by simp [hflushes, hflushes'], ?_, ?_⟩
  · intro r hr
    exact (List.mem_append.1 hr).elim (hw r) (hw' r)
  · intro r hr
    exact (List.mem_append.1 hr).elim (hf r) (hf' r)

theorem Unfaulted.faulted {s₁ s₂ s₃ : Sink} (h : s₁.Unfaulted s₂) (h' : s₂.Faulted e s₃) :
    s₁.Faulted e s₃ := by
  obtain ⟨m, hm, hlast⟩ := h'
  exact ⟨m, h.trans hm, hlast⟩

/-- The last reply used up has ended a call, or none has. -/
theorem Faulted.not_unfaulted (h : s.Faulted e s') : ¬ s.Unfaulted s' := by
  rintro ⟨writes, flushes, hwrites, hflushes, hw, hf⟩
  obtain ⟨m, ⟨writes', flushes', hwrites', hflushes', -, -⟩, hlast⟩ := h
  -- Both have left the same replies, so the one that has ended a call is among those
  -- that have not.
  rcases hlast with ⟨r, hr, -, hends⟩ | ⟨r, hr, -, hends⟩
  · have hsame : writes ++ s'.writes = (writes' ++ [r]) ++ s'.writes := by
      rw [← hwrites, hwrites', hr, List.append_assoc, List.singleton_append]
    have hused := List.append_cancel_right hsame
    simp [hw r (by simp [hused])] at hends
  · have hsame : flushes ++ s'.flushes = (flushes' ++ [r]) ++ s'.flushes := by
      rw [← hflushes, hflushes', hr, List.append_assoc, List.singleton_append]
    have hused := List.append_cancel_right hsame
    simp [hf r (by simp [hused])] at hends

/-- The errors with which calls of the sink can end. -/
def errors (s : Sink) : List IoError :=
  s.writes.filterMap Reply.writeError? ++ s.flushes.filterMap Reply.flushError?

/-- What has ended a call is one of the replies that there were. -/
theorem Faulted.mem_errors (h : s.Faulted e s') : e ∈ s.errors := by
  obtain ⟨m, ⟨writes, flushes, hwrites, hflushes, -, -⟩, hlast⟩ := h
  apply List.mem_append.2
  rcases hlast with ⟨r, hr, -, hends⟩ | ⟨r, hr, -, hends⟩
  · exact .inl (List.mem_filterMap.2 ⟨r, by simp [hwrites, hr], hends⟩)
  · exact .inr (List.mem_filterMap.2 ⟨r, by simp [hflushes, hr], hends⟩)

/-! ## Writing -/

/-- A write that came upon these replies has used up some that let the sink go on, and,
if it has failed, the one that ended it. -/
def UsedUp (replies : List Reply) (s : Sink) (r : Except IoError Unit × Sink) : Prop :=
  r.2.flushes = s.flushes ∧ ∃ used, (∀ reply ∈ used, reply.writeError? = none) ∧
    ((r.1 = .ok () ∧ replies = used ++ r.2.writes) ∨
      ∃ reply e, r.1 = .error e ∧ reply.writeError? = some e ∧
        replies = used ++ reply :: r.2.writes)

theorem UsedUp.cons {replies : List Reply} {r : Except IoError Unit × Sink} {reply : Reply}
    (h : UsedUp replies s r) (hreply : reply.writeError? = none) :
    UsedUp (reply :: replies) s r := by
  obtain ⟨hflushes, used, hused, hend⟩ := h
  refine ⟨hflushes, reply :: used, by simpa [hreply] using hused, ?_⟩
  rcases hend with ⟨hok, hrest⟩ | ⟨last, e, herror, hlast, hrest⟩
  · exact .inl ⟨hok, congrArg (reply :: ·) hrest⟩
  · exact .inr ⟨last, e, herror, hlast, congrArg (reply :: ·) hrest⟩

theorem deliver_usedUp (s : Sink) (replies : List Reply) (bs : Bytes) :
    UsedUp replies s (s.deliver replies bs) := by
  induction replies generalizing s bs with
  | nil => cases bs <;> exact ⟨rfl, [], by simp, .inl ⟨rfl, rfl⟩⟩
  | cons reply replies ih =>
      cases bs with
      | nil => exact ⟨rfl, [], by simp, .inl ⟨rfl, rfl⟩⟩
      | cons b bs =>
          cases reply with
          | accept limit =>
              simp only [deliver]
              split
              · rename_i hlimit
                exact ⟨rfl, [], by simp,
                  .inr ⟨_, .nothingWritten, rfl, by simp [Reply.writeError?, hlimit], rfl⟩⟩
              · rename_i hlimit
                exact (ih (push { s with writeCalls := s.writeCalls + 1 }
                  ((b :: bs).take limit)) ((b :: bs).drop limit)).cons
                  (by simp [Reply.writeError?, hlimit])
          | failure e =>
              simp only [deliver]
              split
              · rename_i he
                exact (ih { s with writeCalls := s.writeCalls + 1 } (b :: bs)).cons
                  (by simp [Reply.writeError?, he])
              · rename_i he
                exact ⟨rfl, [], by simp,
                  .inr ⟨_, e, rfl, by simp [Reply.writeError?, he], rfl⟩⟩

/-- A write that fails leaves the sink with the beginning of what it was offered. -/
theorem deliver_prefix (s : Sink) (replies : List Reply) (bs : Bytes) :
    (s.deliver replies bs).2.bytes <+: s.bytes ++ bs := by
  induction replies generalizing s bs with
  | nil =>
      cases bs with
      | nil => exact ⟨[], by simp [deliver, bytes]⟩
      | cons b bs => exact ⟨[], by simp [deliver, bytes, push]⟩
  | cons reply replies ih =>
      cases bs with
      | nil => exact ⟨[], by simp [deliver, bytes]⟩
      | cons b bs =>
          cases reply with
          | accept limit =>
              simp only [deliver]
              split
              · exact List.prefix_append _ _
              · have hstep := ih (push { s with writeCalls := s.writeCalls + 1 }
                  ((b :: bs).take limit)) ((b :: bs).drop limit)
                rw [bytes_push, List.append_assoc, List.take_append_drop] at hstep
                exact hstep
          | failure e =>
              simp only [deliver]
              split
              · exact ih { s with writeCalls := s.writeCalls + 1 } (b :: bs)
              · exact List.prefix_append _ _

theorem writeAll_replies (s : Sink) (bs : Bytes) :
    ((s.writeAll bs).1 = .ok () ∧ s.Unfaulted (s.writeAll bs).2) ∨
      ∃ e, (s.writeAll bs).1 = .error e ∧ s.Faulted e (s.writeAll bs).2 := by
  obtain ⟨hflushes, used, hused, hend⟩ := deliver_usedUp s s.writes bs
  rcases hend with ⟨hok, hrest⟩ | ⟨r, e, herror, hr, hrest⟩
  · exact .inl ⟨hok, used, [], hrest, hflushes.symm, hused, by simp⟩
  · refine .inr ⟨e, herror, { s with writes := r :: (s.writeAll bs).2.writes },
      ⟨used, [], hrest, rfl, hused, by simp⟩, .inl ⟨r, rfl, hflushes.symm, hr⟩⟩

/-- A sink without faults accepts everything, and stays without faults. -/
theorem Perfect.writeAll (h : b.Perfect) (bs : Bytes) :
    (b.writeAll bs).1 = .ok () ∧ (b.writeAll bs).2.Perfect ∧
      (b.writeAll bs).2.bytes = b.bytes ++ bs := by
  have hstep : (b.writeAll bs).1 = .ok () ∧ (b.writeAll bs).2.Perfect := by
    rw [Sink.writeAll, h.writes_eq]
    cases bs <;> exact ⟨rfl, rfl, h.flushes_eq⟩
  exact ⟨hstep.1, hstep.2, bytes_writeAll (Prod.ext hstep.1 rfl)⟩

/-! ## Flushing -/

theorem flush_replies (s : Sink) :
    (s.flush.1 = .ok () ∧ s.Unfaulted s.flush.2) ∨
      ∃ e, s.flush.1 = .error e ∧ s.Faulted e s.flush.2 := by
  unfold flush
  cases hflushes : s.flushes with
  | nil => exact .inl ⟨rfl, [], [], rfl, hflushes, by simp, by simp⟩
  | cons reply replies =>
      cases reply with
      | accept limit =>
          exact .inl ⟨rfl, [], [.accept limit], rfl, hflushes, by simp,
            by simp [Reply.flushError?]⟩
      | failure e => exact .inr ⟨e, rfl, s, .refl s, .inr ⟨.failure e, hflushes, rfl, rfl⟩⟩

theorem Perfect.flush (h : b.Perfect) : b.flush.1 = .ok () ∧ b.flush.2.Perfect := by
  unfold Sink.flush
  rw [h.flushes_eq]
  exact ⟨rfl, h.writes_eq, rfl⟩

/-! ## A sink beside one that accepts everything -/

/-- One thing is true of a sink as long as its calls succeed, another one when a call has
ended with an error. -/
structure Tracks (P : Sink → Prop) (Q : IoError → Sink → Prop) : Prop where
  writeAll_ok {a : Sink} (bs : Bytes) :
    P a → (a.writeAll bs).1 = .ok () → P (a.writeAll bs).2
  writeAll_error {a : Sink} {e : IoError} (bs : Bytes) :
    P a → (a.writeAll bs).1 = .error e → Q e (a.writeAll bs).2
  flush_ok {a : Sink} : P a → a.flush.1 = .ok () → P a.flush.2
  flush_error {a : Sink} {e : IoError} : P a → a.flush.1 = .error e → Q e a.flush.2

/-- Where only the bytes matter, nothing else is tracked. -/
theorem tracks_nothing : Tracks (fun _ => True) fun _ _ => True where
  writeAll_ok _ _ _ := trivial
  writeAll_error _ _ _ := trivial
  flush_ok _ _ := trivial
  flush_error _ _ := trivial

theorem tracks_faults (s : Sink) : Tracks s.Unfaulted fun e a => s.Faulted e a where
  writeAll_ok {a} bs h hok := by
    rcases a.writeAll_replies bs with ⟨-, hstep⟩ | ⟨e, herror, -⟩
    · exact h.trans hstep
    · simp [herror] at hok
  writeAll_error {a e} bs h herror := by
    rcases a.writeAll_replies bs with ⟨hok, -⟩ | ⟨e', herror', hstep⟩
    · simp [hok] at herror
    · obtain rfl : e' = e := Except.error.inj (herror'.symm.trans herror)
      exact h.faulted hstep
  flush_ok {a} h hok := by
    rcases a.flush_replies with ⟨-, hstep⟩ | ⟨e, herror, -⟩
    · exact h.trans hstep
    · simp [herror] at hok
  flush_error {a e} h herror := by
    rcases a.flush_replies with ⟨hok, -⟩ | ⟨e', herror', hstep⟩
    · simp [hok] at herror
    · obtain rfl : e' = e := Except.error.inj (herror'.symm.trans herror)
      exact h.faulted hstep

variable {P : Sink → Prop} {Q : IoError → Sink → Prop}

/-- Both have accepted the same, the second one without faults. -/
structure Level (P : Sink → Prop) (a b : Sink) : Prop where
  perfect : b.Perfect
  bytes_eq : b.bytes = a.bytes
  tracked : P a

/-- What the first one has accepted is the beginning of what the second one has, which is
without faults. -/
structure Behind (Q : IoError → Sink → Prop) (e : IoError) (a b : Sink) : Prop where
  perfect : b.Perfect
  bytes_prefix : a.bytes <+: b.bytes
  tracked : Q e a

theorem Behind.writeAll (h : Behind Q e a b) (bs : Bytes) :
    Behind Q e a (b.writeAll bs).2 := by
  obtain ⟨-, hperfect, hbytes⟩ := h.perfect.writeAll bs
  exact ⟨hperfect, hbytes ▸ h.bytes_prefix.trans (List.prefix_append _ _), h.tracked⟩

theorem Behind.flush (h : Behind Q e a b) : Behind Q e a b.flush.2 := by
  refine ⟨h.perfect.flush.2, ?_, h.tracked⟩
  rw [bytes_flush]
  exact h.bytes_prefix

theorem Tracks.flushPairing (h : Tracks P Q) : FlushPairing (Level P) (Behind Q) where
  goesOn bs hbehind := hbehind.writeAll bs
  flushesOn hbehind := hbehind.flush
  writeAll {a b} bs hlevel := by
    obtain ⟨hok, hperfect, hbytes⟩ := hlevel.perfect.writeAll bs
    cases hanswer : (a.writeAll bs).1 with
    | ok u =>
        refine .inl ⟨hok, hperfect, ?_, h.writeAll_ok bs hlevel.tracked hanswer⟩
        rw [hbytes, hlevel.bytes_eq, bytes_writeAll (Prod.ext hanswer rfl)]
    | error e =>
        refine .inr ⟨e, rfl, hperfect, ?_, h.writeAll_error bs hlevel.tracked hanswer⟩
        rw [hbytes, hlevel.bytes_eq]
        exact deliver_prefix a a.writes bs
  flush {a b} hlevel := by
    have hbytes : b.flush.2.bytes = a.flush.2.bytes := by
      rw [bytes_flush, bytes_flush, hlevel.bytes_eq]
    cases hanswer : a.flush.1 with
    | ok u =>
        exact .inl ⟨hlevel.perfect.flush.1, hlevel.perfect.flush.2, hbytes,
          h.flush_ok hlevel.tracked hanswer⟩
    | error e =>
        exact .inr ⟨e, rfl, hlevel.perfect.flush.2, hbytes ▸ List.prefix_rfl,
          h.flush_error hlevel.tracked hanswer⟩

end Sink

end SealedStream
