import SealedStream.Writer

/-!
# Calls of every kind

A writer is called in four ways: to write, to write as a byte channel, to flush and
to close.  A run is a list of such calls, made one after the other whatever they are
answered, on a sealer and a sink either of which may fail at any time.

Two of the phases of a writer are never left.  A writer that has failed refuses every
call with the failure it has kept.  A closed writer refuses every call but a flush,
and a flush passes it by: nothing of it changes but the part of its sink that answers
flushes.
-/

namespace SealedStream

namespace Sink

/-- The same sink with another part for flushes: the replies to come, and how often it
has been flushed. -/
def withFlushes (s : Sink) (flushes : List Reply) (calls : Nat) : Sink :=
  { s with flushes := flushes, flushCalls := calls }

@[simp] theorem bytes_withFlushes (s : Sink) (flushes : List Reply) (calls : Nat) :
    (s.withFlushes flushes calls).bytes = s.bytes := rfl

/-- A flush uses up one reply and does nothing else. -/
theorem flush_snd (s : Sink) :
    s.flush.2 = s.withFlushes s.flushes.tail (s.flushCalls + 1) := by
  unfold flush withFlushes
  cases hflushes : s.flushes with
  | nil => rfl
  | cons reply replies => cases reply <;> rfl

end Sink

namespace Writer

variable {σ : Type} {w : Writer σ} {f : Failure}

/-- A call on a writer, of any kind. -/
inductive Request
  | write (data : Bytes)
  | writeSome (data : Bytes)
  | flush
  | close
  deriving DecidableEq, Repr

/-- The writer after a call, whatever the call has been answered. -/
def serve (w : Writer σ) : Request → Writer σ
  | .write data => (w.write data).2
  | .writeSome data => (w.writeSome data).2
  | .flush => w.flush.2
  | .close => w.close.2

/-- The writer after these calls, made one after the other. -/
def serveAll : Writer σ → List Request → Writer σ
  | w, [] => w
  | w, request :: requests => serveAll (w.serve request) requests

/-- The call is answered with success. -/
def Succeeds (w : Writer σ) : Request → Prop
  | .write data => ∃ n, (w.write data).1 = .ok n
  | .writeSome data => ∃ n, (w.writeSome data).1 = .ok n
  | .flush => w.flush.1 = .ok ()
  | .close => w.close.1 = .ok ()

/-- Each of the calls is answered with success. -/
def AllSucceed : Writer σ → List Request → Prop
  | _, [] => True
  | w, request :: requests => w.Succeeds request ∧ AllSucceed (w.serve request) requests

/-- The call is answered with this failure of the stream.  Of a flush nothing is said: what
it reports may be the sink's own. -/
def Fails (w : Writer σ) (f : Failure) : Request → Prop
  | .write data => (w.write data).1 = .error f
  | .writeSome data => (w.writeSome data).1 = .error (.stream f)
  | .flush => False
  | .close => w.close.1 = .error f

/-! ## The byte channel -/

/-- Writing as a byte channel does the same to the writer. -/
@[simp] theorem writeSome_snd (w : Writer σ) (data : Bytes) :
    (w.writeSome data).2 = (w.write data).2 := by
  unfold writeSome
  split <;> simp_all

/-- An error of the byte channel is the failure of the write. -/
theorem writeSome_error {data : Bytes} {e : ChannelError}
    (h : (w.writeSome data).1 = .error e) :
    ∃ f, e = .stream f ∧ (w.write data).1 = .error f := by
  unfold writeSome at h
  split at h
  · simp at h
  · rename_i f w' hwrite
    exact ⟨f, (Except.error.inj h).symm, by rw [hwrite]⟩

/-- The byte channel succeeds where the write does. -/
theorem writeSome_ok {data : Bytes} {n : Nat} (h : (w.writeSome data).1 = .ok n) :
    (w.write data).1 = .ok n := by
  unfold writeSome at h
  split at h
  · rename_i m w' hwrite
    rw [hwrite, ← Except.ok.inj h]
  · simp at h

/-! ## A writer that has failed -/

/-- Every call is refused with this failure, and leaves the writer, its sealer and its
sink as they are. -/
structure Refuses (w : Writer σ) (f : Failure) : Prop where
  write (data : Bytes) : w.write data = (.error f, w)
  writeSome (data : Bytes) : w.writeSome data = (.error (.stream f), w)
  flush : w.flush = (.error (.stream f), w)
  close : w.close = (.error f, w)

theorem refuses_of_failed (h : w.phase = .failed f) : w.Refuses f where
  write data := by simp [Writer.write, h]
  writeSome data := by simp [Writer.writeSome, Writer.write, h]
  flush := by simp [Writer.flush, h]
  close := by simp [Writer.close, h]

theorem Refuses.serve (h : w.Refuses f) (request : Request) : w.serve request = w := by
  cases request with
  | write data => exact congrArg Prod.snd (h.write data)
  | writeSome data => exact congrArg Prod.snd (h.writeSome data)
  | flush => exact congrArg Prod.snd h.flush
  | close => exact congrArg Prod.snd h.close

/-- A writer that refuses every call is never changed again. -/
theorem Refuses.serveAll (h : w.Refuses f) (requests : List Request) :
    w.serveAll requests = w := by
  induction requests with
  | nil => rfl
  | cons request requests ih => rw [Writer.serveAll, h.serve request, ih]

/-- A write that fails, on a writer that is not closed, has the writer fail. -/
theorem failed_of_write {data : Bytes} (h : (w.write data).1 = .error f)
    (hf : f ≠ .streamClosed) : (w.write data).2.phase = .failed f := by
  unfold write at h ⊢
  cases hphase : w.phase with
  | closed =>
      simp only [hphase] at h
      exact (hf (Except.error.inj h).symm).elim
  | failed g =>
      simp only [hphase] at h ⊢
      obtain rfl := Except.error.inj h
      rfl
  | writing =>
      simp only [hphase] at h ⊢
      split at h
      · simp at h
      · rename_i hdata
        rw [if_neg hdata]
        split at h
        · simp at h
        · rename_i g w' hstep
          obtain rfl := Except.error.inj h
          rfl

/-- So does a close that fails. -/
theorem failed_of_close (h : w.close.1 = .error f) (hf : f ≠ .streamClosed) :
    w.close.2.phase = .failed f := by
  unfold close at h ⊢
  cases hphase : w.phase with
  | closed =>
      simp only [hphase] at h
      exact (hf (Except.error.inj h).symm).elim
  | failed g =>
      simp only [hphase] at h ⊢
      obtain rfl := Except.error.inj h
      rfl
  | writing =>
      simp only [hphase] at h ⊢
      split at h
      · simp at h
      · rename_i g w' hstep
        obtain rfl := Except.error.inj h
        rfl

theorem failed_of_fails {request : Request} (h : w.Fails f request) (hf : f ≠ .streamClosed) :
    (w.serve request).phase = .failed f := by
  cases request with
  | write data => exact failed_of_write h hf
  | writeSome data =>
      obtain ⟨g, hg, hwrite⟩ := writeSome_error h
      obtain rfl : f = g := ChannelError.stream.inj hg
      rw [serve, writeSome_snd]
      exact failed_of_write hwrite hf
  | flush => exact h.elim
  | close => exact failed_of_close h hf

/-! ## A closed writer -/

/-- Every call but a flush is refused, and leaves everything as it is. -/
structure Shut (w : Writer σ) : Prop where
  write (data : Bytes) : w.write data = (.error .streamClosed, w)
  writeSome (data : Bytes) : w.writeSome data = (.error (.stream .streamClosed), w)
  close : w.close = (.error .streamClosed, w)

theorem shut_of_closed (h : w.phase = .closed) : w.Shut where
  write data := by simp [Writer.write, h]
  writeSome data := by simp [Writer.writeSome, Writer.write, h]
  close := by simp [Writer.close, h]

theorem closed_of_close (h : w.close.1 = .ok ()) : w.close.2.phase = .closed := by
  unfold close at h ⊢
  cases hphase : w.phase with
  | closed | failed => simp [hphase] at h
  | writing =>
      simp only [hphase] at h ⊢
      split at h
      · rfl
      · simp at h

/-- Unless the writer has failed, a flush is passed on to the sink, with its answer, and
does nothing else. -/
theorem flush_passes (h : ∀ f, w.phase ≠ .failed f) :
    w.flush = (w.sink.flush.1.mapError .plain, { w with sink := w.sink.flush.2 }) := by
  unfold flush
  cases hphase : w.phase with
  | failed f => exact (h f hphase).elim
  | writing | closed =>
      dsimp only
      cases w.sink.flush with
      | mk answer sink => cases answer <;> rfl

/-- Whatever its phase, a flush changes the part of the sink that is for flushes alone. -/
theorem flush_writer (w : Writer σ) :
    ∃ flushes calls, w.flush.2 = { w with sink := w.sink.withFlushes flushes calls } := by
  by_cases hphase : ∃ f, w.phase = .failed f
  · obtain ⟨f, hfailed⟩ := hphase
    rw [(refuses_of_failed hfailed).flush]
    exact ⟨w.sink.flushes, w.sink.flushCalls, rfl⟩
  · rw [flush_passes fun f hfailed => hphase ⟨f, hfailed⟩, Sink.flush_snd]
    exact ⟨_, _, rfl⟩

/-- A closed writer changes in the part of its sink that is for flushes, and in nothing
else. -/
theorem closed_serve (h : w.phase = .closed) (request : Request) :
    ∃ flushes calls, w.serve request =
      { w with sink := w.sink.withFlushes flushes calls } := by
  have hshut := shut_of_closed h
  have hsame : ∃ flushes calls, w = { w with sink := w.sink.withFlushes flushes calls } :=
    ⟨w.sink.flushes, w.sink.flushCalls, rfl⟩
  cases request with
  | write data => rwa [serve, hshut.write]
  | writeSome data => rwa [serve, hshut.writeSome]
  | close => rwa [serve, hshut.close]
  | flush => exact w.flush_writer

theorem closed_serveAll (h : w.phase = .closed) (requests : List Request) :
    ∃ flushes calls, w.serveAll requests =
      { w with sink := w.sink.withFlushes flushes calls } := by
  induction requests generalizing w with
  | nil => exact ⟨w.sink.flushes, w.sink.flushCalls, rfl⟩
  | cons request requests ih =>
      obtain ⟨flushes, calls, hserve⟩ := closed_serve h request
      rw [serveAll, hserve]
      exact ih h

end Writer

end SealedStream
