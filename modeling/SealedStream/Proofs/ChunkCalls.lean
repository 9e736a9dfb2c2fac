import SealedStream.Aead
import SealedStream.Proofs.Record

/-!
# Calls one after another

A sealer may be called on after a call that has failed, and so may an opener.  A run is
therefore a list of calls with their answers: the texts or chunks that were asked about,
and what came back for each.  `sealings` lists what a run of a sealer has sealed.
-/

namespace SealedStream

namespace Sealer

variable {σ : Type}

/-- The answers of a sealer that is called with these texts one after another, also
after a call that has failed, and its state after them. -/
def callAll (sealer : Sealer σ) : σ → List Bytes → List (Except Failure Bytes) × σ
  | s, [] => ([], s)
  | s, text :: texts =>
      let call := sealer.sealChunk s text
      let rest := sealer.callAll call.2 texts
      (call.1 :: rest.1, rest.2)

theorem length_callAll (sealer : Sealer σ) (s : σ) (texts : List Bytes) :
    (sealer.callAll s texts).1.length = texts.length := by
  induction texts generalizing s with
  | nil => rfl
  | cons text texts ih => simp [callAll, ih]

end Sealer

/-- The chunks that have been sealed by calls with these texts, each with its text. -/
def sealings : List Bytes → List (Except Failure Bytes) → List Sealing
  | text :: texts, .ok chunk :: answers => ⟨text, chunk⟩ :: sealings texts answers
  | _ :: texts, .error _ :: answers => sealings texts answers
  | _, _ => []

/-- How many of the first `i` calls have sealed their chunk. -/
def sealedBefore (answers : List (Except Failure Bytes)) (i : Nat) : Nat :=
  (answers.take i).countP (·.isOk)

theorem sealedBefore_cons (answer : Except Failure Bytes)
    (answers : List (Except Failure Bytes)) (i : Nat) :
    sealedBefore (answer :: answers) (i + 1) =
      sealedBefore answers i + if answer.isOk then 1 else 0 := by
  simp [sealedBefore, List.countP_cons]

theorem sealedBefore_succ (answers : List (Except Failure Bytes)) (i : Nat) :
    sealedBefore answers (i + 1) =
      sealedBefore answers i + (answers[i]?.toList).countP (·.isOk) := by
  rw [sealedBefore, List.take_add_one, List.countP_append, ← sealedBefore]

theorem sealedBefore_succ_of_ok {answers : List (Except Failure Bytes)} {i : Nat}
    {chunk : Bytes} (h : answers[i]? = some (.ok chunk)) :
    sealedBefore answers (i + 1) = sealedBefore answers i + 1 := by
  simp [sealedBefore_succ, h, Except.isOk, Except.toBool]

/-- A call that seals its chunk is counted in every later call. -/
theorem sealedBefore_lt {answers : List (Except Failure Bytes)} {i j : Nat}
    {chunk : Bytes} (hi : answers[i]? = some (.ok chunk)) (hij : i < j) :
    sealedBefore answers i < sealedBefore answers j := by
  have hstep := sealedBefore_succ_of_ok hi
  have hlater : sealedBefore answers (i + 1) ≤ sealedBefore answers j :=
    (List.take_sublist_take_left hij).countP_le
  omega

/-- Each of the calls that seal their chunks has its number. -/
theorem exists_sealed {answers : List (Except Failure Bytes)} {k n : Nat}
    (h : k < sealedBefore answers n) :
    ∃ i chunk, answers[i]? = some (.ok chunk) ∧ sealedBefore answers i = k := by
  induction n with
  | zero => simp [sealedBefore] at h
  | succ n ih =>
      by_cases hk : k < sealedBefore answers n
      · exact ih hk
      · cases hn : answers[n]? with
        | none =>
            simp [sealedBefore_succ, hn] at h
            omega
        | some answer =>
            cases answer with
            | error f =>
                simp [sealedBefore_succ, hn, Except.isOk, Except.toBool] at h
                omega
            | ok chunk =>
                have hstep := sealedBefore_succ_of_ok hn
                exact ⟨n, chunk, hn, by omega⟩

namespace Opener

variable {τ : Type}

/-- The answers of an opener that is called with these chunks one after another, also
after a call that has failed, and its state after them. -/
def callAll (opener : Opener τ) : τ → List Bytes → List (Except Failure Bytes) × τ
  | t, [] => ([], t)
  | t, chunk :: chunks =>
      let call := opener.openChunk t chunk
      let rest := opener.callAll call.2 chunks
      (call.1 :: rest.1, rest.2)

end Opener

namespace Aead

/-- What a call of the cipher under this nonce amounts to. -/
def answer (a : Aead) (nonce text : Bytes) : Except Failure Bytes :=
  (a.sealText nonce text).elim (.error .encryptionFailed) .ok

theorem sealText_of_answer {a : Aead} {nonce text chunk : Bytes}
    (h : a.answer nonce text = .ok chunk) : a.sealText nonce text = some chunk := by
  unfold answer at h
  cases hseal : a.sealText nonce text with
  | none => simp [hseal] at h
  | some sealed => simpa [hseal] using h

theorem exists_ok_of_answer {a : Aead} {nonce text : Bytes}
    (h : a.answer nonce text ≠ .error .encryptionFailed) :
    ∃ chunk, a.answer nonce text = .ok chunk := by
  unfold answer at h ⊢
  cases hseal : a.sealText nonce text with
  | none => simp [hseal] at h
  | some sealed => exact ⟨sealed, rfl⟩

end Aead

end SealedStream
