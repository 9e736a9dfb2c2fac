import SealedStream.Layout
import SealedStream.Proofs.Integers
import SealedStream.Proofs.Record

/-!
# Frames

What a layout makes of chunks: the number at the front of a plaintext, where
chunks are numbered, and the length in front of a sealed chunk, where lengths
are written.  Writer and reader are both measured against these.
-/

namespace SealedStream

namespace Layout

/-- The bytes with which the chunk of a number begins. -/
def number (l : Layout) (i : Nat) : Bytes :=
  match l.counter? with
  | none => []
  | some form => form.bytes i

/-- A sealed chunk as it goes onto the wire. -/
def frame (l : Layout) (chunk : Bytes) : Bytes :=
  match l.length? with
  | none => chunk
  | some form => form.bytes chunk.length ++ chunk

/-- The frames of sealed chunks, one behind the other. -/
def frames (l : Layout) (record : List Sealing) : Bytes :=
  record.flatMap fun c => l.frame c.chunk

/-- The plaintexts of chunks with these payloads, numbered from `i` on. -/
def numbered (l : Layout) : (i : Nat) → List Bytes → List Bytes
  | _, [] => []
  | i, payload :: payloads => (l.number i ++ payload) :: numbered l (i + 1) payloads

/-- Payloads with the rest behind them, if there is one. -/
def withRest (payloads : List Bytes) (rest : Bytes) : List Bytes :=
  if rest = [] then payloads else payloads ++ [rest]

/-- A sealed chunk within the limit of a reader, if it has one. -/
def Admits (l : Layout) (overhead : Nat) (chunk : Bytes) : Prop :=
  ∀ limit, l.chunkLimit? overhead = some limit → chunk.length ≤ limit

instance (l : Layout) (overhead : Nat) (chunk : Bytes) : Decidable (l.Admits overhead chunk) :=
  inferInstanceAs (Decidable (∀ limit ∈ l.chunkLimit? overhead, chunk.length ≤ limit))

@[simp] theorem frames_nil (l : Layout) : l.frames [] = [] := rfl

@[simp] theorem frames_cons (l : Layout) (c : Sealing) (record : List Sealing) :
    l.frames (c :: record) = l.frame c.chunk ++ l.frames record := by
  simp [frames]

@[simp] theorem frames_append (l : Layout) (xs ys : List Sealing) :
    l.frames (xs ++ ys) = l.frames xs ++ l.frames ys := by
  simp [frames]

theorem numbered_concat (l : Layout) (i : Nat) (payloads : List Bytes)
    (payload : Bytes) :
    l.numbered i (payloads ++ [payload]) =
      l.numbered i payloads ++ [l.number (i + payloads.length) ++ payload] := by
  induction payloads generalizing i with
  | nil => simp [numbered]
  | cons p payloads ih =>
      simp only [List.cons_append, numbered, ih, List.length_cons,
        show i + 1 + payloads.length = i + (payloads.length + 1) by omega]

theorem length_numbered (l : Layout) (i : Nat) (payloads : List Bytes) :
    (l.numbered i payloads).length = payloads.length := by
  induction payloads generalizing i with
  | nil => rfl
  | cons p payloads ih => simp [numbered, ih]

theorem numbered_take (l : Layout) (i k : Nat) (payloads : List Bytes) :
    l.numbered i (payloads.take k) = (l.numbered i payloads).take k := by
  induction payloads generalizing i k with
  | nil => simp [numbered]
  | cons p payloads ih =>
      cases k with
      | zero => rfl
      | succ k => simp [numbered, ih]

theorem getElem?_numbered (l : Layout) (i j : Nat) (payloads : List Bytes) :
    (l.numbered i payloads)[j]? = payloads[j]?.map (l.number (i + j) ++ ·) := by
  induction payloads generalizing i j with
  | nil => simp [numbered]
  | cons p payloads ih =>
      cases j with
      | zero => rfl
      | succ j =>
          simp only [numbered, List.getElem?_cons_succ, ih,
            show i + 1 + j = i + (j + 1) by omega]

/-- Without counters the plaintexts are the payloads. -/
theorem numbered_of_uncounted {l : Layout} (h : l.counter? = none) (i : Nat)
    (payloads : List Bytes) : l.numbered i payloads = payloads := by
  induction payloads generalizing i with
  | nil => rfl
  | cons p payloads ih => simp [numbered, number, h, ih]

theorem withRest_cons (payload : Bytes) (payloads : List Bytes) (rest : Bytes) :
    withRest (payload :: payloads) rest = payload :: withRest payloads rest := by
  unfold withRest
  split <;> rfl

theorem withRest_append (front payloads : List Bytes) (rest : Bytes) :
    withRest (front ++ payloads) rest = front ++ withRest payloads rest := by
  unfold withRest
  split
  · rfl
  · exact List.append_assoc _ _ _

@[simp] theorem flatten_withRest (payloads : List Bytes) (rest : Bytes) :
    (withRest payloads rest).flatten = payloads.flatten ++ rest := by
  unfold withRest
  split
  · rename_i hnil
    simp [hnil]
  · simp

theorem length?_of_prefix {l : Layout} (h : l.lengthPrefix = true) :
    l.length? = some l.lengthForm := by
  simp [length?, h]

theorem counter?_of_counter {l : Layout} (h : l.chunkCounter = true) :
    l.counter? = some l.counterForm := by
  simp [counter?, h]

/-- Chunks that are numbered have their length in front. -/
theorem counter_eq_none {l : Layout} (hl : l.check = .ok ()) (h : l.length? = none) :
    l.counter? = none := by
  have hbare : l.lengthPrefix = false := by
    simpa [length?] using h
  by_contra hcounter
  have hcounted : l.chunkCounter = true := by
    simpa [counter?] using hcounter
  simp [check, hcounted, hbare] at hl

/-- Chunks of a fixed size are not empty. -/
theorem bufferSize_ne_zero {l : Layout} (hl : l.check = .ok ())
    (h : l.length? = none) : l.bufferSize ≠ 0 := by
  have hbare : l.lengthPrefix = false := by
    simpa [length?] using h
  intro hbuffer
  cases hcounter : l.chunkCounter <;> simp [check, hcounter, hbare, hbuffer] at hl

/-- In a sound layout the number of a chunk leaves room for payload. -/
theorem length_number_lt {l : Layout} (hl : l.check = .ok ())
    (hbuffer : l.bufferSize ≠ 0) (i : Nat) :
    (l.number i).length < l.bufferSize := by
  unfold number counter?
  by_cases hcounter : l.chunkCounter = true
  · have hroom : l.counterForm.maxWidth < l.bufferSize := by
      by_contra hnot
      have hnarrow : l.bufferSize ≤ l.counterForm.maxWidth := by omega
      unfold check at hl
      simp only [hcounter, hbuffer, hnarrow, true_and, not_false_eq_true, ne_eq,
        and_false, and_self, if_true, if_false] at hl
      split at hl <;> simp at hl
    simpa [hcounter] using
      lt_of_le_of_lt (l.counterForm.length_bytes_le i) hroom
  · simpa [hcounter] using Nat.pos_of_ne_zero hbuffer

end Layout

end SealedStream
