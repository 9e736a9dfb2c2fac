import SealedStream.Proofs.Blocks
import SealedStream.Proofs.Writing

/-!
# Runs of calls

Between its start and its end a writer is called to write and to flush, in any
order.  A run of such calls keeps the standing of the writer, and what it has
sealed and what it holds back are the parts into which the reference divides
what was written: the writer never seals a block before it is full, and never
holds a full one back.
-/

namespace SealedStream

namespace Writer

variable {σ : Type}

/-- A call on a writer that does not end the stream. -/
inductive Call
  | write (data : Bytes)
  | flush
  deriving DecidableEq, Repr

/-- The data of the writes among the calls. -/
def written : List Call → List Bytes
  | [] => []
  | .write data :: calls => data :: written calls
  | .flush :: calls => written calls

/-- Make the calls one after the other, if none of the writes fails.  What a
flush answers is passed over. -/
def performAll : Writer σ → List Call → Option (Writer σ)
  | w, [] => some w
  | w, .write data :: calls =>
      match w.write data with
      | (.ok _, w') => performAll w' calls
      | (.error _, _) => none
  | w, .flush :: calls => performAll w.flush.2 calls

/-- Writes alone are calls without a flush among them. -/
theorem takeAll_eq_performAll (w : Writer σ) (writes : List Bytes) :
    w.takeAll writes = w.performAll (writes.map .write) := by
  induction writes generalizing w with
  | nil => rfl
  | cons data rest ih =>
      simp only [takeAll, List.map_cons, performAll]
      cases w.write data with
      | mk answer w' =>
          cases answer with
          | error f => rfl
          | ok n => exact ih w'

@[simp] theorem written_map_write (writes : List Bytes) :
    written (writes.map .write) = writes := by
  induction writes with
  | nil => rfl
  | cons data rest ih => rw [List.map_cons, written, ih]

/-- A flush changes the schedule of the sink and nothing else. -/
theorem flush_snd (w : Writer σ) :
    ∃ sink : Sink, w.flush.2 = { w with sink := sink } ∧ sink.bytes = w.sink.bytes := by
  have hbytes := Sink.bytes_flush w.sink
  unfold flush
  split
  · exact ⟨w.sink, rfl, rfl⟩
  all_goals
    split
    all_goals
      rename_i sink hflush
      rw [hflush] at hbytes
      exact ⟨sink, rfl, hbytes⟩

section Standing

variable {l : Layout} {sealer : Sealer σ} {codec : σ} {payloads : List Bytes}
  {current : Bytes} {w w' : Writer (Recorded σ)}

theorem start_ready {sealer : Sealer σ} {codec : σ} {l : Layout} {sink : Sink}
    (hsink : sink.bytes = []) {w : Writer (Recorded σ)}
    (h : start sink sealer.recording ⟨codec, []⟩ l = .ok w) :
    Ready l sealer codec [] [] w := by
  obtain ⟨-, rfl⟩ := start_ok h
  exact {
    layout_eq := rfl
    sealer_eq := rfl
    seals := .nil codec
    texts := rfl
    sink_eq := by simpa using hsink
    fits := by simp
    payload_ne := by simp
    none_held := fun _ => rfl
    some_held := fun hne => (hne rfl).elim
    counts := fun form _ => ⟨by simpa using form.capacity_pos, rfl⟩
    room := fun hne => Nat.pos_of_ne_zero hne
    full := by simp
    unbuffered := fun _ => rfl }

theorem Ready.flush (h : Ready l sealer codec payloads current w) :
    Ready l sealer codec payloads current w.flush.2 := by
  obtain ⟨sink, hw, hbytes⟩ := w.flush_snd
  rw [hw]
  exact { h with sink_eq := hbytes.trans h.sink_eq }

/-- A run of calls takes in all of the data written; where nothing is buffered,
each write that is not empty becomes one payload. -/
theorem performAll_ready (hl : l.check = .ok ()) {calls : List Call}
    (h : Ready l sealer codec payloads current w)
    (hcalls : w.performAll calls = some w') :
    ∃ (payloads' : List Bytes) (current' : Bytes),
      Ready l sealer codec payloads' current' w' ∧
        payloads'.flatten ++ current' =
          payloads.flatten ++ current ++ (written calls).flatten ∧
        (l.bufferSize = 0 →
          payloads' = payloads ++ (written calls).filter (· ≠ [])) := by
  induction calls generalizing w payloads current with
  | nil =>
      obtain rfl := Option.some.inj hcalls
      exact ⟨payloads, current, h, by simp [written], by simp [written]⟩
  | cons call calls ih =>
      cases call with
      | flush => exact ih h.flush hcalls
      | write data =>
          simp only [performAll] at hcalls
          split at hcalls
          · rename_i n w₁ hwrite
            obtain ⟨payloads₁, current₁, hready, htaken, hwhole⟩ := write_ready hl h hwrite
            obtain ⟨payloads', current', hready', hall, hwholes⟩ := ih hready hcalls
            refine ⟨payloads', current', hready', ?_, fun hbuffer => ?_⟩
            · rw [hall, htaken, written, List.flatten_cons, List.append_assoc]
            · rw [hwholes hbuffer, hwhole hbuffer, written, Layout.withRest]
              by_cases hdata : data = [] <;> simp [hdata]
          · simp at hcalls

/-- The payloads of a buffered stream fill their chunks. -/
theorem Ready.numbered_full (hbuffer : l.bufferSize ≠ 0)
    (h : Ready l sealer codec payloads current w) :
    ∀ text ∈ l.numbered 1 payloads, text.length = l.bufferSize := by
  intro text htext
  rw [← h.texts] at htext
  obtain ⟨c, hc, rfl⟩ := List.mem_map.1 htext
  exact h.full hbuffer c hc

/-- Between two calls of a buffered stream the payloads are the full blocks of
what has been taken in. -/
theorem Ready.cut_eq (hl : l.check = .ok ()) (hbuffer : l.bufferSize ≠ 0)
    (h : Ready l sealer codec payloads current w) :
    l.cut 1 (payloads.flatten ++ current) = (payloads, current) := by
  refine Layout.cut_eq (h.numbered_full hbuffer) h.payload_ne ?_
  -- The chunk held back is not full, its number included.
  rw [Layout.blockSize, Nat.add_comm 1]
  by_cases hcurrent : current = []
  · have hnumber := Layout.length_number_lt hl hbuffer (payloads.length + 1)
    rw [hcurrent, List.length_nil]
    omega
  · have hroom := h.room hbuffer
    rw [h.some_held hcurrent, List.length_append] at hroom
    omega

/-- After a run of calls a writer has sealed and holds back what the reference
says. -/
theorem performAll_divides (hl : l.check = .ok ()) {calls : List Call}
    (h : Ready l sealer codec [] [] w) (hcalls : w.performAll calls = some w') :
    Ready l sealer codec (l.divide (written calls)).1 (l.divide (written calls)).2 w' := by
  obtain ⟨payloads, current, hready, htaken, hwhole⟩ := performAll_ready hl h hcalls
  suffices hdivide : l.divide (written calls) = (payloads, current) by
    rw [hdivide]
    exact hready
  rw [Layout.divide]
  split
  · -- Without a buffer the payloads are the writes themselves.
    rename_i hbuffer
    rw [hwhole hbuffer, hready.unbuffered hbuffer, List.nil_append]
  · rename_i hbuffer
    have htext : payloads.flatten ++ current = (written calls).flatten := by
      simpa using htaken
    rw [← htext]
    exact hready.cut_eq hl hbuffer

end Standing

end Writer

end SealedStream
