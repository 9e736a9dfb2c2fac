import SealedStream.Proofs.Frames

/-!
# The reference stream

What a writer is to put out, said without a writer: the plaintext is cut into
blocks from the front, each as long as the number before it leaves room for; the
numbered blocks are sealed in order; and the sealed chunks are framed one behind
the other, with the end of the stream behind them.

`Layout.cut_eq` is what a writer is compared by: whoever has full blocks and a
rest that fills none has cut the text as it is cut here.
-/

namespace SealedStream

namespace Sealer

variable {σ : Type}

/-- The chunks of texts sealed one after the other, if all of them are. -/
def sealAll (sealer : Sealer σ) : σ → List Bytes → Option (List Bytes)
  | _, [] => some []
  | s, text :: texts =>
      match sealer.sealChunk s text with
      | (.ok chunk, s') => (sealAll sealer s' texts).map (chunk :: ·)
      | (.error _, _) => none

theorem Seals.sealAll {sealer : Sealer σ} {s s' : σ} {record : List Sealing}
    (h : sealer.Seals s record s') :
    sealer.sealAll s (record.map Sealing.text) = some (record.map Sealing.chunk) := by
  induction h with
  | nil s => rfl
  | cons hfirst _ ih => simp [Sealer.sealAll, hfirst, ih]

end Sealer

namespace Layout

/-! ## Cutting -/

/-- Plaintext bytes in a full chunk behind its number. -/
def blockSize (l : Layout) (i : Nat) : Nat :=
  l.bufferSize - (l.number i).length

/-- The full blocks of a text, numbered from `i` on, and the rest that fills
none. -/
def cut (l : Layout) (i : Nat) (text : Bytes) : List Bytes × Bytes :=
  if 0 < l.blockSize i ∧ l.blockSize i ≤ text.length then
    let later := cut l (i + 1) (text.drop (l.blockSize i))
    (text.take (l.blockSize i) :: later.1, later.2)
  else ([], text)
termination_by text.length
decreasing_by
  simp only [List.length_drop]
  omega

/-- The payloads that make chunks of their own, and what is held back for the
end: without a buffer each write makes a chunk, unless it is empty. -/
def divide (l : Layout) (writes : List Bytes) : List Bytes × Bytes :=
  if l.bufferSize = 0 then (writes.filter (· ≠ []), [])
  else l.cut 1 writes.flatten

theorem divide_buffered {l : Layout} (hbuffer : l.bufferSize ≠ 0) (writes : List Bytes) :
    l.divide writes = l.cut 1 writes.flatten :=
  if_neg hbuffer

/-- The payloads of the data chunks of a framed stream that has ended. -/
def payloads (l : Layout) (writes : List Bytes) : List Bytes :=
  withRest (l.divide writes).1 (l.divide writes).2

/-- A text that is too short for a block is all rest. -/
theorem cut_short {l : Layout} {i : Nat} {text : Bytes}
    (h : text.length < l.blockSize i) : l.cut i text = ([], text) := by
  rw [cut, if_neg (by omega)]

/-- A full block at the front is cut off. -/
theorem cut_append {l : Layout} {i : Nat} {block : Bytes} (text : Bytes)
    (hlength : block.length = l.blockSize i) (hblock : block ≠ []) :
    l.cut i (block ++ text) =
      (block :: (l.cut (i + 1) text).1, (l.cut (i + 1) text).2) := by
  have hsize : 0 < l.blockSize i := hlength ▸ List.length_pos_iff.2 hblock
  have hlong : l.blockSize i ≤ (block ++ text).length := by
    rw [List.length_append]
    omega
  rw [cut, if_pos ⟨hsize, hlong⟩, ← hlength]
  simp

/-- The parts of a text are its parts. -/
theorem flatten_cut (l : Layout) (i : Nat) (text : Bytes) :
    (l.cut i text).1.flatten ++ (l.cut i text).2 = text := by
  induction i, text using cut.induct l with
  | case1 i text hfull ih =>
      rw [cut, if_pos hfull, List.flatten_cons, List.append_assoc, ih,
        List.take_append_drop]
  | case2 i text hshort =>
      rw [cut, if_neg hshort]
      rfl

/-- A block that is cut off fills its chunk, together with its number. -/
theorem length_of_mem_cut {l : Layout} {i : Nat} {text chunk : Bytes}
    (h : chunk ∈ l.numbered i (l.cut i text).1) : chunk.length = l.bufferSize := by
  induction i, text using cut.induct l with
  | case1 i text hfull ih =>
      rw [cut, if_pos hfull] at h
      rcases List.mem_cons.1 h with rfl | hlater
      · have hsize : (text.take (l.blockSize i)).length = l.blockSize i :=
          List.length_take_of_le hfull.2
        have hpos := hfull.1
        rw [List.length_append, hsize]
        unfold blockSize at hpos ⊢
        omega
      · exact ih hlater
  | case2 i text hshort =>
      rw [cut, if_neg hshort] at h
      simp [numbered] at h

/-- The rest of a text that is cut in a sound layout fills no chunk. -/
theorem length_rest_lt {l : Layout} (hl : l.check = .ok ()) (hbuffer : l.bufferSize ≠ 0)
    (i : Nat) (text : Bytes) :
    (l.number (i + (l.cut i text).1.length)).length + (l.cut i text).2.length <
      l.bufferSize := by
  induction i, text using cut.induct l with
  | case1 i text hfull ih =>
      -- Behind the first block the numbers begin one later.
      rw [cut, if_pos hfull, List.length_cons,
        show i + ((l.cut (i + 1) (text.drop (l.blockSize i))).1.length + 1) =
          i + 1 + (l.cut (i + 1) (text.drop (l.blockSize i))).1.length by omega]
      exact ih
  | case2 i text hshort =>
      have hroom := length_number_lt hl hbuffer i
      rw [cut, if_neg hshort]
      unfold blockSize at hshort
      dsimp only [List.length_nil, Nat.add_zero]
      omega

/-- Nothing that is written is lost by dividing it. -/
theorem flatten_divide (l : Layout) (writes : List Bytes) :
    (l.divide writes).1.flatten ++ (l.divide writes).2 = writes.flatten := by
  unfold divide
  split
  · induction writes with
    | nil => rfl
    | cons data writes ih =>
        by_cases hdata : data = [] <;> simpa [List.filter_cons, hdata] using ih
  · exact flatten_cut l 1 writes.flatten

/-- Full blocks at the front are cut off one after the other.  The induction is on the
blocks; each chunk is full together with its number. -/
theorem cut_blocks {l : Layout} {i : Nat} {blocks : List Bytes} (text : Bytes)
    (hfull : ∀ chunk ∈ l.numbered i blocks, chunk.length = l.bufferSize)
    (hblocks : ∀ block ∈ blocks, block ≠ []) :
    l.cut i (blocks.flatten ++ text) =
      (blocks ++ (l.cut (i + blocks.length) text).1, (l.cut (i + blocks.length) text).2) := by
  induction blocks generalizing i with
  | nil => rfl
  | cons block blocks ih =>
      simp only [numbered, List.mem_cons, forall_eq_or_imp] at hfull hblocks
      have hlength : block.length = l.blockSize i := by
        have hchunk := hfull.1
        rw [List.length_append] at hchunk
        rw [blockSize]
        omega
      rw [List.flatten_cons, List.append_assoc, cut_append _ hlength hblocks.1,
        ih hfull.2 hblocks.2, List.length_cons, Nat.add_assoc, Nat.add_comm 1]
      rfl

/-- Full blocks with a rest behind them that fills none are what their text is
cut into. -/
theorem cut_eq {l : Layout} {i : Nat} {blocks : List Bytes} {rest : Bytes}
    (hfull : ∀ text ∈ l.numbered i blocks, text.length = l.bufferSize)
    (hblocks : ∀ block ∈ blocks, block ≠ [])
    (hrest : rest.length < l.blockSize (i + blocks.length)) :
    l.cut i (blocks.flatten ++ rest) = (blocks, rest) := by
  rw [cut_blocks rest hfull hblocks, cut_short hrest, List.append_nil]

/-! ## Streams -/

/-- The plaintext of the chunk that ends a numbered stream: the number zero. -/
def endTexts (l : Layout) : List Bytes :=
  (l.counter?.map (·.bytes 0)).toList

/-- The plaintexts of all of the chunks, the one that ends the stream included:
the numbered payloads, or blocks of a fixed size with the rest behind them, be
it empty. -/
def chunkTexts (l : Layout) (writes : List Bytes) : List Bytes :=
  match l.length? with
  | none => (l.divide writes).1 ++ [(l.divide writes).2]
  | some _ => l.numbered 1 (l.payloads writes) ++ l.endTexts

/-- What stands behind the last chunk: the bare length of zero, where the end of
the stream is not sealed. -/
def endMark (l : Layout) : Bytes :=
  match l.length?, l.counter? with
  | some form, none => form.bytes 0
  | _, _ => []

/-- The frames of the chunks that are full before the stream has ended. -/
def opening {σ : Type} (l : Layout) (sealer : Sealer σ) (codec : σ) (writes : List Bytes) :
    Option Bytes :=
  (sealer.sealAll codec (l.numbered 1 (l.divide writes).1)).map (·.flatMap l.frame)

/-- The whole stream. -/
def stream {σ : Type} (l : Layout) (sealer : Sealer σ) (codec : σ) (writes : List Bytes) :
    Option Bytes :=
  (sealer.sealAll codec (l.chunkTexts writes)).map (·.flatMap l.frame ++ l.endMark)

theorem chunkTexts_framed {l : Layout} {form : IntForm} (hlength : l.length? = some form)
    (writes : List Bytes) :
    l.chunkTexts writes = l.numbered 1 (l.payloads writes) ++ l.endTexts := by
  simp only [chunkTexts, hlength]

/-- With a buffer no chunk of a framed stream has more plaintext than the buffer
holds, the one that ends the stream included. -/
theorem length_le_of_mem_chunkTexts {l : Layout} (hl : l.check = .ok ())
    (hbuffer : l.bufferSize ≠ 0) {form : IntForm} (hlength : l.length? = some form)
    {writes : List Bytes} {text : Bytes} (h : text ∈ l.chunkTexts writes) :
    text.length ≤ l.bufferSize := by
  rw [chunkTexts_framed hlength, payloads, divide_buffered hbuffer] at h
  rcases List.mem_append.1 h with hdata | hend
  · unfold withRest at hdata
    split at hdata
    · exact (length_of_mem_cut hdata).le
    · rw [numbered_concat] at hdata
      rcases List.mem_append.1 hdata with hblock | hrest
      · exact (length_of_mem_cut hblock).le
      · obtain rfl := List.mem_singleton.1 hrest
        rw [List.length_append]
        exact (length_rest_lt hl hbuffer 1 writes.flatten).le
  · obtain ⟨number, hcounter, rfl⟩ : ∃ number, l.counter? = some number ∧
        number.bytes 0 = text := by
      simpa [endTexts] using hend
    have hnumber := length_number_lt hl hbuffer 0
    simp only [Layout.number, hcounter] at hnumber
    exact hnumber.le

/-- If the plaintext fills a block, the first chunk of a framed stream is full. -/
theorem exists_full_chunk {l : Layout} (hl : l.check = .ok ()) (hbuffer : l.bufferSize ≠ 0)
    {form : IntForm} (hlength : l.length? = some form) {writes : List Bytes}
    (hfull : l.blockSize 1 ≤ writes.flatten.length) :
    ∃ text, (l.chunkTexts writes).head? = some text ∧ text.length = l.bufferSize := by
  have hroom := length_number_lt hl hbuffer 1
  have hpos : 0 < l.blockSize 1 := by
    unfold blockSize
    omega
  obtain ⟨block, blocks, hblocks⟩ :
      ∃ block blocks, (l.cut 1 writes.flatten).1 = block :: blocks := by
    rw [cut, if_pos ⟨hpos, hfull⟩]
    exact ⟨_, _, rfl⟩
  have hsize : (l.number 1 ++ block).length = l.bufferSize := by
    have hmem : l.number 1 ++ block ∈ l.numbered 1 (l.cut 1 writes.flatten).1 := by
      rw [hblocks]
      exact List.mem_cons_self
    exact length_of_mem_cut hmem
  refine ⟨l.number 1 ++ block, ?_, hsize⟩
  rw [chunkTexts_framed hlength, payloads, divide_buffered hbuffer, hblocks, withRest_cons]
  rfl

/-- With a buffer it does not matter how the plaintext was split into writes. -/
theorem divide_congr {l : Layout} (hbuffer : l.bufferSize ≠ 0) {writes writes' : List Bytes}
    (h : writes.flatten = writes'.flatten) : l.divide writes = l.divide writes' := by
  rw [divide_buffered hbuffer, divide_buffered hbuffer, h]

/-- So the stream is the same, however the writes were split. -/
theorem stream_congr {σ : Type} {l : Layout} (hbuffer : l.bufferSize ≠ 0)
    {writes writes' : List Bytes} (h : writes.flatten = writes'.flatten) (sealer : Sealer σ)
    (codec : σ) : l.stream sealer codec writes = l.stream sealer codec writes' := by
  have hdivide := divide_congr hbuffer h
  have htexts : l.chunkTexts writes = l.chunkTexts writes' := by
    unfold chunkTexts payloads
    rw [hdivide]
  rw [stream, htexts, stream]

end Layout

end SealedStream
