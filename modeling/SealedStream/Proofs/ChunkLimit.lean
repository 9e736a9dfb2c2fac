import SealedStream.Proofs.RoundTrip

/-!
# The size of chunks and the limit on them

A layout says how large the chunks of a writer are, and how large the chunks may
be that a reader accepts.  The two numbers are independent: neither the check of
a layout nor the start of a writer or a reader compares them.  So a layout may
refuse its own streams.

It does not if the limit is off or not smaller than the buffer.  If it is smaller,
every plaintext that fills a chunk is written without complaint and refused by
its first chunk when it is read back.
-/

namespace SealedStream

namespace Session

variable {σ τ : Type} {S : Session σ} {opener : Opener τ} {t : τ} {source : Source}
  {form : IntForm}

/-- A framed session keeps to the limit of its own layout exactly if the limit is
off or no chunk has more plaintext. -/
theorem admits_iff (hlength : S.layout.length? = some form)
    (hmatched : Matched S.sealer S.codec opener t) :
    (∀ c ∈ S.record, S.layout.Admits opener.overhead c.chunk) ↔
      S.layout.maxChunkSize = 0 ∨ ∀ c ∈ S.record, c.text.length ≤ S.layout.maxChunkSize := by
  constructor
  · intro hadmits
    by_cases hmax : S.layout.maxChunkSize = 0
    · exact .inl hmax
    · right
      intro c hc
      have hle := hadmits c hc _ (if_neg hmax)
      have hsize := hmatched.length_chunk S.ledger.seals c hc
      have hoverhead := hmatched.overhead_eq
      omega
  · intro hlimit c hc
    exact S.admits hlength hmatched (fun _ => hlimit) hc

/-- With a buffer that is no larger than the limit, no chunk is past it. -/
theorem withinLimit_of_le (hbuffer : S.layout.bufferSize ≠ 0)
    (hle : S.layout.maxChunkSize = 0 ∨ S.layout.bufferSize ≤ S.layout.maxChunkSize) :
    S.WithinLimit := by
  intro hframed
  have hlength := Layout.length?_of_prefix hframed
  rcases hle with hoff | hroomy
  · exact .inl hoff
  · right
    intro c hc
    have htext : c.text ∈ S.layout.chunkTexts S.writes := by
      rw [← S.texts_eq]
      exact List.mem_map_of_mem hc
    exact (Layout.length_le_of_mem_chunkTexts S.sound hbuffer hlength htext).trans hroomy

/-- With a buffer that is larger than the limit, a reader refuses the first chunk
of a plaintext that fills one. -/
theorem yields_refusal (hlength : S.layout.length? = some form)
    (hbuffer : S.layout.bufferSize ≠ 0) (hmax : S.layout.maxChunkSize ≠ 0)
    (htight : S.layout.maxChunkSize < S.layout.bufferSize)
    (hfull : S.layout.blockSize 1 ≤ S.plaintext.length)
    (hmatched : Matched S.sealer S.codec opener t) (hflows : source.Flows)
    (hbytes : source.bytes = S.output) :
    (S.reader source opener t).Yields [] (.error (.chunkTooBig
      (S.layout.bufferSize + opener.overhead) (S.layout.maxChunkSize + opener.overhead))) := by
  obtain ⟨text, hhead, hsize⟩ := Layout.exists_full_chunk S.sound hbuffer hlength hfull
  rw [← S.texts_eq] at hhead
  obtain ⟨c, record, hrecord, rfl⟩ : ∃ c record, S.record = c :: record ∧ c.text = text := by
    cases hall : S.record with
    | nil => simp [hall] at hhead
    | cons c record =>
        rw [hall] at hhead
        exact ⟨c, record, rfl, Option.some.inj hhead⟩
  have hmem : c ∈ S.record := by
    rw [hrecord]
    exact List.mem_cons_self
  have hchunk := hmatched.length_chunk S.ledger.seals c hmem
  have hoverhead := hmatched.overhead_eq
  -- The sealed chunk has got past the form of its length, so the limit is not capped.
  have hfits := S.ledger.fits form hlength c hmem
  have hcapacity := form.capacity_le
  have hlimit : S.layout.chunkLimit? opener.overhead =
      some (S.layout.maxChunkSize + opener.overhead) := by
    rw [Layout.chunkLimit?, if_neg hmax, Nat.min_eq_left (by omega)]
  have hpast : ¬ S.layout.Admits opener.overhead c.chunk := by
    intro hadmits
    have hle := hadmits _ hlimit
    omega
  have hfacing := facing hmatched hflows S.layout.endMark (by rw [hbytes, S.output_frames])
  rw [hrecord] at hfacing
  obtain ⟨limit, hsome, hyields⟩ :=
    hfacing.refused hlength (S.no_marker hlength hmatched hmem) hpast
  obtain rfl : S.layout.maxChunkSize + opener.overhead = limit :=
    Option.some.inj (hlimit.symm.trans hsome)
  rw [show S.layout.bufferSize + opener.overhead = c.chunk.length by omega]
  exact hyields

/-- One layout for both directions.  The chunks of a framed and buffered session
are within the limit of the session's own layout exactly if the limit is off or
no chunk has more plaintext.  That is so for every plaintext if the limit is off
or not smaller than the buffer, and then what was written is read back.  If the
limit is smaller, a plaintext that fills a chunk is refused by its first chunk,
with nothing delivered. -/
theorem chunks_within_own_limit (S : Session σ) (hframed : S.layout.lengthPrefix = true)
    (hbuffer : S.layout.bufferSize ≠ 0) {opener : Opener τ} {t : τ}
    (hmatched : Matched S.sealer S.codec opener t) :
    ((∀ c ∈ S.record, S.layout.Admits opener.overhead c.chunk) ↔
      S.layout.maxChunkSize = 0 ∨ ∀ c ∈ S.record, c.text.length ≤ S.layout.maxChunkSize) ∧
    (S.layout.maxChunkSize = 0 ∨ S.layout.bufferSize ≤ S.layout.maxChunkSize →
      (∀ c ∈ S.record, S.layout.Admits opener.overhead c.chunk) ∧
        ∀ source : Source, source.Flows → source.bytes = S.output →
          ∃ r, Reader.start source opener t S.layout = .ok r ∧
            r.Brings S.plaintext (.ok ())) ∧
    (S.layout.maxChunkSize ≠ 0 → S.layout.maxChunkSize < S.layout.bufferSize →
      S.layout.blockSize 1 ≤ S.plaintext.length →
        ∀ source : Source, source.Flows → source.bytes = S.output →
          ∃ r, Reader.start source opener t S.layout = .ok r ∧
            r.Brings [] (.error (.chunkTooBig (S.layout.bufferSize + opener.overhead)
              (S.layout.maxChunkSize + opener.overhead)))) := by
  have hlength := Layout.length?_of_prefix hframed
  refine ⟨admits_iff hlength hmatched, ?_, ?_⟩
  · intro hle
    have hwithin := withinLimit_of_le hbuffer hle
    refine ⟨fun c hc => S.admits hlength hmatched hwithin hc, ?_⟩
    intro source hflows hbytes
    exact ⟨_, S.start_reader source opener t,
      (yields hmatched hwithin hflows hbytes).brings⟩
  · intro hmax htight hfull source hflows hbytes
    exact ⟨_, S.start_reader source opener t,
      (yields_refusal hlength hbuffer hmax htight hfull hmatched hflows hbytes).brings⟩

/-- One byte that fills a chunk of two bytes, its number included, in a layout
with this limit. -/
def oneBlock (limit : Nat) : Session Unit where
  layout := { Layout.standard with
    counterForm := .fixed1, bufferSize := 2, maxChunkSize := limit }
  sealer := Chunk.tagSealer [255] 1
  codec := ()
  sink := .perfect
  writes := [[97]]
  final :=
    { layout := { Layout.standard with
        counterForm := .fixed1, bufferSize := 2, maxChunkSize := limit }
      sealer := (Chunk.tagSealer [255] 1).recording
      codec := ⟨(), [⟨[1, 97], [1, 97, 255]⟩, ⟨[0], [0, 255]⟩]⟩
      sink :=
        { writes := [], flushes := []
          pieces := [[0, 255], [2], [1, 97, 255], [3]]
          writeCalls := 4, flushCalls := 1 }
      pending := []
      nextCounter := 2
      phase := .closed }
  sink_empty := Sink.bytes_perfect
  completed := ⟨_, _, rfl, rfl, rfl⟩

/-- With the limit at the size of the buffer the chunk is read back. -/
theorem oneBlock_read_back :
    (oneBlock 2).layout.lengthPrefix = true ∧ (oneBlock 2).layout.bufferSize ≠ 0 ∧
      Matched (oneBlock 2).sealer (oneBlock 2).codec (Chunk.tagOpener [255] 1) () ∧
      ∃ r, Reader.start (.ofBytes [3, 1, 97, 255, 2, 0, 255]) (Chunk.tagOpener [255] 1) ()
          (oneBlock 2).layout = .ok r ∧ r.Brings [97] (.ok ()) := by
  have hmatched : Matched (oneBlock 2).sealer (oneBlock 2).codec (Chunk.tagOpener [255] 1) () :=
    Chunk.tag_matched [255]
  refine ⟨rfl, by decide, hmatched, ?_⟩
  obtain ⟨-, hroomy, -⟩ := (oneBlock 2).chunks_within_own_limit rfl (by decide) hmatched
  exact (hroomy (.inr (by decide))).2 _ (Source.flows_ofBytes _) (by decide)

/-- With the limit one below the size of the buffer a writer and a reader are both
started, the chunk is written, and the reader refuses it. -/
theorem oneBlock_refused :
    (oneBlock 1).layout.lengthPrefix = true ∧ (oneBlock 1).layout.bufferSize ≠ 0 ∧
      Matched (oneBlock 1).sealer (oneBlock 1).codec (Chunk.tagOpener [255] 1) () ∧
      (∃ c ∈ (oneBlock 1).record,
        ¬ (oneBlock 1).layout.Admits (Chunk.tagOpener [255] 1).overhead c.chunk) ∧
      ∃ r, Reader.start (.ofBytes (oneBlock 1).output) (Chunk.tagOpener [255] 1) ()
          (oneBlock 1).layout = .ok r ∧ r.Brings [] (.error (.chunkTooBig 3 2)) := by
  have hmatched : Matched (oneBlock 1).sealer (oneBlock 1).codec (Chunk.tagOpener [255] 1) () :=
    Chunk.tag_matched [255]
  refine ⟨rfl, by decide, hmatched, by decide, ?_⟩
  exact ⟨_, (oneBlock 1).start_reader _ _ _,
    (yields_refusal (S := oneBlock 1) rfl (by decide) (by decide) (by decide) (by decide) hmatched
      (Source.flows_ofBytes _) (Source.bytes_ofBytes _)).brings⟩

end Session

end SealedStream
