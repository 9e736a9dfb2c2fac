import SealedStream.Proofs.Facing
import SealedStream.Proofs.Keyed
import SealedStream.Proofs.Session

/-!
# A stream is read back as it was written

Whatever was written in a completed session comes back from its output, however
the writes were cut, however the source cuts the output and however large the
buffers of the reads are.  The codecs have to match.  Where chunks have a length in
front of them none may be longer than the reader's limit, and where they have a fixed
size it has to stand in a machine word.
-/

namespace SealedStream

namespace Session

variable {σ τ : Type}

/-- Where lengths are written, no chunk has more plaintext than the limit of the
layout, if it has one. -/
def WithinLimit (S : Session σ) : Prop :=
  S.layout.lengthPrefix = true →
    S.layout.maxChunkSize = 0 ∨ ∀ c ∈ S.record, c.text.length ≤ S.layout.maxChunkSize

/-- The limit on plaintexts carries over to the sealed chunks. -/
theorem admits (S : Session σ) {form : IntForm} (hlength : S.layout.length? = some form)
    {opener : Opener τ} {t : τ} (hmatched : Matched S.sealer S.codec opener t)
    (hlimit : S.WithinLimit) {c : Sealing} (hc : c ∈ S.record) :
    S.layout.Admits opener.overhead c.chunk := by
  intro limit hsome
  have hsize := hmatched.length_chunk S.ledger.seals c hc
  have hfits := S.ledger.fits form hlength c hc
  have hcapacity := form.capacity_le
  have hframed : S.layout.lengthPrefix = true := by
    by_contra hoff
    simp [Layout.length?, hoff] at hlength
  unfold Layout.chunkLimit? at hsome
  split at hsome
  · simp at hsome
  · rename_i hmax
    rcases hlimit hframed with hzero | hshort
    · exact (hmax hzero).elim
    · have hle := hshort c hc
      have hoverhead := hmatched.overhead_eq
      obtain rfl := Option.some.inj hsome
      omega

/-- A reader has room for a full chunk, as the writer had. -/
theorem room (S : Session σ) {opener : Opener τ} {t : τ}
    (hmatched : Matched S.sealer S.codec opener t) : S.layout.Allocatable opener.overhead := by
  rw [hmatched.overhead_eq]
  exact S.allocatable

/-- No chunk with a length in front of it can be taken for the bare length that
ends a stream without numbers. -/
theorem no_marker (S : Session σ) {form : IntForm} (hlength : S.layout.length? = some form)
    {opener : Opener τ} {t : τ} (hmatched : Matched S.sealer S.codec opener t) {c : Sealing}
    (hc : c ∈ S.record) : ¬ (c.chunk = [] ∧ S.layout.counter? = none) := by
  rintro ⟨hnil, hcounter⟩
  have hchunk := hmatched.length_chunk S.ledger.seals c hc
  have htext := List.length_pos_iff.2 ((S.uncounted hlength hcounter).text_ne c hc)
  -- An empty chunk would have come from an empty text.
  rw [hnil, List.length_nil] at hchunk
  omega

section Yields

variable {S : Session σ} {opener : Opener τ} {t : τ} {source : Source} {form : IntForm}

/-- A reader on the output of a session faces the chunks of its record. -/
theorem facing (hmatched : Matched S.sealer S.codec opener t) (hflows : source.Flows)
    (tail : Bytes) (hbytes : source.bytes = S.layout.frames S.record ++ tail) :
    (S.reader source opener t).Facing S.record tail where
  sound := S.sound
  reading := rfl
  flows := hflows
  bytes_eq := hbytes
  fits := S.ledger.fits
  opens := hmatched.opens S.ledger.seals

/-- A reader in the layout of a framed session takes each of its chunks. -/
theorem takes (hlength : S.layout.length? = some form)
    (hmatched : Matched S.sealer S.codec opener t) (hlimit : S.WithinLimit) :
    ∀ c ∈ S.record, (S.reader source opener t).Takes c.chunk := by
  intro c hc
  simp only [Reader.Takes, reader, hlength]
  exact ⟨S.no_marker hlength hmatched hc, S.admits hlength hmatched hlimit hc⟩

/-- A reader on a session of fixed-size chunks faces full ones, and a last one that
is not full. -/
theorem FixedSize.facing {data : List Sealing} {last : Sealing}
    (h : S.FixedSize data last) (hmatched : Matched S.sealer S.codec opener t)
    (hflows : source.Flows) (hbytes : source.bytes = S.output) :
    (S.reader source opener t).Facing (data ++ [last]) [] ∧
      (∀ c ∈ data, (S.reader source opener t).Takes c.chunk) ∧
        last.chunk.length < (S.reader source opener t).fullChunk ∧
          opener.overhead ≤ last.chunk.length := by
  have hsize := hmatched.length_chunk S.ledger.seals
  have hoverhead := hmatched.overhead_eq
  have hfacing := Session.facing hmatched hflows []
    (by rw [hbytes, h.output_eq, List.append_nil])
  rw [h.record_eq] at hfacing hsize
  have hlast := hsize last (List.mem_append_right data List.mem_cons_self)
  have hshort := h.short
  refine ⟨hfacing, fun c hc => ?_, ?_, by omega⟩
  · have hchunk := hsize c (List.mem_append_left [last] hc)
    have hfull := h.full c hc
    simp only [Reader.Takes, reader, h.length_eq, Reader.fullChunk]
    exact ⟨S.room hmatched, by omega⟩
  · simp only [Reader.fullChunk, reader]
    omega

theorem FixedSize.yields {data : List Sealing} {last : Sealing}
    (h : S.FixedSize data last) (hmatched : Matched S.sealer S.codec opener t)
    (hflows : source.Flows) (hbytes : source.bytes = S.output) :
    (S.reader source opener t).Yields S.plaintext (.ok ()) := by
  obtain ⟨hfacing, htakes, hshort, hoverhead⟩ := h.facing hmatched hflows hbytes
  have hyields := hfacing.unnumbered h.counter_eq htakes last.text (.ok ())
    fun source codec pending hend => hend.short_end h.length_eq (S.room hmatched) hshort
      hoverhead
  rw [h.plaintext_eq, h.record_eq]
  simpa [reader] using hyields

theorem Uncounted.yields (h : S.Uncounted form)
    (hmatched : Matched S.sealer S.codec opener t) (hlimit : S.WithinLimit)
    (hflows : source.Flows) {tail : Bytes} (hbytes : source.bytes = S.output ++ tail) :
    (S.reader source opener t).Yields S.plaintext (.ok ()) := by
  have hfacing := facing hmatched hflows (form.bytes 0 ++ tail)
    (by rw [hbytes, h.output_eq, List.append_assoc])
  rw [← List.append_nil S.record] at hfacing
  have hyields := hfacing.unnumbered h.counter_eq (takes h.length_eq hmatched hlimit) [] (.ok ())
    fun source codec pending hend => by
      simpa using hend.bare_end h.length_eq h.counter_eq
  rw [h.plaintext_eq]
  simpa [reader] using hyields

theorem Counted.yields {number : IntForm} {payloads : List Bytes}
    {data : List Sealing} {last : Sealing}
    (h : S.Counted form number payloads data last)
    (hmatched : Matched S.sealer S.codec opener t) (hlimit : S.WithinLimit)
    (hflows : source.Flows) {tail : Bytes} (hbytes : source.bytes = S.output ++ tail) :
    (S.reader source opener t).Yields S.plaintext (.ok ()) := by
  have hfacing := facing hmatched hflows tail (by rw [hbytes, h.output_eq])
  have htakes : ∀ c ∈ S.record, (S.reader source opener t).Takes c.chunk :=
    takes h.length_eq hmatched hlimit
  rw [h.record_eq] at hfacing htakes
  have hcount := h.count_lt
  have hyields := hfacing.numbered h.counter_eq h.texts
    (by simp only [reader]; omega) Nat.one_ne_zero
    (fun c hc => htakes c (List.mem_append_left [last] hc)) [] (.ok ())
    fun source codec pending hend => by
      simpa using hend.sealed_end h.counter_eq
        (htakes last (List.mem_append_right data List.mem_cons_self)) h.last_text
  rw [h.plaintext_eq]
  simpa [reader] using hyields

/-- A reader on the output of a session yields what was written, and then the
end of the stream.  Where lengths are written, whatever stands behind the output is
not read. -/
theorem yields_before {tail : Bytes} (htail : tail = [] ∨ S.layout.length? ≠ none)
    (hmatched : Matched S.sealer S.codec opener t) (hlimit : S.WithinLimit)
    (hflows : source.Flows) (hbytes : source.bytes = S.output ++ tail) :
    (S.reader source opener t).Yields S.plaintext (.ok ()) := by
  cases hlength : S.layout.length? with
  | none =>
      obtain rfl := htail.resolve_right fun hframed => hframed hlength
      obtain ⟨data, last, hfixed⟩ := S.fixedSize hlength
      exact hfixed.yields hmatched hflows (by rw [hbytes, List.append_nil])
  | some form =>
      cases hcounter : S.layout.counter? with
      | none => exact (S.uncounted hlength hcounter).yields hmatched hlimit hflows hbytes
      | some number =>
          obtain ⟨payloads, data, last, hcounted⟩ := S.counted hlength hcounter
          exact hcounted.yields hmatched hlimit hflows hbytes

theorem yields (hmatched : Matched S.sealer S.codec opener t) (hlimit : S.WithinLimit)
    (hflows : source.Flows) (hbytes : source.bytes = S.output) :
    (S.reader source opener t).Yields S.plaintext (.ok ()) :=
  yields_before (.inl rfl) hmatched hlimit hflows (by rw [hbytes, List.append_nil])

end Yields

end Session

end SealedStream
