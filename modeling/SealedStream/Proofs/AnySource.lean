import Mathlib.Data.List.Infix
import SealedStream.Proofs.Nonces
import SealedStream.Proofs.Reading
import SealedStream.Proofs.Session

/-!
# Reading from any source

Here nothing is known of the source: it may repeat, reorder, splice or cut off
the chunks of a session, put any bytes between them, and fail at any point.
What is delivered is still safe if the opener can be relied on.

An opener that opens nothing but chunks of the session, in any order and any
number of times, lets no more through than the numbers in the chunks do: the
bytes delivered are the beginning of what was written.  An opener that is bound
to the position of a chunk lets through even less: if the reader also reports
the end of the stream, everything was delivered.
-/

namespace SealedStream

variable {σ τ : Type}

namespace Session

variable {S : Session σ}

section Counted

variable {form number : IntForm} {payloads : List Bytes} {data : List Sealing}
  {last : Sealing}

/-- The chunks of a session are the numbered payloads and the zero behind them. -/
theorem Counted.text_at (h : S.Counted form number payloads data last) {k : Nat}
    {c : Sealing} (hk : S.record[k]? = some c) :
    (∃ payload, payloads[k]? = some payload ∧
        c.text = number.bytes (k + 1) ++ payload) ∨
      (k = payloads.length ∧ c.text = number.bytes 0) := by
  have hlength : data.length = payloads.length := by
    rw [← S.layout.length_numbered 1 payloads, ← h.texts, List.length_map]
  rw [h.record_eq] at hk
  by_cases hlt : k < data.length
  · rw [List.getElem?_append_left hlt] at hk
    have htext : (S.layout.numbered 1 payloads)[k]? = some c.text := by
      rw [← h.texts, List.getElem?_map, hk]
      rfl
    rw [Layout.getElem?_numbered, Option.map_eq_some_iff] at htext
    obtain ⟨payload, hpayload, htext⟩ := htext
    refine .inl ⟨payload, hpayload, ?_⟩
    rw [← htext, Layout.number, h.counter_eq, Nat.add_comm]
  · rw [List.getElem?_append_right (Nat.le_of_not_lt hlt),
      List.getElem?_singleton] at hk
    split at hk
    · rename_i hlast
      obtain rfl := Option.some.inj hk
      exact .inr ⟨by omega, h.last_text⟩
    · simp at hk

/-- A number other than zero in a chunk of a session is its position, counted
from one, and the payload of that position stands behind it. -/
theorem Counted.decode_due (h : S.Counted form number payloads data last) {k : Nat}
    {c : Sealing} (hk : S.record[k]? = some c) {i used : Nat}
    (hdecode : number.decode c.text = .ok (i, used)) (hne : i ≠ 0) :
    i = k + 1 ∧ payloads[k]? = some (c.text.drop used) := by
  rcases h.text_at hk with ⟨payload, hpayload, htext⟩ | ⟨-, htext⟩
  · have hlt := (List.getElem?_eq_some_iff.1 hpayload).1
    have hcount := h.count_lt
    rw [htext, IntForm.decode_bytes_append (by omega)] at hdecode
    obtain ⟨rfl, rfl⟩ := Prod.mk.inj (Except.ok.inj hdecode)
    exact ⟨rfl, by rw [hpayload, htext, List.drop_left]⟩
  · have hzero := IntForm.decode_bytes_append number.capacity_pos []
    rw [List.append_nil, ← htext, hdecode] at hzero
    exact (hne (Prod.mk.inj (Except.ok.inj hzero)).1).elim

/-- The number zero is in the last chunk alone. -/
theorem Counted.decode_end (h : S.Counted form number payloads data last) {k : Nat}
    {c : Sealing} (hk : S.record[k]? = some c) {used : Nat}
    (hdecode : number.decode c.text = .ok (0, used)) : k = payloads.length := by
  rcases h.text_at hk with ⟨payload, hpayload, htext⟩ | ⟨hlast, -⟩
  · have hlt := (List.getElem?_eq_some_iff.1 hpayload).1
    have hcount := h.count_lt
    rw [htext, IntForm.decode_bytes_append (by omega)] at hdecode
    exact absurd (Prod.mk.inj (Except.ok.inj hdecode)).1 (Nat.succ_ne_zero k)
  · exact hlast

theorem flatten_drop {payloads : List Bytes} {k : Nat} {payload : Bytes}
    (h : payloads[k]? = some payload) :
    (payloads.drop k).flatten = payload ++ (payloads.drop (k + 1)).flatten := by
  obtain ⟨hlt, rfl⟩ := List.getElem?_eq_some_iff.1 h
  rw [List.drop_eq_getElem_cons hlt, List.flatten_cons]

/-- With an opener that opens only chunks of the session, a reader that is
waiting for chunk `k + 1` hands out a beginning of the payloads from there on.
A chunk that stands in the wrong place carries another number than the one that
is due, and so it is not accepted.  If the opener is bound to positions, nothing
is missing when the stream ends: only the last chunk holds the number zero, and
it is opened after all the others. -/
theorem Counted.yields_part (h : S.Counted form number payloads data last)
    {r : Reader τ} {bytes : Bytes} {ending : Except Failure Unit} {t : τ}
    (hyields : r.Yields bytes ending) (hlayout : r.layout = S.layout)
    (hopener : r.opener.OpensOnly t S.record) (hreading : r.phase = .reading) {k : Nat}
    (hdue : r.expected = k + 1) (hafter : r.opener.After t k r.codec) :
    ∃ rest, bytes = r.pending ++ rest ∧ rest <+: (payloads.drop k).flatten ∧
      (r.opener.BoundTo t S.record → ending = .ok () →
        rest = (payloads.drop k).flatten) := by
  induction hyields generalizing k with
  | terminated hphase => simp [hphase] at hreading
  | closed hphase => simp [hphase] at hreading
  | failed hphase => simp [hphase] at hreading
  | cut => exact ⟨[], by simp, List.nil_prefix, by simp⟩
  | @more r r' bytes ending hphase hpull hnext hrest ih =>
      refine ⟨bytes, rfl, ?_⟩
      have hcounter : r.layout.counter? = some number := hlayout ▸ h.counter_eq
      have hpulled := Reader.pull_ok (r := { r with pending := [] })
        (by rw [hlayout]; exact S.sound) hpull
      cases hpulled with
      | terminator _ hnone => simp [hcounter] at hnone
      | payload hnone => simp [hcounter] at hnone
      | short _ hnone => simp [hcounter] at hnone
      | @numbered source chunk text codec form' used _ hform _ hopen hdecode hne =>
          obtain rfl : number = form' := Option.some.inj (hcounter.symm.trans hform)
          -- The chunk is some chunk of the session; its number says which one.
          obtain ⟨j, hj⟩ := List.mem_iff_getElem?.1 (hopener _ _ _ _ _ hafter hopen)
          obtain ⟨hposition, hpayload⟩ := h.decode_due hj hdecode hne
          obtain rfl : j = k := by
            dsimp only at hposition
            omega
          obtain ⟨rest, rfl, hpart, hwhole⟩ := ih hlayout hopener hphase
            (show r.expected + 1 = j + 1 + 1 by rw [hdue]) (.opened hafter hopen)
          rw [flatten_drop hpayload]
          exact ⟨(List.prefix_append_right_inj _).2 hpart,
            fun hbound hok => by rw [hwhole hbound hok]⟩
      | @sealedEnd source chunk text codec form' _ hform hopen hdecode =>
          obtain rfl : number = form' := Option.some.inj (hcounter.symm.trans hform)
          rw [(hrest.at_end rfl).1]
          refine ⟨List.nil_prefix, fun hbound _ => ?_⟩
          have hk := hbound _ _ _ _ _ hafter hopen
          rw [h.decode_end hk hdecode, List.drop_length]
          rfl

end Counted

/-- A chunk that is not full is the last one. -/
theorem FixedSize.last_of_short {data : List Sealing} {last : Sealing}
    (h : S.FixedSize data last) {k : Nat} {c : Sealing} (hk : S.record[k]? = some c)
    (hshort : c.text.length < S.layout.bufferSize) : S.record.length ≤ k + 1 := by
  rw [h.record_eq] at hk ⊢
  rw [List.length_append, List.length_singleton]
  by_contra hinside
  have hlt : k < data.length := by omega
  rw [List.getElem?_append_left hlt] at hk
  have hfull := h.full c (List.mem_of_getElem? hk)
  omega

/-- The same for chunks of a fixed size: only the last chunk is not full, and so
it alone can end the stream. -/
theorem FixedSize.yields_part {data : List Sealing} {last : Sealing}
    (h : S.FixedSize data last) {r : Reader τ} {bytes : Bytes}
    {ending : Except Failure Unit} {t : τ} (hyields : r.Yields bytes ending)
    (hlayout : r.layout = S.layout) (hopener : r.opener.BoundTo t S.record)
    (hsize : ∀ c ∈ S.record, c.chunk.length = c.text.length + r.opener.overhead)
    (hreading : r.phase = .reading) {k : Nat} (hafter : r.opener.After t k r.codec) :
    ∃ rest, bytes = r.pending ++ rest ∧
      rest <+: ((S.record.map Sealing.text).drop k).flatten ∧
      (ending = .ok () → rest = ((S.record.map Sealing.text).drop k).flatten) := by
  induction hyields generalizing k with
  | terminated hphase => simp [hphase] at hreading
  | closed hphase => simp [hphase] at hreading
  | failed hphase => simp [hphase] at hreading
  | cut => exact ⟨[], by simp, List.nil_prefix, by simp⟩
  | @more r r' bytes ending hphase hpull hnext hrest ih =>
      refine ⟨bytes, rfl, ?_⟩
      have hpulled := Reader.pull_ok (r := { r with pending := [] })
        (by rw [hlayout]; exact S.sound) hpull
      have hlength : r.layout.length? = none := hlayout ▸ h.length_eq
      have hcounter : r.layout.counter? = none := hlayout ▸ h.counter_eq
      have text_at {text chunk : Bytes} (hk : S.record[k]? = some ⟨text, chunk⟩) :
          (S.record.map Sealing.text)[k]? = some text := by
        rw [List.getElem?_map, hk]
        rfl
      cases hpulled with
      | terminator hsome => exact (hsome hlength).elim
      | numbered hsome => exact (hsome hlength).elim
      | sealedEnd hsome => exact (hsome hlength).elim
      | @payload source chunk text codec _ _ _ hopen =>
          have hk := hopener _ _ _ _ _ hafter hopen
          obtain ⟨rest, rfl, hpart, hwhole⟩ := ih hlayout hopener hsize hphase
            (.opened hafter hopen)
          rw [flatten_drop (text_at hk)]
          exact ⟨(List.prefix_append_right_inj _).2 hpart,
            fun hok => by rw [hwhole hok]⟩
      | @short source chunk text codec _ _ hshort hopen =>
          have hk := hopener _ _ _ _ _ hafter hopen
          -- A full text would have made a full chunk.
          have hlast : S.record.length ≤ k + 1 := by
            refine h.last_of_short hk ?_
            have hchunk := hsize _ (List.mem_of_getElem? hk)
            simp only [Reader.fullChunk, hlayout] at hshort
            dsimp only at hchunk ⊢
            omega
          have hnil : (S.record.map Sealing.text).drop (k + 1) = [] :=
            List.drop_eq_nil_of_le (by rw [List.length_map]; exact hlast)
          rw [(hrest.at_end rfl).1, flatten_drop (text_at hk), hnil]
          simp

/-- The end of a stream is sealed if its chunks are numbered or of a fixed size. -/
def HasSealedEnd (S : Session σ) : Prop :=
  S.layout.chunkCounter = true ∨ S.layout.lengthPrefix = false

theorem yields_whole {opener : Opener τ} {t : τ} {source : Source} {bytes : Bytes}
    {ending : Except Failure Unit} (hend : S.HasSealedEnd)
    (hopener : opener.BoundTo t S.record)
    (hsize : S.layout.lengthPrefix = false →
      ∀ c ∈ S.record, c.chunk.length = c.text.length + opener.overhead)
    (hyields : (S.reader source opener t).Yields bytes ending) :
    bytes <+: S.plaintext ∧ (ending = .ok () → bytes = S.plaintext) := by
  cases hframed : S.layout.lengthPrefix with
  | false =>
      have hlength : S.layout.length? = none := by simp [Layout.length?, hframed]
      obtain ⟨data, last, hfixed⟩ := S.fixedSize hlength
      obtain ⟨rest, rfl, hpart, hwhole⟩ := hfixed.yields_part hyields rfl hopener
        (hsize hframed) rfl .start
      rw [hfixed.plaintext_eq]
      exact ⟨hpart, hwhole⟩
  | true =>
      have hcounter : S.layout.chunkCounter = true := by
        rcases hend with hon | hoff
        · exact hon
        · simp [hframed] at hoff
      obtain ⟨payloads, data, last, hcounted⟩ :=
        S.counted (Layout.length?_of_prefix hframed) (Layout.counter?_of_counter hcounter)
      obtain ⟨rest, rfl, hpart, hwhole⟩ :=
        hcounted.yields_part hyields rfl hopener.opensOnly rfl (k := 0) rfl .start
      rw [hcounted.plaintext_eq]
      exact ⟨hpart, hwhole hopener⟩

/-! ## What is delivered -/

/-- With lengths and counters, and an opener that opens only chunks of the
session, reads of any sizes from any source deliver a beginning of what was
written. -/
theorem delivered_prefix_any_source (S : Session σ)
    (hlength : S.layout.lengthPrefix = true) (hcounter : S.layout.chunkCounter = true)
    {opener : Opener τ} {t : τ} (hopener : opener.OpensOnly t S.record)
    (source : Source) :
    ∃ r, Reader.start source opener t S.layout = .ok r ∧
      ∀ ns, Reader.delivered (r.reads ns).1 <+: S.plaintext := by
  refine ⟨_, S.start_reader source opener t, fun ns => ?_⟩
  obtain ⟨payloads, data, last, h⟩ :=
    S.counted (Layout.length?_of_prefix hlength) (Layout.counter?_of_counter hcounter)
  obtain ⟨bytes, ending, hyields⟩ :=
    Reader.exists_yields (S.reader source opener t) S.sound
  obtain ⟨rest, rfl, hpart, -⟩ :=
    h.yields_part hyields rfl hopener rfl (k := 0) rfl .start
  rw [(hyields.reads ns).2, h.plaintext_eq]
  exact (List.take_prefix _ _).trans hpart

/-- The sample session, with its second chunk repeated and moved to the front. -/
theorem sample_delivered_prefix :
    (Opener.ofRecord sample.record 1).OpensOnly () sample.record ∧
      ∃ r, Reader.start (.ofBytes [3, 2, 98, 255, 3, 1, 97, 255, 3, 2, 98, 255, 2, 0, 255])
          (Opener.ofRecord sample.record 1) () sample.layout = .ok r ∧
        ∀ ns, Reader.delivered (r.reads ns).1 <+: [97, 98] :=
  ⟨Opener.ofRecord_opensOnly sample.record 1,
    sample.delivered_prefix_any_source rfl rfl
      (Opener.ofRecord_opensOnly sample.record 1) _⟩

/-- With a sealed end, and an opener that is bound to the positions of the
chunks, reads of any sizes from any source deliver a beginning of what was
written, and all of it if a non-empty buffer is ever answered with nothing.
Where the chunks have a fixed size, their overhead has to be the one that the
opener names.  The counted opener of a cipher is bound in this way if the cipher
opens only what the session has sealed under the same nonce. -/
theorem whole_when_bound_to_positions :
    (∀ {σ τ : Type} (S : Session σ) {opener : Opener τ} {t : τ}, S.HasSealedEnd →
      opener.BoundTo t S.record →
      (S.layout.lengthPrefix = false →
        ∀ c ∈ S.record, c.chunk.length = c.text.length + opener.overhead) →
      ∀ source : Source, ∃ r, Reader.start source opener t S.layout = .ok r ∧
        ∀ ns, Reader.delivered (r.reads ns).1 <+: S.plaintext ∧
          ∀ n, 0 < n → ((r.reads ns).2.read n).1 = .ok [] →
            Reader.delivered (r.reads ns).1 = S.plaintext) ∧
    ∀ (a : Aead) (S : Session Chunk.Counted), S.sealer = Chunk.countedSealer a →
      (∀ nonce text chunk, a.sealText nonce text = some chunk →
        chunk.length = text.length + Aead.tagSize) →
      (∀ nonce chunk text, a.openText nonce chunk = some text →
        ∃ k, S.record[k]? = some ⟨text, chunk⟩ ∧
          (Chunk.Counted.advance^[k] S.codec).counter = nonce) →
      (Chunk.countedOpener a).BoundTo S.codec S.record ∧
        ∀ c ∈ S.record,
          c.chunk.length = c.text.length + (Chunk.countedOpener a).overhead := by
  refine ⟨?_, ?_⟩
  · intro σ τ S opener t hend hopener hsize source
    refine ⟨_, S.start_reader source opener t, fun ns => ?_⟩
    obtain ⟨bytes, ending, hyields⟩ :=
      Reader.exists_yields (S.reader source opener t) S.sound
    obtain ⟨hpart, hwhole⟩ := yields_whole hend hopener hsize hyields
    refine ⟨?_, fun n hn hempty => ?_⟩
    · rw [(hyields.reads ns).2]
      exact (List.take_prefix _ _).trans hpart
    · obtain ⟨hok, hall⟩ := hyields.brings.whole_of_empty hn hempty
      rw [hall, hwhole hok]
  · intro a S hsealer htag hauthentic
    have hseals : (Chunk.countedSealer a).Seals S.codec S.record S.final.codec.state :=
      hsealer ▸ S.ledger.seals
    refine ⟨Chunk.counted_boundTo hseals hauthentic, fun c hc => ?_⟩
    obtain ⟨k, hk⟩ := List.mem_iff_getElem?.1 hc
    exact htag _ _ _ (Chunk.counted_seals hseals hk).2

/-- A cipher that puts sixteen zero bytes behind a text and opens three chunks
only, each under a nonce of its own. -/
def sampleCipher : Aead where
  nonceSize := 1
  sealText _ text := some (text ++ Bytes.zeros 16)
  openText nonce chunk :=
    if nonce = [0] ∧ chunk = 97 :: Bytes.zeros 16 then some [97]
    else if nonce = [1] ∧ chunk = 98 :: Bytes.zeros 16 then some [98]
    else if nonce = [2] ∧ chunk = Bytes.zeros 16 then some []
    else none

/-- Two bytes in full chunks of one byte, and an empty last chunk, sealed under
the nonces 0, 1 and 2. -/
def countedSample : Session Chunk.Counted where
  layout :=
    { Layout.standard with
      nonceMode := .counter, lengthPrefix := false, chunkCounter := false
      bufferSize := 1 }
  sealer := Chunk.countedSealer sampleCipher
  codec := ⟨[0], false⟩
  sink := .perfect
  writes := [[97, 98]]
  final :=
    { layout :=
        { Layout.standard with
          nonceMode := .counter, lengthPrefix := false, chunkCounter := false
          bufferSize := 1 }
      sealer := (Chunk.countedSealer sampleCipher).recording
      codec := ⟨⟨[3], false⟩, [⟨[97], 97 :: Bytes.zeros 16⟩, ⟨[98], 98 :: Bytes.zeros 16⟩,
        ⟨[], Bytes.zeros 16⟩]⟩
      sink :=
        { writes := [], flushes := []
          pieces := [Bytes.zeros 16, 98 :: Bytes.zeros 16, 97 :: Bytes.zeros 16]
          writeCalls := 3, flushCalls := 1 }
      pending := []
      nextCounter := 1
      phase := .closed }
  sink_empty := Sink.bytes_perfect
  completed := ⟨_, _, rfl, rfl, rfl⟩

/-- The sample, with its first chunk alone in the source. -/
theorem countedSample_whole :
    countedSample.HasSealedEnd ∧
      (Chunk.countedOpener sampleCipher).BoundTo ⟨[0], false⟩ countedSample.record ∧
      ∃ r, Reader.start (.ofBytes (97 :: Bytes.zeros 16))
          (Chunk.countedOpener sampleCipher) ⟨[0], false⟩ countedSample.layout = .ok r ∧
        ∀ ns, Reader.delivered (r.reads ns).1 <+: [97, 98] ∧
          ∀ n, 0 < n → ((r.reads ns).2.read n).1 = .ok [] →
            Reader.delivered (r.reads ns).1 = [97, 98] := by
  have htag : ∀ nonce text chunk, sampleCipher.sealText nonce text = some chunk →
      chunk.length = text.length + Aead.tagSize := by
    intro nonce text chunk hseal
    obtain rfl : text ++ Bytes.zeros 16 = chunk := Option.some.inj hseal
    exact List.length_append
  have hauthentic : ∀ nonce chunk text, sampleCipher.openText nonce chunk = some text →
      ∃ k, countedSample.record[k]? = some ⟨text, chunk⟩ ∧
        (Chunk.Counted.advance^[k] countedSample.codec).counter = nonce := by
    intro nonce chunk text hopen
    simp only [sampleCipher] at hopen
    split at hopen
    · rename_i hfirst
      obtain ⟨rfl, rfl⟩ := hfirst
      obtain rfl := Option.some.inj hopen
      exact ⟨0, rfl, rfl⟩
    · split at hopen
      · rename_i hsecond
        obtain ⟨rfl, rfl⟩ := hsecond
        obtain rfl := Option.some.inj hopen
        exact ⟨1, rfl, rfl⟩
      · split at hopen
        · rename_i hthird
          obtain ⟨rfl, rfl⟩ := hthird
          obtain rfl := Option.some.inj hopen
          exact ⟨2, rfl, rfl⟩
        · simp at hopen
  obtain ⟨hbound, hsize⟩ :=
    whole_when_bound_to_positions.2 sampleCipher countedSample rfl htag hauthentic
  exact ⟨.inr rfl, hbound,
    whole_when_bound_to_positions.1 countedSample (.inr rfl) hbound (fun _ => hsize) _⟩

end Session

end SealedStream
