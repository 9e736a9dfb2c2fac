import Mathlib.Data.List.Infix
import SealedStream.Proofs.RoundTrip

/-!
# Chunks deleted from a stream

With lengths and counters on, and a codec that opens every chunk wherever it
stands, a stream from which data chunks have been deleted is noticed by the gap
in the numbers.  There is one exception: nothing relates the sealed number zero
to the number of chunks before it, so no gap shows when the chunks deleted are
exactly the last ones in front of it.
-/

namespace SealedStream

namespace Reader

variable {σ : Type} {r : Reader σ} {form number : IntForm} {last : Sealing}
  {kept data : List Sealing} {payloads : List Bytes} {tail : Bytes}

theorem takes_iff_admits (hlength : r.layout.length? = some form)
    (hcounter : r.layout.counter? = some number) {chunk : Bytes} :
    r.Takes chunk ↔ r.layout.Admits r.opener.overhead chunk := by
  simp [Takes, hlength, hcounter]

/-- The reader hands out some of the payloads and then finds a number that is
not due, or a chunk past the limit. -/
def StopsWithin (r : Reader σ) (payloads : List Bytes) : Prop :=
  ∃ (bytes : Bytes) (failure : Failure),
    Yields r (r.pending ++ bytes) (.error failure) ∧ bytes <+: payloads.flatten ∧
      ((∃ due found, failure = .chunksReordered due found) ∨
        ∃ declared limit, failure = .chunkTooBig declared limit)

theorem Facing.stopsWithin_of_refused {c : Sealing} {record : List Sealing}
    (hlength : r.layout.length? = some form) (hcounter : r.layout.counter? = some number)
    (h : Facing r (c :: record) tail)
    (hlimit : ¬ r.layout.Admits r.opener.overhead c.chunk) : StopsWithin r payloads := by
  obtain ⟨limit, -, hyields⟩ := h.refused hlength (by simp [hcounter]) hlimit
  exact ⟨[], _, by simpa using hyields, List.nil_prefix, .inr ⟨_, _, rfl⟩⟩

theorem StopsWithin.of_pull {r' : Reader σ} {payload : Bytes}
    (hl : r.layout.check = .ok ()) (hphase : r.phase = .reading)
    (hpull : pull { r with pending := [] } = (.ok (), r')) (hpending : r'.pending = payload)
    (h : StopsWithin r' payloads) : StopsWithin r (payload :: payloads) := by
  obtain ⟨bytes, failure, hyields, hpart, hcause⟩ := h
  rw [hpending] at hyields
  refine ⟨payload ++ bytes, failure, .of_pull hl hphase hpull hyields, ?_, hcause⟩
  rw [List.flatten_cons]
  exact (List.prefix_append_right_inj payload).2 hpart

/-- A reader in front of what is left of the chunks from the number that is due
on, and of the terminator, stops unless the chunks left are the first ones and
all of them are within the limit.  The induction is on the deletion: up to the
first gap the chunks are accepted. -/
theorem Facing.gap (hlength : r.layout.length? = some form)
    (hcounter : r.layout.counter? = some number) (hsub : kept.Sublist data)
    (h : Facing r (kept ++ [last]) tail)
    (htexts : data.map Sealing.text = r.layout.numbered r.expected payloads)
    (hbound : r.expected + payloads.length ≤ number.capacity) (hdue : r.expected ≠ 0)
    (hbad : ¬ (kept <+: data ∧
      ∀ c ∈ kept ++ [last], r.layout.Admits r.opener.overhead c.chunk)) :
    StopsWithin r payloads := by
  induction hsub generalizing r payloads with
  | slnil =>
      refine Facing.stopsWithin_of_refused hlength hcounter h fun hadmits => hbad ?_
      exact ⟨List.nil_prefix, by simpa using hadmits⟩
  | @cons kept data c hsub ih =>
      obtain ⟨payload, payloads', rfl, htexts'⟩ :
          ∃ payload payloads', payloads = payload :: payloads' ∧
            data.map Sealing.text = r.layout.numbered (r.expected + 1) payloads' := by
        cases payloads with
        | nil => simp [Layout.numbered] at htexts
        | cons payload payloads' => exact ⟨payload, payloads', rfl, (List.cons.inj htexts).2⟩
      -- The chunk that is due is missing.
      cases kept with
      | nil =>
          refine Facing.stopsWithin_of_refused hlength hcounter h fun hadmits => hbad ?_
          exact ⟨List.nil_prefix, by simpa using hadmits⟩
      | cons d kept =>
          by_cases hadmits : r.layout.Admits r.opener.overhead d.chunk
          · -- The chunk in its place comes later and has a larger number.
            have hmem : d.text ∈ r.layout.numbered (r.expected + 1) payloads' :=
              htexts' ▸ List.mem_map_of_mem (hsub.subset List.mem_cons_self)
            obtain ⟨j, hj⟩ := List.mem_iff_getElem?.1 hmem
            rw [Layout.getElem?_numbered, Option.map_eq_some_iff] at hj
            obtain ⟨later, hlater, htext⟩ := hj
            obtain ⟨hlt, -⟩ := List.getElem?_eq_some_iff.1 hlater
            rw [Layout.number, hcounter] at htext
            rw [List.length_cons] at hbound
            have hyields := Facing.reordered h hcounter
              ((takes_iff_admits hlength hcounter).2 hadmits) htext.symm (by omega)
              (by omega) (by omega)
            exact ⟨[], _, by simpa using hyields, List.nil_prefix, .inl ⟨_, _, rfl⟩⟩
          · exact Facing.stopsWithin_of_refused hlength hcounter h hadmits
  | @cons_cons kept data c hsub ih =>
      by_cases hadmits : r.layout.Admits r.opener.overhead c.chunk
      · cases payloads with
        | nil => simp [Layout.numbered] at htexts
        | cons payload payloads =>
            obtain ⟨htext, htexts'⟩ := List.cons.inj htexts
            rw [List.length_cons] at hbound
            obtain ⟨source, codec, hpull, hnext⟩ := Facing.next_due h hcounter
              ((takes_iff_admits hlength hcounter).2 hadmits) htext (by omega) hdue
            refine StopsWithin.of_pull h.sound h.reading hpull rfl ?_
            refine ih hlength hcounter hnext htexts' (by dsimp only; omega)
              (Nat.succ_ne_zero _) fun hgood => hbad ?_
            refine ⟨(List.prefix_cons_inj c).2 hgood.1, fun c' hc' => ?_⟩
            rcases List.mem_cons.1 hc' with rfl | hmem
            · exact hadmits
            · exact hgood.2 c' hmem
      · exact Facing.stopsWithin_of_refused hlength hcounter h hadmits

/-- A reader in front of the first of the chunks from the number that is due on,
and of the terminator, hands out their payloads as if there had been no more. -/
theorem Facing.no_gap (hlength : r.layout.length? = some form)
    (hcounter : r.layout.counter? = some number) (hfront : kept <+: data)
    (h : Facing r (kept ++ [last]) tail)
    (htexts : data.map Sealing.text = r.layout.numbered r.expected payloads)
    (hbound : r.expected + payloads.length ≤ number.capacity) (hdue : r.expected ≠ 0)
    (hend : last.text = number.bytes 0)
    (hadmits : ∀ c ∈ kept ++ [last], r.layout.Admits r.opener.overhead c.chunk) :
    Yields r (r.pending ++ (payloads.take kept.length).flatten) (.ok ()) := by
  have htakes : ∀ c ∈ kept ++ [last], r.Takes c.chunk := fun c hc =>
    (takes_iff_admits hlength hcounter).2 (hadmits c hc)
  have hkept : kept.map Sealing.text =
      r.layout.numbered r.expected (payloads.take kept.length) := by
    rw [List.prefix_iff_eq_take.1 hfront, List.map_take, htexts, Layout.numbered_take,
      ← List.prefix_iff_eq_take.1 hfront]
  have hyields := h.numbered hcounter hkept
    (by
      rw [List.length_take]
      omega) hdue (fun c hc => htakes c (List.mem_append_left [last] hc)) [] (.ok ())
    fun source codec pending hrest => by
      simpa using hrest.sealed_end hcounter
        (htakes last (List.mem_append_right kept List.mem_cons_self)) hend
  simpa using hyields

end Reader

/-- Leaving out the last of some payloads leaves out some bytes. -/
theorem flatten_take_ne {payloads : List Bytes} (hne : ∀ p ∈ payloads, p ≠ []) {k : Nat}
    (hk : k < payloads.length) : (payloads.take k).flatten ≠ payloads.flatten := by
  intro heq
  have hrest : (payloads.drop k).flatten = [] := by
    have hsplit : payloads.flatten =
        (payloads.take k).flatten ++ (payloads.drop k).flatten := by
      rw [← List.flatten_append, List.take_append_drop]
    rw [← heq] at hsplit
    exact List.self_eq_append_right.1 hsplit
  obtain ⟨p, hp⟩ := List.exists_mem_of_length_pos
    (show 0 < (payloads.drop k).length by rw [List.length_drop]; omega)
  exact hne p (List.mem_of_mem_drop hp) (List.flatten_eq_nil_iff.1 hrest p hp)

namespace Session

variable {σ τ : Type}

/-- With lengths and counters, and a codec that opens every chunk of a session
wherever it stands, some of the data chunks of the output are deleted and the
terminator is kept.  If the chunks left are the first ones, and within the limit
of the reader, the stream ends as if nothing was missing; in all other cases the
reading fails, over a number that is not due or a chunk past the limit.  Only a
part of what was written is brought either way. -/
theorem deletion_noticed_unless_trailing (S : Session σ)
    (hlength : S.layout.lengthPrefix = true) (hcounter : S.layout.chunkCounter = true)
    (data : List Sealing) (last : Sealing) (hrecord : S.record = data ++ [last])
    {opener : Opener τ} {t : τ} (hopens : opener.OpensAnywhere t S.record)
    (kept : List Sealing) (hkept : kept.Sublist data) (hdeleted : kept ≠ data)
    {source : Source} (hflows : source.Flows)
    (hbytes : source.bytes = S.layout.frames (kept ++ [last])) :
    S.output = S.layout.frames (data ++ [last]) ∧
      ∃ r, Reader.start source opener t S.layout = .ok r ∧
        ((kept <+: data ∧
            ∀ c ∈ kept ++ [last], S.layout.Admits opener.overhead c.chunk) →
          ∃ bytes, r.Brings bytes (.ok ()) ∧ bytes <+: S.plaintext ∧
            bytes ≠ S.plaintext) ∧
        (¬ (kept <+: data ∧
            ∀ c ∈ kept ++ [last], S.layout.Admits opener.overhead c.chunk) →
          ∃ bytes failure, r.Brings bytes (.error failure) ∧ bytes <+: S.plaintext ∧
            ((∃ due found, failure = .chunksReordered due found) ∨
              ∃ declared limit, failure = .chunkTooBig declared limit)) := by
  have hform := Layout.length?_of_prefix hlength
  have hnumber := Layout.counter?_of_counter hcounter
  obtain ⟨payloads, data', last', h⟩ := S.counted hform hnumber
  obtain ⟨rfl, hlast⟩ := List.append_inj' (h.record_eq.symm.trans hrecord) rfl
  obtain rfl : last' = last := by simpa using hlast
  have hcount := h.count_lt
  have hlengths : payloads.length = data'.length := by
    rw [← S.layout.length_numbered 1 payloads, ← h.texts, List.length_map]
  have hsub : (kept ++ [last']).Sublist S.record := by
    rw [h.record_eq]
    exact hkept.append_right [last']
  have hfacing : (S.reader source opener t).Facing (kept ++ [last']) [] := {
    sound := S.sound
    reading := rfl
    flows := hflows
    bytes_eq := by simpa [reader] using hbytes
    fits := fun form hform' c hc => S.ledger.fits form hform' c (hsub.subset hc)
    opens := hopens.opens (fun c hc => hsub.subset hc) .start }
  refine ⟨by rw [h.output_eq, h.record_eq], _, S.start_reader source opener t, ?_, ?_⟩
  · rintro ⟨hfront, hadmits⟩
    have hyields := hfacing.no_gap hform hnumber hfront h.texts
      (by simp only [reader]; omega) Nat.one_ne_zero h.last_text hadmits
    have hshorter : kept.length < payloads.length := by
      have hle := hfront.length_le
      have hne : kept.length ≠ data'.length := fun heq =>
        hdeleted (hfront.eq_of_length heq)
      omega
    rw [h.plaintext_eq]
    refine ⟨_, hyields.brings, ?_, ?_⟩
    · exact (List.take_prefix kept.length payloads).flatten
    · exact flatten_take_ne h.payload_ne hshorter
  · intro hbad
    obtain ⟨bytes, failure, hyields, hpart, hcause⟩ := hfacing.gap hform hnumber hkept
      h.texts (by simp only [reader]; omega) Nat.one_ne_zero hbad
    exact ⟨_, failure, hyields.brings, by simpa [reader, h.plaintext_eq] using hpart,
      hcause⟩

/-- Of the sample session the first chunk alone is kept, and then the second
alone: the first stream ends well, the second does not. -/
theorem sample_deletion :
    (∃ r bytes, Reader.start (.ofBytes [3, 1, 97, 255, 2, 0, 255])
        (Chunk.tagOpener [255] 1) () sample.layout = .ok r ∧
      r.Brings bytes (.ok ()) ∧ bytes <+: [97, 98] ∧ bytes ≠ [97, 98]) ∧
    ∃ r bytes failure, Reader.start (.ofBytes [3, 2, 98, 255, 2, 0, 255])
        (Chunk.tagOpener [255] 1) () sample.layout = .ok r ∧
      r.Brings bytes (.error failure) := by
  have hopens : (Chunk.tagOpener [255] 1).OpensAnywhere () sample.record := by
    intro k t _ c hc
    have hcases : c = ⟨[1, 97], [1, 97, 255]⟩ ∨ c = ⟨[2, 98], [2, 98, 255]⟩ ∨
        c = ⟨[0], [0, 255]⟩ := by
      simpa [sample, record] using hc
    rcases hcases with rfl | rfl | rfl <;> exact ⟨t, rfl⟩
  have hadmits : ∀ c ∈ ([⟨[1, 97], [1, 97, 255]⟩, ⟨[0], [0, 255]⟩] : List Sealing),
      sample.layout.Admits (Chunk.tagOpener [255] 1).overhead c.chunk := by
    intro c hc limit hlimit
    obtain rfl : 1048577 = limit := by
      simpa [Layout.chunkLimit?, sample, Layout.standard, Layout.unbuffered,
        Chunk.tagOpener, intBound] using hlimit
    have hcases : c = ⟨[1, 97], [1, 97, 255]⟩ ∨ c = ⟨[0], [0, 255]⟩ := by
      simpa using hc
    rcases hcases with rfl | rfl <;> simp
  obtain ⟨-, r, hstart, hquiet, -⟩ := sample.deletion_noticed_unless_trailing rfl rfl
    [⟨[1, 97], [1, 97, 255]⟩, ⟨[2, 98], [2, 98, 255]⟩] ⟨[0], [0, 255]⟩ rfl hopens
    [⟨[1, 97], [1, 97, 255]⟩] (by decide) (by decide)
    (Source.flows_ofBytes _) (Source.bytes_ofBytes _)
  obtain ⟨-, r', hstart', -, hnoticed⟩ := sample.deletion_noticed_unless_trailing rfl rfl
    [⟨[1, 97], [1, 97, 255]⟩, ⟨[2, 98], [2, 98, 255]⟩] ⟨[0], [0, 255]⟩ rfl hopens
    [⟨[2, 98], [2, 98, 255]⟩] (by decide) (by decide)
    (Source.flows_ofBytes _) (Source.bytes_ofBytes _)
  obtain ⟨bytes, hbrings, hpart⟩ := hquiet ⟨by decide, hadmits⟩
  obtain ⟨bytes', failure, hbrings', -⟩ := hnoticed fun hgood =>
    absurd hgood.1 (by decide)
  exact ⟨⟨r, bytes, hstart, hbrings, hpart⟩, r', bytes', failure, hstart', hbrings'⟩

/-- The last data chunk of the sample session is deleted and the terminator
kept.  The reading hands out the first byte and ends without complaint, and
`close` succeeds. -/
theorem trailing_deletion_unnoticed :
    sample.output = sample.layout.frames
        [⟨[1, 97], [1, 97, 255]⟩, ⟨[2, 98], [2, 98, 255]⟩, ⟨[0], [0, 255]⟩] ∧
      sample.plaintext = [97, 98] ∧
      ∃ r r', Reader.start
          (.ofBytes (sample.layout.frames [⟨[1, 97], [1, 97, 255]⟩, ⟨[0], [0, 255]⟩]))
          (Chunk.tagOpener [255] 1) () sample.layout = .ok r ∧
        r.drain 8 = (⟨[[97]], some (.ok ())⟩, r') ∧ r'.close.1 = .ok () :=
  ⟨rfl, rfl, _, _, rfl, rfl, rfl⟩

end Session

end SealedStream
