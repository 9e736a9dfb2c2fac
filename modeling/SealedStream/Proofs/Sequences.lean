import SealedStream.Proofs.Deletion
import SealedStream.Proofs.Truncation
import SealedStream.Proofs.WriterLife

/-!
# Data chunks in any sequence

With lengths and counters on the wire, and a codec that opens every chunk wherever it stands,
the frames of the data chunks of a stream may be put together in any way: swapped, left out,
repeated.  The reader hands out the payloads as long as the numbers count on from one.  It
reports the first number that does not, together with the one that was due, or the truncation
if there is none.

The stream need not have been completed.  What a writer has put out at any moment consists of
such frames and of one end at the most.
-/

namespace SealedStream

/-! ## Numbers that count on -/

/-- How many of these numbers, from the first on, are the number that is due and those that
follow it. -/
def countsOn : (due : Nat) → List Nat → Nat
  | _, [] => 0
  | due, i :: numbers => if i = due then countsOn (due + 1) numbers + 1 else 0

theorem countsOn_due (due : Nat) (numbers : List Nat) :
    countsOn due (due :: numbers) = countsOn (due + 1) numbers + 1 := by
  simp [countsOn]

theorem countsOn_ne {due i : Nat} (h : i ≠ due) (numbers : List Nat) :
    countsOn due (i :: numbers) = 0 := by
  simp [countsOn, h]

theorem take_countsOn (due : Nat) (numbers : List Nat) :
    numbers.take (countsOn due numbers) = List.range' due (countsOn due numbers) := by
  induction numbers generalizing due with
  | nil => rfl
  | cons i numbers ih =>
      by_cases hi : i = due
      · subst hi
        rw [countsOn_due, List.take_succ_cons, ih, List.range'_succ]
      · rw [countsOn_ne hi]
        rfl

theorem getElem?_countsOn_ne (due : Nat) (numbers : List Nat) :
    numbers[countsOn due numbers]? ≠ some (due + countsOn due numbers) := by
  induction numbers generalizing due with
  | nil => simp
  | cons i numbers ih =>
      by_cases hi : i = due
      · subst hi
        rw [countsOn_due, List.getElem?_cons_succ, ← Nat.add_assoc, Nat.add_right_comm]
        exact ih (i + 1)
      · rw [countsOn_ne hi]
        simpa using hi

/-- What is wrong with chunks that have these numbers, when this number is due: the first one
that does not count on, or that there are no more. -/
def firstFault (due : Nat) (numbers : List Nat) : Failure :=
  numbers[countsOn due numbers]?.elim .streamTruncated
    (.chunksReordered (due + countsOn due numbers))

theorem firstFault_due (due : Nat) (numbers : List Nat) :
    firstFault due (due :: numbers) = firstFault (due + 1) numbers := by
  simp only [firstFault, countsOn_due, List.getElem?_cons_succ]
  rw [show due + (countsOn (due + 1) numbers + 1) = due + 1 + countsOn (due + 1) numbers by omega]

theorem firstFault_ne {due i : Nat} (h : i ≠ due) (numbers : List Nat) :
    firstFault due (i :: numbers) = .chunksReordered due i := by
  simp [firstFault, countsOn_ne h]

/-- There are fewer data chunks than numbers. -/
theorem DataChunks.length_lt {σ : Type} {l : Layout} {sealer : Sealer σ} {codec state : σ}
    {data : List Sealing} {payloads : List Bytes} {form : IntForm}
    (h : DataChunks l sealer codec data state)
    (htexts : data.map Sealing.text = l.numbered 1 payloads)
    (hform : l.counter? = some form) : payloads.length < form.capacity := by
  obtain ⟨counted, hcounted, -, hcount⟩ := h.numbered
  have hlengths : payloads.length = counted.length := by
    rw [← l.length_numbered 1 payloads, ← htexts, hcounted, l.length_numbered]
  exact hlengths ▸ hcount form hform

/-! ## Reading them -/

namespace Reader

variable {σ : Type} {r : Reader σ} {form number : IntForm} {data : List Sealing}
  {payloads : List Bytes}

/-- Where a length is due, the end of the source is a truncation. -/
theorem Facing.no_more (h : Facing r [] []) (hlength : r.layout.length? = some form) :
    Yields r r.pending (.error .streamTruncated) := by
  have hbytes : r.source.bytes = [] := h.bytes_eq
  have hcut : ProperPrefix r.source.bytes (form.bytes 0) := by
    refine ⟨hbytes ▸ List.nil_prefix, fun hnone => ?_⟩
    have hpos := form.length_bytes_pos 0
    simp [← hnone, hbytes] at hpos
  obtain ⟨r', hpull⟩ := pull_cut_length (r := { r with pending := [] }) hlength h.flows
    form.capacity_pos hcut
  exact .cut h.reading hpull

/-- A reader in front of chunks of a stream, picked in any way, hands out payloads as long as
the numbers count on.  The induction is on the picks: one that counts on is accepted, and the
reader waits for the next number; one that does not ends the reading. -/
theorem Facing.picked (hlength : r.layout.length? = some form)
    (hcounter : r.layout.counter? = some number)
    (htexts : data.map Sealing.text = r.layout.numbered 1 payloads)
    (hbound : payloads.length < number.capacity)
    {picks : List (Fin data.length)}
    (hadmits : ∀ i ∈ picks, r.layout.Admits r.opener.overhead (data.get i).chunk)
    (h : Facing r (picks.map data.get) []) {k : Nat}
    (hdue : r.expected = k + 1) :
    Yields r
      (r.pending ++
        ((payloads.drop k).take (countsOn (k + 1) (picks.map (·.val + 1)))).flatten)
      (.error (firstFault (k + 1) (picks.map (·.val + 1)))) := by
  induction picks generalizing r k with
  | nil => simpa [countsOn, firstFault] using h.no_more hlength
  | cons i picks ih =>
      have htakes : r.Takes (data.get i).chunk :=
        (takes_iff_admits hlength hcounter).2 (hadmits i List.mem_cons_self)
      obtain ⟨payload, hpayload, htext⟩ : ∃ payload, payloads[i.val]? = some payload ∧
          (data.get i).text = number.bytes (i.val + 1) ++ payload := by
        have hi : (r.layout.numbered 1 payloads)[i.val]? = some (data.get i).text := by
          rw [← htexts]
          simp
        rw [Layout.getElem?_numbered, Option.map_eq_some_iff] at hi
        obtain ⟨payload, hpayload, hnumbered⟩ := hi
        rw [Layout.number, hcounter, Nat.add_comm] at hnumbered
        exact ⟨payload, hpayload, hnumbered.symm⟩
      have hcount := (List.getElem?_eq_some_iff.1 hpayload).1
      rw [List.map_cons] at h ⊢
      by_cases hi : i.val = k
      · -- The number is due.
        subst hi
        obtain ⟨source, codec, hpull, hnext⟩ := h.next_due hcounter htakes
          (by rw [htext, hdue, Layout.number, hcounter]) (by omega) (by omega)
        have hlater := ih
          (r := { r with
            source := source, codec := codec, pending := payload,
            expected := r.expected + 1 })
          hlength hcounter htexts (fun j hj => hadmits j (List.mem_cons_of_mem i hj)) hnext
          (congrArg (· + 1) hdue)
        have hdrop : payloads.drop i.val = payload :: payloads.drop (i.val + 1) := by
          rw [List.drop_eq_getElem_cons hcount, (List.getElem?_eq_some_iff.1 hpayload).2]
        rw [countsOn_due, firstFault_due, hdrop, List.take_succ_cons, List.flatten_cons]
        exact Yields.of_pull h.sound h.reading hpull hlater
      · -- Another number is due.
        have hne : i.val + 1 ≠ k + 1 := by omega
        rw [countsOn_ne hne, firstFault_ne hne, ← hdue]
        simpa using h.reordered hcounter htakes htext (by omega) (Nat.succ_ne_zero _) (by omega)

end Reader

namespace Writer

variable {σ : Type}

/-- Data chunks of a stream, put together in any way, are reported exactly.

What a writer has put out, whatever it has been asked for and however it was answered, are data
chunks, numbered from one, and one end behind them at the most, perhaps cut short.

Let a reader whose opener opens the data chunks wherever they stand be given their frames,
picked in any order, some of them repeated and others left out, and no end; its limit admits
those that are picked.  It hands out the payloads of the longest part at the front whose
numbers are one, two and so on.  Then it reports the number that is due and the one that stands
in its place, or the truncation if no chunk is left. -/
theorem sequences_reported {l : Layout} (hframed : l.lengthPrefix = true)
    (hcounted : l.chunkCounter = true) {sealer : Sealer σ} {codec : σ} {sink : Sink}
    {w : Writer σ} (hsink : sink.bytes = []) (hstart : start sink sealer codec l = .ok w) :
    (∀ requests, ∃ data state rest, SentChunks l sealer codec data state ∧
      (rest = [] ∨ Ending l sealer state rest) ∧
      (w.serveAll requests).sink.bytes <+: l.frames data ++ rest ∧
      ((w.serveAll requests).phase = .closed → Ending l sealer state rest ∧
        (w.serveAll requests).sink.bytes = l.frames data ++ rest)) ∧
    ∀ {data : List Sealing} {state : σ} {payloads : List Bytes},
      SentChunks l sealer codec data state → data.map Sealing.text = l.numbered 1 payloads →
      ∀ {τ : Type} {opener : Opener τ} {t : τ} (limit : Nat), opener.OpensAnywhere t data →
        ∀ picks : List (Fin data.length),
          (∀ i ∈ picks, (l.limited limit).Admits opener.overhead (data.get i).chunk) →
          ∀ {source : Source}, source.Flows → source.bytes = l.frames (picks.map data.get) →
            ∃ r n, Reader.start source opener t (l.limited limit) = .ok r ∧
              (picks.map (·.val + 1)).take n = List.range' 1 n ∧
              (picks.map (·.val + 1))[n]? ≠ some (n + 1) ∧
              r.Brings (payloads.take n).flatten
                (.error ((picks.map (·.val + 1))[n]?.elim .streamTruncated
                  (.chunksReordered (n + 1)))) := by
  obtain ⟨hsound, -⟩ := start_ok hstart
  refine ⟨sent_chunks hsink hstart, ?_⟩
  intro data state payloads hsent htexts τ opener t limit hopens picks hadmits source hflows
    hsource
  have hlimited : (l.limited limit).check = .ok () := hsound
  have hlength : (l.limited limit).length? = some l.lengthForm := Layout.length?_of_prefix hframed
  have hcounter : (l.limited limit).counter? = some l.counterForm :=
    Layout.counter?_of_counter hcounted
  have hpicks : ∀ c ∈ picks.map data.get, c ∈ data := by
    intro c hc
    obtain ⟨i, -, rfl⟩ := List.mem_map.1 hc
    exact List.get_mem data i
  have hfacing : Reader.Facing ⟨l.limited limit, opener, t, source, [], 1, .reading⟩
      (picks.map data.get) [] := {
    sound := hlimited
    reading := rfl
    flows := hflows
    bytes_eq := by
      rw [List.append_nil]
      exact hsource
    fits := fun form hform c hc => hsent.fits form hform c (hpicks c hc)
    opens := hopens.opens hpicks .start }
  have hyields := Reader.Facing.picked (k := 0) hlength hcounter
    (htexts.trans (Layout.numbered_limited l limit 1 payloads).symm)
    (hsent.length_lt htexts hcounter) hadmits hfacing rfl
  refine ⟨_, countsOn 1 (picks.map (·.val + 1)), Reader.start_of_sound hlimited source opener t,
    take_countsOn _ _, ?_, ?_⟩
  · rw [Nat.add_comm]
    exact getElem?_countsOn_ne _ _
  · rw [Nat.add_comm _ 1]
    simpa [firstFault] using hyields.brings

/-- The data chunks of two bytes, each written alone. -/
def twoChunks : List Sealing :=
  [⟨[1, 97], [1, 97, 255]⟩, ⟨[2, 98], [2, 98, 255]⟩]

/-- The first chunk, the second one and the first one again: both bytes are handed out, and
then the number one stands where three is due. -/
theorem twoChunks_repeated :
    ∃ w r, start .perfect (Chunk.tagSealer [255] 1) () Layout.standard.unbuffered = .ok w ∧
      (w.serveAll [.write [97], .write [98]]).sink.bytes =
        Layout.standard.unbuffered.frames twoChunks ∧
      Reader.start (.ofBytes [3, 1, 97, 255, 3, 2, 98, 255, 3, 1, 97, 255])
        (Chunk.tagOpener [255] 1) () (Layout.standard.unbuffered.limited 2) = .ok r ∧
      r.Brings [97, 98] (.error (.chunksReordered 3 1)) := by
  have hstart : start .perfect (Chunk.tagSealer [255] 1) () Layout.standard.unbuffered =
      .ok _ := rfl
  have hsent : SentChunks Layout.standard.unbuffered (Chunk.tagSealer [255] 1) () twoChunks () :=
    { seals := .cons rfl (.cons rfl (.nil ()))
      numbered := by
        refine ⟨[[97], [98]], rfl, by decide, ?_⟩
        rintro _ ⟨⟩
        decide
      full := fun h => absurd h (by decide)
      fits := by
        rintro _ ⟨⟩
        decide }
  have htexts : twoChunks.map Sealing.text =
      Layout.standard.unbuffered.numbered 1 [[97], [98]] := rfl
  have hopens : (Chunk.tagOpener [255] 1).OpensAnywhere () twoChunks :=
    Chunk.tag_opensAnywhere [255] 1 (by decide)
  obtain ⟨r, n, hreader, hfront, hfault, hbrings⟩ :=
    (sequences_reported rfl rfl rfl hstart).2 hsent htexts 2 hopens
      [⟨0, by decide⟩, ⟨1, by decide⟩, ⟨0, by decide⟩] (by decide) (Source.flows_ofBytes _)
      (Source.bytes_ofBytes _)
  obtain rfl : n = 2 := by
    match n with
    | 0 | 1 => exact absurd rfl hfault
    | 2 => rfl
    | n + 3 => simp [List.range'_succ] at hfront
  exact ⟨_, r, hstart, rfl, hreader, hbrings⟩

end Writer

end SealedStream
