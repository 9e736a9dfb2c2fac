import SealedStream.Proofs.Course
import SealedStream.Proofs.Rounds

/-!
# How much a numbered stream holds

The number of a chunk is encoded when the chunk is begun, and a form of a fixed width has a
last number.  The numbers never start again: with all else in order, a stream whose data
needs no more chunks than there are numbers above zero is written and closed, and otherwise
the write that needs one more fails for it, with every chunk that has a number sent and
nothing behind them.

`Layout.payloads` says how many chunks the data needs.  The write that fails is found by the
blocks that have been sealed before it: they are the first of the payloads, and more text is
left behind them.
-/

namespace SealedStream

variable {σ : Type}

/-- Whatever has been sealed from this state on, the next text is sealed as well. -/
def Sealer.Infallible (sealer : Sealer σ) (codec : σ) : Prop :=
  ∀ record state, sealer.Seals codec record state →
    ∀ text, ∃ chunk state', sealer.sealChunk state text = (.ok chunk, state')

/-- The number that stands at the front of a text. -/
def IntForm.front (form : IntForm) (text : Bytes) : Except Failure Nat :=
  (form.decode text).map Prod.fst

/-- In a fixed width the first number that does not fit is a power of the base. -/
theorem IntForm.capacity_eq {form : IntForm} (h : form ≠ .varint) :
    form.capacity = 256 ^ form.maxWidth := by
  cases form with
  | varint => exact absurd rfl h
  | fixed1 | fixed2 | fixed4 | fixed8 => rfl

/-- The narrower of the fixed widths give out before the counter does. -/
theorem IntForm.narrow_of_mem {form : IntForm} (h : form ∈ [.fixed1, .fixed2, .fixed4]) :
    form ≠ .varint ∧ form.capacity + 1 < intBound := by
  revert h
  cases form <;> decide

theorem IntForm.front_bytes {form : IntForm} {n : Nat} (h : n < form.capacity) (rest : Bytes) :
    form.front (form.bytes n ++ rest) = .ok n := by
  rw [front, decode_bytes_append h]
  rfl

namespace Layout

variable {l : Layout} {form : IntForm} {writes blocks : List Bytes} {text : Bytes}

/-- As far as the chunks of a stream are sealed, their lengths fit. -/
def LengthsFit (l : Layout) (sealer : Sealer σ) (codec : σ) (writes : List Bytes) : Prop :=
  ∀ record state, sealer.Seals codec record state →
    record.map Sealing.text <+: l.chunkTexts writes →
      ∀ form, l.length? = some form → ∀ c ∈ record, c.chunk.length < form.capacity

/-- Numbered chunks have the numbers in their order, as far as these fit. -/
theorem front_numbered (hcounter : l.counter? = some form) {i : Nat}
    (hfew : i + blocks.length ≤ form.capacity) :
    (l.numbered i blocks).map form.front = (List.range' i blocks.length).map .ok := by
  induction blocks generalizing i with
  | nil => rfl
  | cons block blocks ih =>
      rw [List.length_cons] at hfew
      have hnumber : l.number i = form.bytes i := by
        simp only [number, hcounter]
      rw [numbered, List.map_cons, hnumber, IntForm.front_bytes (by omega), ih (by omega)]
      rfl

/-- Full blocks at the front of the data are the first payloads, and text behind them makes
more payloads. -/
theorem payloads_of_full (hbuffer : l.bufferSize ≠ 0)
    (hfull : ∀ chunk ∈ l.numbered 1 blocks, chunk.length = l.bufferSize)
    (hblocks : ∀ block ∈ blocks, block ≠ []) (hdata : writes.flatten = blocks.flatten ++ text) :
    ∃ more, l.payloads writes = blocks ++ more ∧ (text ≠ [] → more ≠ []) := by
  let parts := l.cut (1 + blocks.length) text
  have hparts : parts.1.flatten ++ parts.2 = text := flatten_cut l _ text
  refine ⟨withRest parts.1 parts.2, ?_, fun htext hnone => htext ?_⟩
  · rw [payloads, divide_buffered hbuffer, hdata, cut_blocks text hfull hblocks, withRest_append]
  · rw [← hparts, ← flatten_withRest, hnone, List.flatten_nil]

/-- Where all blocks have one size, the length of a text says how many there are, the rest
among them.  The induction is on the blocks. -/
theorem length_cut {size : Nat} (hsize : ∀ i, l.blockSize i = size) (hpos : 0 < size) (i : Nat)
    (text : Bytes) :
    (withRest (l.cut i text).1 (l.cut i text).2).length = (text.length + (size - 1)) / size := by
  induction i, text using cut.induct l with
  | case1 i text hfull ih =>
      rw [hsize] at hfull ih
      rw [cut, hsize, if_pos hfull, withRest_cons, List.length_cons, ih, List.length_drop,
        ← Nat.add_div_right _ hpos]
      congr 1
      omega
  | case2 i text hshort =>
      rw [hsize] at hshort
      rw [cut_short (by rw [hsize]; omega), withRest]
      dsimp only
      split
      · rename_i hnone
        simp only [hnone, List.length_nil, Nat.zero_add]
        exact (Nat.div_eq_of_lt (by omega)).symm
      · rename_i hsome
        have htext := List.length_pos_iff.2 hsome
        rw [show text.length + (size - 1) = text.length - 1 + size by omega,
          Nat.add_div_right _ hpos, Nat.div_eq_of_lt (by omega)]
        rfl

/-- With numbers of a fixed width and a buffer, the length of the data alone says how many chunks
it needs. -/
theorem length_payloads_fixed (hl : l.check = .ok ()) (hbuffer : l.bufferSize ≠ 0)
    (hcounter : l.counter? = some form) (hfixed : form ≠ .varint) (writes : List Bytes) :
    (l.payloads writes).length =
      (writes.flatten.length + (l.bufferSize - form.maxWidth - 1)) /
        (l.bufferSize - form.maxWidth) := by
  have hwidth (i : Nat) : (l.number i).length = form.maxWidth := by
    simp only [number, hcounter]
    cases form with
    | varint => exact absurd rfl hfixed
    | fixed1 | fixed2 | fixed4 | fixed8 => simp [IntForm.bytes]
  have hroom := length_number_lt hl hbuffer 0
  rw [hwidth] at hroom
  rw [payloads, divide_buffered hbuffer]
  exact length_cut (fun i => by rw [blockSize, hwidth]) (by omega) 1 writes.flatten

/-- Without a buffer each write that is not empty is a payload. -/
theorem payloads_unbuffered (hbuffer : l.bufferSize = 0) (writes : List Bytes) :
    l.payloads writes = writes.filter (· ≠ []) := by
  simp [payloads, divide, hbuffer, withRest]

/-- The chunks of the first payloads are the first chunks. -/
theorem numbered_prefix (hlength : l.length? = some form) (h : blocks <+: l.payloads writes) :
    l.numbered 1 blocks <+: l.chunkTexts writes := by
  rw [chunkTexts_framed hlength, List.prefix_iff_eq_take.1 h, numbered_take]
  exact (List.take_prefix _ _).trans (List.prefix_append _ _)

end Layout

namespace Writer

/-- What is in order with a numbered stream of these writes, so that nothing but a number can
stop it: the sealer does not fail, the lengths of the chunks fit, and the form of the counters
gives out before the counter itself does. -/
structure Numberable (l : Layout) (sealer : Sealer σ) (codec : σ) (form : IntForm)
    (writes : List Bytes) : Prop where
  sound : l.check = .ok ()
  counter_eq : l.counter? = some form
  narrow : form.capacity + 1 < intBound
  infallible : sealer.Infallible codec
  fits : l.LengthsFit sealer codec writes

variable {l : Layout} {sealer : Sealer σ} {codec : σ} {form : IntForm}
  {writes payloads : List Bytes} {current data : Bytes} {w w' : Writer (Recorded σ)}
  {f : Failure}

theorem Numberable.framed (hn : Numberable l sealer codec form writes) :
    ∃ lengths, l.length? = some lengths := by
  cases hlength : l.length? with
  | none =>
      have huncounted := Layout.counter_eq_none hn.sound hlength
      simp [hn.counter_eq] at huncounted
  | some lengths => exact ⟨lengths, rfl⟩

/-! ## Steps -/

/-- A chunk of the stream is sealed and sent when its turn comes. -/
theorem Booked.seals_next (hn : Numberable l sealer codec form writes)
    (h : Booked l sealer codec w) (hperfect : w.sink.Perfect)
    (hnext : w.codec.record.map Sealing.text ++ [w.pending] <+: l.chunkTexts writes) :
    ∃ w', w.sealPending = (.ok (), w') := by
  obtain ⟨chunk, state, hchunk⟩ := hn.infallible _ _ h.seals w.pending
  let sealing : Sealing := ⟨w.pending, chunk⟩
  let next : Writer (Recorded σ) :=
    { w with codec := ⟨state, w.codec.record ++ [sealing]⟩, pending := [] }
  have hseal : w.sealPending = next.sendFrame chunk := by
    have hrecorded : w.sealer.sealChunk w.codec w.pending = (.ok chunk, next.codec) := by
      simp only [h.sealer_eq, Sealer.recording, hchunk, next, sealing]
    rw [sealPending, hrecorded]
  rw [hseal]
  rcases hframe : next.sendFrame chunk with ⟨answer, w'⟩
  cases answer with
  | ok u => exact ⟨w', rfl⟩
  | error f =>
      obtain ⟨-, lengths, hlength, -, hwide⟩ := sendFrame_error (by exact hperfect) hframe
      have htexts : (w.codec.record ++ [sealing]).map Sealing.text <+: l.chunkTexts writes := by
        rwa [List.map_append]
      have hfits := hn.fits _ _ (h.seals.concat (c := sealing) hchunk) htexts lengths
        (h.layout_eq ▸ hlength) sealing (by simp)
      exact absurd hwide (Nat.not_le.2 hfits)

/-- What has been sealed and what is held back are the chunks of the payloads so far. -/
theorem Standing.texts_next (h : Standing l sealer codec payloads current w)
    (hcurrent : current ≠ []) :
    w.codec.record.map Sealing.text ++ [w.pending] = l.numbered 1 (payloads ++ [current]) := by
  rw [h.texts, h.some_held hcurrent, Layout.numbered_concat, Nat.add_comm 1]

/-- A chunk that is full is the next one of the stream. -/
theorem Standing.seals_full (hn : Numberable l sealer codec form writes)
    (hbuffer : l.bufferSize ≠ 0) (h : Standing l sealer codec payloads current w)
    (hcurrent : current ≠ []) (hperfect : w.sink.Perfect)
    (hrecord : ∀ c ∈ w.codec.record, c.text.length = l.bufferSize)
    (hfilled : w.pending.length = l.bufferSize) {later : Bytes}
    (hdata : writes.flatten = payloads.flatten ++ current ++ later) :
    ∃ w', w.sealPending = (.ok (), w') := by
  obtain ⟨lengths, hlength⟩ := hn.framed
  have htexts := h.texts_next hcurrent
  have hfull : ∀ text ∈ l.numbered 1 (payloads ++ [current]), text.length = l.bufferSize := by
    intro text htext
    rw [← htexts] at htext
    rcases List.mem_append.1 htext with hold | hnew
    · obtain ⟨c, hc, rfl⟩ := List.mem_map.1 hold
      exact hrecord c hc
    · obtain rfl := List.mem_singleton.1 hnew
      exact hfilled
  have hblocks : ∀ block ∈ payloads ++ [current], block ≠ [] := by
    simpa [or_imp, forall_and] using ⟨h.payload_ne, hcurrent⟩
  obtain ⟨more, hmore, -⟩ := Layout.payloads_of_full hbuffer hfull hblocks
    (show writes.flatten = (payloads ++ [current]).flatten ++ later by simpa using hdata)
  refine h.toBooked.seals_next hn hperfect ?_
  rw [htexts]
  exact Layout.numbered_prefix hlength (hmore ▸ List.prefix_append _ _)

/-- So the end of a round does not fail. -/
theorem Standing.pack_succeeds (hn : Numberable l sealer codec form writes)
    (hbuffer : l.bufferSize ≠ 0)
    (h : Standing l sealer codec payloads current
      { w with pending := w.pending ++ data.take w.room })
    (hcurrent : current ≠ []) (hperfect : w.sink.Perfect)
    (hrecord : ∀ c ∈ w.codec.record, c.text.length = l.bufferSize)
    (hfits : w.pending.length + (data.take w.room).length ≤ l.bufferSize) {later : Bytes}
    (hdata : writes.flatten = payloads.flatten ++ current ++ later) :
    ∃ w', w.pack data = (.ok (), w') := by
  unfold pack
  dsimp only
  split
  · rename_i hroom
    have hlayout : w.layout = l := h.layout_eq
    have hfull : w.layout.bufferSize - (w.pending ++ data.take w.room).length = 0 := hroom
    refine h.seals_full hn hbuffer hcurrent hperfect hrecord ?_ hdata
    rw [hlayout, List.length_append] at hfull
    show (w.pending ++ data.take w.room).length = l.bufferSize
    rw [List.length_append]
    omega
  · exact ⟨_, rfl⟩

/-- A chunk that is not begun would have the first number that does not fit. -/
theorem Ready.begin_refused (hn : Numberable l sealer codec form writes)
    (h : Ready l sealer codec payloads [] w) (hbegin : w.beginChunk = (.error f, w')) :
    f = .intTooWide form.capacity form ∧ w' = w ∧ payloads.length + 1 = form.capacity := by
  obtain ⟨hfew, hnext⟩ := h.counts form hn.counter_eq
  rw [if_pos rfl, Nat.add_zero] at hfew hnext
  obtain ⟨number, hcounter, hcause⟩ := beginChunk_error hbegin
  rw [h.layout_eq, hn.counter_eq] at hcounter
  obtain rfl := Option.some.inj hcounter
  rcases hcause with ⟨rfl, hwide, rfl⟩ | ⟨-, hlast, -⟩
  · refine ⟨?_, rfl, by omega⟩
    rw [show w'.nextCounter = form.capacity by omega]
  · have hnarrow := hn.narrow
    omega

/-- Rounds that fail have sealed a chunk for every number there is, with text left over.  The
induction is on the rounds: only the beginning of a chunk can fail. -/
theorem Ready.fill_refused (hn : Numberable l sealer codec form writes)
    (hbuffer : l.bufferSize ≠ 0) {k : Nat} {later : Bytes}
    (h : Ready l sealer codec payloads current w) (hperfect : w.sink.Perfect)
    (hdata : writes.flatten = payloads.flatten ++ current ++ data ++ later)
    (hfill : fill k w data = (.error f, w')) :
    ∃ blocks rest, f = .intTooWide form.capacity form ∧ Ready l sealer codec blocks [] w' ∧
      blocks.length + 1 = form.capacity ∧ rest ≠ [] ∧
      payloads.flatten ++ current ++ data = blocks.flatten ++ rest := by
  obtain ⟨lengths, hlength⟩ := hn.framed
  induction k generalizing w data payloads current with
  | zero => simp [fill] at hfill
  | succ k ih =>
      by_cases hempty : data = []
      · simp [fill, hempty] at hfill
      · rw [fill_round k w hempty] at hfill
        rcases andThen_error hfill with hprepare | ⟨w₁, hprepare, hround⟩
        · unfold prepare at hprepare
          split at hprepare
          · rename_i hpending
            -- Nothing is held back where a chunk is begun.
            have hcurrent : current = [] := by
              by_contra hne
              simp [h.some_held hne, hne] at hpending
            subst hcurrent
            obtain ⟨hf, rfl, hlast⟩ := h.begin_refused hn hprepare
            exact ⟨payloads, data, hf, h, hlast, hempty, by simp⟩
          · simp at hprepare
        · have hopen : (if w.pending = [] then w.beginChunk else (.ok (), w)) = (.ok (), w₁) := by
            simpa only [prepare, List.isEmpty_iff] using hprepare
          have hperfect₁ := uniform_open.perfect hperfect hopen
          obtain ⟨hpiece, hstanding, hfull, hfits⟩ := h.round hn.sound hbuffer hempty hopen
          have hparts : current ++ data = current ++ data.take w₁.room ++ data.drop w₁.room := by
            rw [List.append_assoc, List.take_append_drop]
          have hwhole : writes.flatten = payloads.flatten ++ (current ++ data.take w₁.room) ++
              (data.drop w₁.room ++ later) := by
            rw [hdata, List.append_assoc payloads.flatten, hparts]
            simp only [List.append_assoc]
          obtain ⟨w₂, hpack⟩ := hstanding.pack_succeeds hn hbuffer (by simp [hpiece]) hperfect₁
            hfull hfits hwhole
          rcases andThen_error hround with hseal | ⟨w₂, hsettle, hnext⟩
          · simp [hpack] at hseal
          · obtain ⟨payloads₂, current₂, hready, hsofar⟩ := hstanding.settle hbuffer
              (by simp [hpiece]) (by rwa [List.length_append]) hfull hsettle
            have hperfect₂ := uniform_settle.perfect
              (w := { w₁ with pending := w₁.pending ++ data.take w₁.room }) hperfect₁ hsettle
            have htaken : payloads.flatten ++ current ++ data =
                payloads₂.flatten ++ current₂ ++ data.drop w₁.room := by
              rw [hsofar, List.append_assoc, hparts, ← List.append_assoc, ← List.append_assoc]
            rw [htaken] at hdata ⊢
            exact ih hready hperfect₂ hdata hnext

/-- Data that is not sealed as a chunk of its own has found no number left. -/
theorem Ready.sealWhole_refused (hn : Numberable l sealer codec form writes)
    (hbuffer : l.bufferSize = 0) (h : Ready l sealer codec payloads current w)
    (hperfect : w.sink.Perfect) (hempty : data ≠ [])
    (hnext : payloads ++ [data] <+: l.payloads writes)
    (hseal : w.sealWhole data = (.error f, w')) :
    f = .intTooWide form.capacity form ∧ Ready l sealer codec payloads [] w' ∧
      payloads.length + 1 = form.capacity := by
  obtain ⟨lengths, hlength⟩ := hn.framed
  obtain rfl := h.unbuffered hbuffer
  rcases andThen_error hseal with hbegin | ⟨w₁, hbegin, hsealed⟩
  · obtain ⟨hf, rfl, hlast⟩ := h.begin_refused hn hbegin
    exact ⟨hf, h, hlast⟩
  · have hperfect₁ := uniform_beginChunk.perfect hperfect hbegin
    have hstanding := h.toStanding.begin hbegin hempty
    obtain ⟨w₂, hok⟩ := hstanding.toBooked.seals_next hn hperfect₁ (by
      rw [hstanding.texts_next hempty]
      exact Layout.numbered_prefix hlength hnext)
    simp [hok] at hsealed

/-- A write that fails has sealed the first payloads, one for every number there is, and the
writes up to it need more. -/
theorem Ready.take_refused {done later : List Bytes}
    (hn : Numberable l sealer codec form (done ++ data :: later))
    (h : Ready l sealer codec (l.divide done).1 (l.divide done).2 w) (hperfect : w.sink.Perfect)
    (hempty : data ≠ []) (htake : w.take data = (.error f, w')) :
    ∃ blocks, f = .intTooWide form.capacity form ∧ Ready l sealer codec blocks [] w' ∧
      blocks.length + 1 = form.capacity ∧
      ∀ after, ∃ more, l.payloads (done ++ data :: after) = blocks ++ more ∧ more ≠ [] := by
  unfold take at htake
  rw [h.layout_eq] at htake
  split at htake
  · rename_i hbuffer
    have hpayloads (after : List Bytes) : l.payloads (done ++ data :: after) =
        (l.divide done).1 ++ data :: after.filter (· ≠ []) := by
      rw [Layout.payloads_unbuffered hbuffer]
      simp [Layout.divide, hbuffer, hempty]
    obtain ⟨hf, hready, hlast⟩ := h.sealWhole_refused hn hbuffer hperfect hempty
      ⟨later.filter (· ≠ []), by rw [hpayloads, List.append_assoc, List.singleton_append]⟩ htake
    exact ⟨_, hf, hready, hlast, fun after => ⟨_, hpayloads after, List.cons_ne_nil _ _⟩⟩
  · rename_i hbuffer
    have hdone := Layout.flatten_divide l done
    obtain ⟨blocks, rest, hf, hready, hlast, hrest, hparts⟩ := h.fill_refused hn hbuffer hperfect
      (show (done ++ data :: later).flatten =
        (l.divide done).1.flatten ++ (l.divide done).2 ++ data ++ later.flatten by
          rw [hdone, List.flatten_append, List.flatten_cons, List.append_assoc]) htake
    refine ⟨blocks, hf, hready, hlast, fun after => ?_⟩
    obtain ⟨more, hpayloads, hmore⟩ := Layout.payloads_of_full hbuffer
      (hready.numbered_full hbuffer) hready.payload_ne
      (show (done ++ data :: after).flatten = blocks.flatten ++ (rest ++ after.flatten) by
        rw [List.flatten_append, List.flatten_cons, ← List.append_assoc, ← hdone, hparts,
          List.append_assoc])
    exact ⟨more, hpayloads, hmore (by simp [hrest])⟩

/-- A stream all of whose data has been taken in is ended without a failure. -/
theorem Ready.close_succeeds (hn : Numberable l sealer codec form writes)
    (h : Ready l sealer codec (l.divide writes).1 (l.divide writes).2 w)
    (hphase : w.phase = .writing) (hperfect : w.sink.Perfect) :
    ∃ final, w.close = (.ok (), final) := by
  obtain ⟨lengths, hlength⟩ := hn.framed
  -- What is held back is the last of the payloads.
  obtain ⟨w₁, hclear⟩ : ∃ w₁, (if w.pending.isEmpty then (.ok (), w) else w.sealPending) =
      (.ok (), w₁) := by
    split
    · exact ⟨w, rfl⟩
    · rename_i hpending
      have hcurrent : (l.divide writes).2 ≠ [] := fun hnil =>
        hpending (List.isEmpty_iff.2 (h.none_held hnil))
      refine h.toBooked.seals_next hn hperfect ?_
      have hpayloads : l.payloads writes = (l.divide writes).1 ++ [(l.divide writes).2] := by
        rw [Layout.payloads, Layout.withRest, if_neg hcurrent]
      rw [h.texts_next hcurrent, ← hpayloads]
      exact Layout.numbered_prefix hlength List.prefix_rfl
  have hperfect₁ := uniform_clear.perfect hperfect hclear
  have hstanding : Standing l sealer codec (l.payloads writes) [] w₁ := h.toStanding.clear hclear
  -- The number zero is all that is missing.
  obtain ⟨w₂, hseal⟩ : ∃ w₂, sealPending { w₁ with pending := w₁.pending ++ form.bytes 0 } =
      (.ok (), w₂) := by
    have hbooked : Booked l sealer codec { w₁ with pending := w₁.pending ++ form.bytes 0 } :=
      { hstanding.toBooked with }
    refine hbooked.seals_next hn hperfect₁ ?_
    rw [Layout.chunkTexts_framed hlength, Layout.endTexts, hn.counter_eq, hstanding.none_held rfl]
    exact hstanding.texts ▸ List.prefix_rfl
  have hterminate : w.terminate = (.ok (), w₂) := by
    unfold terminate
    rw [h.layout_eq, hlength]
    dsimp only
    rw [hclear]
    simp only [Outcome.andThen, hstanding.layout_eq, hn.counter_eq,
      IntForm.encode_of_lt form.capacity_pos]
    simpa only [hstanding.layout_eq] using hseal
  have hflush := (uniform_terminate.perfect hperfect hterminate).flush.1
  rw [close_eq hphase, finish, hterminate]
  simp only [Outcome.andThen, flushSink]
  rcases hsink : w₂.sink.flush with ⟨answer, sink⟩
  rw [hsink] at hflush
  obtain rfl : answer = .ok () := hflush
  exact ⟨_, rfl⟩

/-! ## Runs of writes -/

section Runs

variable {w w' : Writer σ}

/-- Writes that succeed leave the writer open, and a sink without faults has none. -/
theorem takeAll_steady (hphase : w.phase = .writing) (hperfect : w.sink.Perfect)
    (h : w.takeAll writes = some w') : w'.phase = .writing ∧ w'.sink.Perfect := by
  induction writes generalizing w with
  | nil =>
      obtain rfl := Option.some.inj h
      exact ⟨hphase, hperfect⟩
  | cons data writes ih =>
      have hserve := serve_perfect hperfect (.write data)
      rcases hwrite : w.write data with ⟨answer, w₁⟩
      rw [Writer.serve, hwrite] at hserve
      simp only [takeAll, hwrite] at h
      cases answer with
      | error f => simp at h
      | ok n => exact ih (phase_write hphase hwrite) hserve h

/-- Of writes that are not all taken there is a first one that fails. -/
theorem exists_refused (h : w.takeAll writes = none) :
    ∃ done data later w₁ f v, writes = done ++ data :: later ∧ w.takeAll done = some w₁ ∧
      w₁.write data = (.error f, v) := by
  induction writes generalizing w with
  | nil => simp [takeAll] at h
  | cons data writes ih =>
      rcases hwrite : w.write data with ⟨answer, w₁⟩
      simp only [takeAll, hwrite] at h
      cases answer with
      | error f => exact ⟨[], data, writes, w, f, w₁, rfl, rfl, hwrite⟩
      | ok n =>
          obtain ⟨done, data', later, w₂, f, v, rfl, htaken, hfailed⟩ := ih h
          refine ⟨data :: done, data', later, w₂, f, v, rfl, ?_, hfailed⟩
          simpa only [takeAll, hwrite] using htaken

/-- After writes that have been taken the writer is open and its sink still without faults, and
the same run with a record stands where the reference says. -/
theorem start_taken (h : start .perfect sealer codec l = .ok w)
    (htaken : w.takeAll writes = some w') :
    ∃ v, Mirrors w' v ∧ Ready l sealer codec (l.divide writes).1 (l.divide writes).2 v ∧
      w'.phase = .writing ∧ v.phase = .writing ∧ v.sink.Perfect := by
  have hsteady : w'.phase = .writing ∧ w'.sink.Perfect := by
    obtain ⟨-, rfl⟩ := start_ok h
    exact takeAll_steady rfl ⟨rfl, rfl⟩ htaken
  obtain ⟨hl, -⟩ := start_ok h
  obtain ⟨v₀, hstart, hmirrors₀⟩ := start_mirrors h
  obtain ⟨v, htaken', hmirrors⟩ := hmirrors₀.takeAll htaken
  rw [takeAll_eq_performAll] at htaken'
  have hready := performAll_divides hl (start_ready Sink.bytes_perfect hstart) htaken'
  rw [written_map_write] at hready
  refine ⟨v, hmirrors, hready, hsteady.1, ?_⟩
  obtain ⟨log, rfl⟩ := hmirrors
  exact hsteady

/-- Chunks that have been begun have numbers that fit. -/
theorem Ready.length_payloads_lt {v : Writer (Recorded σ)} (hcounter : l.counter? = some form)
    (h : Ready l sealer codec (l.divide writes).1 (l.divide writes).2 v) :
    (l.payloads writes).length < form.capacity := by
  have hcounts := (h.counts form hcounter).1
  rw [Layout.payloads, Layout.withRest]
  split
  · rename_i hnone
    rwa [if_pos hnone, Nat.add_zero] at hcounts
  · rename_i hsome
    rwa [if_neg hsome, ← List.length_singleton, ← List.length_append] at hcounts

/-- If the writes are taken, the stream is ended, and its chunks have the numbers from one on
and the zero behind them. -/
theorem ends_when_taken (hn : Numberable l sealer codec form writes)
    (h : start .perfect sealer codec l = .ok w) (htaken : w.takeAll writes = some w') :
    ∃ final record, w'.close = (.ok (), final) ∧ sealer.Seals codec record final.codec ∧
      final.sink.bytes = l.frames record ∧
      record.map Sealing.text = l.chunkTexts writes ∧
      (record.map Sealing.text).map form.front =
        (List.range' 1 (l.payloads writes).length ++ [0]).map .ok := by
  obtain ⟨lengths, hlength⟩ := hn.framed
  obtain ⟨v, hmirrors, hready, -, hopen, hperfect⟩ := start_taken h htaken
  obtain ⟨final', hclose'⟩ := hready.close_succeeds hn hopen hperfect
  obtain ⟨hanswer, hfinal⟩ := hmirrors.close
  rw [hclose'] at hanswer hfinal
  obtain ⟨v', hterminate, hcodec, hbytes⟩ := close_ok hclose'
  obtain ⟨hseals, htexts, hsink⟩ := hready.terminate_stream hn.sound hterminate
  rw [← hcodec] at hseals htexts hsink
  rw [← hbytes] at hsink
  -- The last number is sealed, so that no mark stands behind the frames.
  have hmark : l.endMark = [] := by simp [Layout.endMark, hlength, hn.counter_eq]
  refine ⟨w'.close.2, final'.codec.record, Prod.ext hanswer.symm rfl, ?_, ?_, htexts, ?_⟩
  · obtain ⟨log, rfl⟩ := hfinal
    exact hseals
  · obtain ⟨log, rfl⟩ := hfinal
    simpa [hmark] using hsink
  · have hfew := hready.length_payloads_lt hn.counter_eq
    have hzero := IntForm.front_bytes form.capacity_pos []
    rw [List.append_nil] at hzero
    rw [htexts, Layout.chunkTexts_framed hlength, List.map_append, List.map_append,
      Layout.front_numbered hn.counter_eq (by omega), Layout.endTexts, hn.counter_eq]
    simp [hzero]

/-- If they are not, the write that needs one number more than there are fails for it; the
chunks sent are the first ones, as many as there are numbers, and the failure is the answer to
everything after it. -/
theorem fails_when_refused (hn : Numberable l sealer codec form writes)
    (h : start .perfect sealer codec l = .ok w) (hrefused : w.takeAll writes = none) :
    ∃ done data later w₁ v record, writes = done ++ data :: later ∧
      (l.payloads done).length < form.capacity ∧
      form.capacity ≤ (l.payloads (done ++ [data])).length ∧
      form.capacity ≤ (l.payloads writes).length ∧
      w.takeAll done = some w₁ ∧
      w₁.write data = (.error (.intTooWide form.capacity form), v) ∧
      v.close = (.error (.intTooWide form.capacity form), v) ∧
      sealer.Seals codec record v.codec ∧ v.sink.bytes = l.frames record ∧
      record.map Sealing.text = (l.chunkTexts writes).take (form.capacity - 1) ∧
      (record.map Sealing.text).map form.front =
        (List.range' 1 (form.capacity - 1)).map .ok := by
  obtain ⟨lengths, hlength⟩ := hn.framed
  obtain ⟨done, data, later, w₁, f, v, rfl, htaken, hwrite⟩ := exists_refused hrefused
  obtain ⟨x, hmirrors, hready, hphase, hopen, hperfect⟩ := start_taken h htaken
  have hempty : data ≠ [] := by
    rintro rfl
    rw [write_nil hphase] at hwrite
    simp at hwrite
  obtain ⟨hanswer, hfinal⟩ := hmirrors.write data
  rw [hwrite] at hanswer hfinal
  have hwrite' := write_eq hopen hempty
  rcases htake : x.take data with ⟨answer, x'⟩
  rw [htake] at hwrite'
  rw [hwrite'] at hanswer hfinal
  cases answer with
  | ok u => simp [Except.map] at hanswer
  | error g =>
      obtain rfl : g = f := Except.error.inj hanswer
      obtain ⟨blocks, rfl, hready', hlast, hmore⟩ :=
        hready.take_refused hn hperfect hempty htake
      obtain ⟨more, hpayloads, hne⟩ := hmore later
      obtain ⟨more₁, hpayloads₁, hne₁⟩ := hmore []
      have hpos := List.length_pos_iff.2 hne
      have hpos₁ := List.length_pos_iff.2 hne₁
      have hfailed := failed_of_write (show (w₁.write data).1 = _ by rw [hwrite]) (by simp)
      rw [hwrite] at hfailed
      have htexts : x'.codec.record.map Sealing.text = l.numbered 1 blocks := hready'.texts
      have hfirst : l.numbered 1 blocks =
          (l.chunkTexts (done ++ data :: later)).take (form.capacity - 1) := by
        have hprefix := Layout.numbered_prefix hlength (hpayloads ▸ List.prefix_append blocks more)
        rw [List.prefix_iff_eq_take.1 hprefix, Layout.length_numbered]
        congr 1
        omega
      refine ⟨done, data, later, w₁, v, x'.codec.record, rfl,
        hready.length_payloads_lt hn.counter_eq, ?_, ?_, htaken, hwrite,
        (refuses_of_failed hfailed).close, ?_, ?_, htexts.trans hfirst, ?_⟩
      · rw [hpayloads₁, List.length_append]
        omega
      · rw [hpayloads, List.length_append]
        omega
      · obtain ⟨log, hv⟩ := hfinal
        rw [show v.codec = x'.codec.state from (congrArg (fun y => y.codec.state) hv).symm]
        exact hready'.seals
      · obtain ⟨log, hv⟩ := hfinal
        rw [show v.sink = x'.sink from (congrArg Writer.sink hv).symm]
        exact hready'.sink_eq
      · rw [htexts, Layout.front_numbered hn.counter_eq (by omega),
          show blocks.length = form.capacity - 1 by omega]

/-- The capacity of a stream with counters of a fixed width, on a sink without faults and with
a sealer that does not fail, the lengths of its chunks fitting.

If the data of the writes needs no more chunks than there are numbers above zero, all of them
are taken and the stream is closed; the numbers of its chunks are those from one on, with the
zero behind them.

If it needs more, the write that first needs the number one past the last fails for that
number.  What stands in the sink then are the first chunks, one for every number above zero,
and nothing behind them; and a close fails alike. -/
theorem stream_capacity (h : start .perfect sealer codec l = .ok w)
    (hcounter : l.counter? = some form) (hfixed : form ∈ [.fixed1, .fixed2, .fixed4])
    (hinfallible : sealer.Infallible codec) (writes : List Bytes)
    (hfits : l.LengthsFit sealer codec writes) :
    ((l.payloads writes).length ≤ 256 ^ form.maxWidth - 1 →
      ∃ w' final record, w.takeAll writes = some w' ∧ w'.close = (.ok (), final) ∧
        sealer.Seals codec record final.codec ∧ final.sink.bytes = l.frames record ∧
        record.map Sealing.text = l.chunkTexts writes ∧
        (record.map Sealing.text).map form.front =
          (List.range' 1 (l.payloads writes).length ++ [0]).map .ok) ∧
    (256 ^ form.maxWidth - 1 < (l.payloads writes).length →
      ∃ done data later w₁ v record, writes = done ++ data :: later ∧
        (l.payloads done).length ≤ 256 ^ form.maxWidth - 1 ∧
        256 ^ form.maxWidth - 1 < (l.payloads (done ++ [data])).length ∧
        w.takeAll done = some w₁ ∧
        w₁.write data = (.error (.intTooWide (256 ^ form.maxWidth) form), v) ∧
        v.close = (.error (.intTooWide (256 ^ form.maxWidth) form), v) ∧
        sealer.Seals codec record v.codec ∧ v.sink.bytes = l.frames record ∧
        record.map Sealing.text = (l.chunkTexts writes).take (256 ^ form.maxWidth - 1) ∧
        (record.map Sealing.text).map form.front =
          (List.range' 1 (256 ^ form.maxWidth - 1)).map .ok) := by
  obtain ⟨hl, -⟩ := start_ok h
  have hnarrow := IntForm.narrow_of_mem hfixed
  have hn : Numberable l sealer codec form writes :=
    ⟨hl, hcounter, hnarrow.2, hinfallible, hfits⟩
  have hpos := form.capacity_pos
  rw [← IntForm.capacity_eq hnarrow.1]
  cases htaken : w.takeAll writes with
  | none =>
      obtain ⟨done, data, later, w₁, v, record, hwrites, hfew, hneeded, hall, htaken', hwrite,
        hclose, hseals, hbytes, htexts, hnumbers⟩ := fails_when_refused hn h htaken
      exact ⟨fun hroom => by omega, fun _ => ⟨done, data, later, w₁, v, record, hwrites, by omega,
        by omega, htaken', hwrite, hclose, hseals, hbytes, htexts, hnumbers⟩⟩
  | some w' =>
      obtain ⟨v, -, hready, -⟩ := start_taken h htaken
      have hfew := hready.length_payloads_lt hcounter
      obtain ⟨final, record, hclose, hended⟩ := ends_when_taken hn h htaken
      exact ⟨fun _ => ⟨w', final, record, rfl, hclose, hended⟩, fun hmany => by omega⟩

/-- With two bytes to a chunk and numbers of one byte, 510 bytes fill the stream, and one more
is one too many. -/
theorem stream_capacity_sample :
    ∃ w, start .perfect (Chunk.tagSealer [255] 1) () sampleLayout = .ok w ∧
      (∃ w' final, w.takeAll [List.replicate 510 97] = some w' ∧ w'.close = (.ok (), final)) ∧
      ∃ done data later w₁ v,
        [List.replicate 510 97, [98]] = done ++ data :: later ∧ w.takeAll done = some w₁ ∧
          w₁.write data = (.error (.intTooWide 256 .fixed1), v) ∧
          v.close = (.error (.intTooWide 256 .fixed1), v) := by
  have hstart : start .perfect (Chunk.tagSealer [255] 1) () sampleLayout = .ok _ := rfl
  have hinfallible : (Chunk.tagSealer [255] 1).Infallible () := fun _ _ _ _ => ⟨_, _, rfl⟩
  have hneeds := Layout.length_payloads_fixed (show sampleLayout.check = .ok () from rfl)
    (by decide) (show sampleLayout.counter? = some .fixed1 from rfl) (by decide)
  have hfits (writes : List Bytes) :
      sampleLayout.LengthsFit (Chunk.tagSealer [255] 1) () writes := by
    intro record state hseals htexts form hform c hc
    obtain rfl : IntForm.varint = form := Option.some.inj hform
    -- No text is longer than the buffer, and each chunk has one byte more.
    have htext := Layout.length_le_of_mem_chunkTexts (l := sampleLayout) rfl (by decide) rfl
      (htexts.subset (List.mem_map_of_mem hc))
    have hlength := (Chunk.tag_matched [255]).length_chunk hseals c hc
    have hlimit : sampleLayout.bufferSize + 2 < IntForm.varint.capacity := by decide
    have hoverhead : (Chunk.tagSealer [255] [255].length).overhead = 1 := rfl
    omega
  have hfull := stream_capacity hstart rfl (by decide) hinfallible [List.replicate 510 97]
    (hfits _)
  have hmore := stream_capacity hstart rfl (by decide) hinfallible [List.replicate 510 97, [98]]
    (hfits _)
  obtain ⟨w', final, -, htaken, hclose, -⟩ := hfull.1 (by
    rw [hneeds, List.flatten_singleton, List.length_replicate]
    decide)
  obtain ⟨done, data, later, w₁, v, -, hwrites, -, -, htaken₁, hwrite, hclose₁, -⟩ := hmore.2 (by
    rw [hneeds, List.flatten_cons, List.flatten_singleton, List.length_append,
      List.length_replicate]
    decide)
  exact ⟨_, hstart, ⟨w', final, htaken, hclose⟩, done, data, later, w₁, v, hwrites, htaken₁,
    hwrite, hclose₁⟩

end Runs

end Writer

end SealedStream
