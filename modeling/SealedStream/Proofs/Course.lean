import SealedStream.Proofs.Closing
import SealedStream.Proofs.Faults
import SealedStream.Proofs.Recording

/-!
# The course of a stream

On a sink without faults a stream is a row of data chunks, all of them in whole frames,
and at most one end behind them.  A writer that fails there has been stopped by its
sealer, by a counter or by a length that does not fit its form, and stops between two
frames, before the end.

`Writer.Course` says this of a writer whatever it has been called for and however the
calls have been answered; `Course.serve` shows that each call keeps it.
-/

namespace SealedStream

variable {σ : Type}

/-- The data chunks of a stream, sealed one after the other: each is the number of a
payload with the payload behind it, no payload is empty, and no number is too wide for
its form.  Without lengths each chunk is full. -/
structure DataChunks (l : Layout) (sealer : Sealer σ) (codec : σ) (data : List Sealing)
    (state : σ) : Prop where
  seals : sealer.Seals codec data state
  numbered : ∃ payloads : List Bytes, data.map Sealing.text = l.numbered 1 payloads ∧
    (∀ payload ∈ payloads, payload ≠ []) ∧
    ∀ form, l.counter? = some form → payloads.length < form.capacity
  full : l.length? = none → ∀ c ∈ data, c.text.length = l.bufferSize

/-- The one thing that ends the stream, as it goes onto the wire: the sealed number zero,
a bare length of zero, or a chunk that is not full. -/
inductive Ending (l : Layout) (sealer : Sealer σ) (state : σ) : Bytes → Prop
  | zero {form : IntForm} {chunk : Bytes} {state' : σ} :
      l.counter? = some form → sealer.sealChunk state (form.bytes 0) = (.ok chunk, state') →
      Ending l sealer state (l.frame chunk)
  | mark {form : IntForm} :
      l.length? = some form → l.counter? = none → Ending l sealer state (form.bytes 0)
  | short {text chunk : Bytes} {state' : σ} :
      l.length? = none → text.length < l.bufferSize →
      sealer.sealChunk state text = (.ok chunk, state') → Ending l sealer state chunk

/-- Why a writer whose sealer is in this state stops, other than for its sink. -/
inductive Stops (l : Layout) (sealer : Sealer σ) (state : σ) : Failure → Prop
  | sealer {text : Bytes} {f : Failure} {state' : σ} :
      sealer.sealChunk state text = (.error f, state') → Stops l sealer state f
  | counter {form : IntForm} {n : Nat} :
      l.counter? = some form → form.capacity ≤ n → Stops l sealer state (.intTooWide n form)
  | exhausted {form : IntForm} :
      l.counter? = some form → Stops l sealer state .nonceExhausted
  | length {form : IntForm} {text chunk : Bytes} {state' : σ} :
      l.length? = some form → sealer.sealChunk state text = (.ok chunk, state') →
      form.capacity ≤ chunk.length → Stops l sealer state (.intTooWide chunk.length form)

/-- These bytes are frames of data chunks, and behind them a writer has stopped with this
failure. -/
def Halted (l : Layout) (sealer : Sealer σ) (codec : σ) (f : Failure) (bytes : Bytes) : Prop :=
  ∃ data state, DataChunks l sealer codec data state ∧ Stops l sealer state f ∧
    bytes = l.frames data

/-- Data chunks that have been sent: the length of each fits its form. -/
structure SentChunks (l : Layout) (sealer : Sealer σ) (codec : σ) (data : List Sealing)
    (state : σ) : Prop extends DataChunks l sealer codec data state where
  fits : ∀ form, l.length? = some form → ∀ c ∈ data, c.chunk.length < form.capacity

/-- These bytes are the frames of data chunks that have been sent, and behind them a writer has
stopped with this failure. -/
def BrokenOff (l : Layout) (sealer : Sealer σ) (codec : σ) (f : Failure) (bytes : Bytes) : Prop :=
  ∃ data state, SentChunks l sealer codec data state ∧ Stops l sealer state f ∧
    bytes = l.frames data

theorem BrokenOff.halted {l : Layout} {sealer : Sealer σ} {codec : σ} {f : Failure} {bytes : Bytes}
    (h : BrokenOff l sealer codec f bytes) : Halted l sealer codec f bytes := by
  obtain ⟨data, state, hsent, hstops, hbytes⟩ := h
  exact ⟨data, state, hsent.toDataChunks, hstops, hbytes⟩

theorem Sealer.recording_error {sealer : Sealer σ} {r r' : Recorded σ} {text : Bytes}
    {f : Failure} (h : sealer.recording.sealChunk r text = (.error f, r')) :
    sealer.sealChunk r.state text = (.error f, r'.state) ∧ r'.record = r.record := by
  simp only [recording] at h
  rcases hseal : sealer.sealChunk r.state text with ⟨answer, state⟩
  rw [hseal] at h
  cases answer with
  | ok chunk => simp at h
  | error g =>
      obtain ⟨hf, rfl⟩ := Prod.mk.inj h
      exact ⟨by rw [Except.error.inj hf], rfl⟩

theorem IntForm.encode_error {form : IntForm} {n : Nat} {f : Failure}
    (h : form.encode n = .error f) : f = .intTooWide n form ∧ form.capacity ≤ n := by
  by_cases hn : n < form.capacity
  · simp [IntForm.encode_of_lt hn] at h
  · unfold encode width? at h
    rw [if_neg hn] at h
    exact ⟨(Except.error.inj h).symm, by omega⟩

namespace Writer

theorem andThen_error {r : Outcome σ} {next : Writer σ → Outcome σ} {f : Failure}
    {w' : Writer σ} (h : r.andThen next = (.error f, w')) :
    r = (.error f, w') ∨ ∃ w, r = (.ok (), w) ∧ next w = (.error f, w') := by
  obtain ⟨answer, w⟩ := r
  cases answer with
  | error g => exact .inl h
  | ok u => exact .inr ⟨w, rfl, h⟩

/-! ## Steps that fail without the sink -/

variable {l : Layout} {sealer : Sealer σ} {codec : σ} {payloads : List Bytes}
  {current : Bytes} {w w' : Writer (Recorded σ)} {f : Failure}

/-- A chunk that cannot be begun has a number that does not fit its form, and then nothing has
been done, or the last number there is. -/
theorem beginChunk_error {w w' : Writer σ} (h : w.beginChunk = (.error f, w')) :
    ∃ form, w.layout.counter? = some form ∧
      ((f = .intTooWide w.nextCounter form ∧ form.capacity ≤ w.nextCounter ∧ w' = w) ∨
        (f = .nonceExhausted ∧ intBound ≤ w.nextCounter + 1 ∧
          w' = { w with pending := w.pending ++ form.bytes w.nextCounter })) := by
  unfold beginChunk at h
  cases hcounter : w.layout.counter? with
  | none => simp [hcounter] at h
  | some form =>
      refine ⟨form, rfl, ?_⟩
      simp only [hcounter] at h
      cases hencode : form.encode w.nextCounter with
      | error g =>
          simp only [hencode] at h
          obtain ⟨rfl, hwide⟩ := IntForm.encode_error hencode
          obtain ⟨hf, rfl⟩ := Prod.mk.inj h
          exact .inl ⟨(Except.error.inj hf).symm, hwide, rfl⟩
      | ok bs =>
          obtain ⟨-, rfl⟩ := IntForm.encode_eq_ok_iff.1 hencode
          simp only [hencode] at h
          split at h
          · simp at h
          · rename_i hlast
            obtain ⟨hf, rfl⟩ := Prod.mk.inj h
            exact .inr ⟨(Except.error.inj hf).symm, by omega, rfl⟩

theorem send_perfect {w : Writer σ} (h : w.sink.Perfect) (bs : Bytes) :
    ∃ w', w.send bs = (.ok (), w') := by
  have hok := (h.writeAll bs).1
  unfold send
  rcases hwrite : w.sink.writeAll bs with ⟨answer, sink⟩
  rw [hwrite] at hok
  cases answer with
  | error e => simp at hok
  | ok u => exact ⟨_, rfl⟩

theorem Uniform.perfect {step : Writer σ → Outcome σ} (hstep : Uniform step) {w : Writer σ}
    (h : w.sink.Perfect) {r : Except Failure Unit} {w' : Writer σ} (hw : step w = (r, w')) :
    w'.sink.Perfect := by
  have hkept := hstep.keeps (P := Sink.Perfect) (fun s bs hs => (hs.writeAll bs).2.1) h
  rwa [hw] at hkept

/-- A frame that is not sent, the sink having no faults, has a length that does not fit;
nothing of it has been sent. -/
theorem sendFrame_error {w w' : Writer σ} (hperfect : w.sink.Perfect) {chunk : Bytes}
    (h : w.sendFrame chunk = (.error f, w')) :
    w' = w ∧ ∃ form, w.layout.length? = some form ∧ f = .intTooWide chunk.length form ∧
      form.capacity ≤ chunk.length := by
  unfold sendFrame at h
  cases hlength : w.layout.length? with
  | none =>
      obtain ⟨v, hsend⟩ := send_perfect hperfect chunk
      simp [hlength, hsend] at h
  | some form =>
      simp only [hlength] at h
      cases hencode : form.encode chunk.length with
      | error g =>
          simp only [hencode] at h
          obtain ⟨hg, hwide⟩ := IntForm.encode_error hencode
          obtain ⟨hf, rfl⟩ := Prod.mk.inj h
          exact ⟨rfl, form, rfl, (Except.error.inj hf).symm.trans hg, hwide⟩
      | ok bs =>
          obtain ⟨v, hhead⟩ := send_perfect hperfect bs
          obtain ⟨v', hbody⟩ := send_perfect ((uniform_send bs).perfect hperfect hhead) chunk
          simp [hencode, hhead, Outcome.andThen, hbody] at h

/-- The chunks of the record are the data chunks of the stream so far. -/
theorem Standing.dataChunks (h : Standing l sealer codec payloads current w)
    (hfull : l.length? = none → ∀ c ∈ w.codec.record, c.text.length = l.bufferSize) :
    DataChunks l sealer codec w.codec.record w.codec.state :=
  ⟨h.seals, ⟨payloads, h.texts, h.payload_ne, fun form hform =>
    lt_of_le_of_lt (Nat.le_add_right _ _) (h.counts form hform).1⟩, hfull⟩

theorem Ready.dataChunks (hl : l.check = .ok ()) (h : Ready l sealer codec payloads current w) :
    DataChunks l sealer codec w.codec.record w.codec.state :=
  h.toStanding.dataChunks fun hlength => h.full (Layout.bufferSize_ne_zero hl hlength)

/-- A chunk that cannot be begun leaves the sink as it is. -/
theorem Booked.broken_begin (h : Booked l sealer codec w)
    (hdata : DataChunks l sealer codec w.codec.record w.codec.state)
    (hbegin : w.beginChunk = (.error f, w')) : BrokenOff l sealer codec f w'.sink.bytes := by
  suffices hstop : Stops l sealer w.codec.state f ∧ w'.sink = w.sink from
    ⟨_, _, ⟨hdata, h.fits⟩, hstop.1, by rw [hstop.2, h.sink_eq]⟩
  obtain ⟨form, hcounter, hcause⟩ := beginChunk_error hbegin
  rw [h.layout_eq] at hcounter
  rcases hcause with ⟨rfl, hwide, rfl⟩ | ⟨rfl, -, rfl⟩
  · exact ⟨.counter hcounter hwide, rfl⟩
  · exact ⟨.exhausted hcounter, rfl⟩

/-- So does a chunk that cannot be sealed or sent, as long as the sink has no faults. -/
theorem Booked.broken_seal (h : Booked l sealer codec w)
    (hdata : DataChunks l sealer codec w.codec.record w.codec.state)
    (hperfect : w.sink.Perfect) (hseal : w.sealPending = (.error f, w')) :
    BrokenOff l sealer codec f w'.sink.bytes := by
  suffices hstop : Stops l sealer w.codec.state f ∧ w'.sink = w.sink from
    ⟨_, _, ⟨hdata, h.fits⟩, hstop.1, by rw [hstop.2, h.sink_eq]⟩
  obtain rfl := h.layout_eq
  unfold sealPending at hseal
  rcases hchunk : w.sealer.sealChunk w.codec w.pending with ⟨answer, r⟩
  simp only [hchunk] at hseal
  rw [h.sealer_eq] at hchunk
  cases answer with
  | error g =>
      obtain ⟨hf, rfl⟩ := Prod.mk.inj hseal
      obtain ⟨hsealed, -⟩ := Sealer.recording_error hchunk
      exact ⟨Except.error.inj hf ▸ .sealer hsealed, rfl⟩
  | ok chunk =>
      obtain ⟨hsealed, -⟩ := Sealer.recording_ok hchunk
      obtain ⟨rfl, form, hlength, rfl, hwide⟩ := sendFrame_error (by exact hperfect) hseal
      exact ⟨.length hlength hsealed hwide, rfl⟩

/-! ## Whole calls -/

/-- Rounds that fail stop between two frames.  The induction is on the rounds: one fails
where its chunk is begun or sealed, or leaves a writer that is ready for the rest. -/
theorem Ready.broken_fill (hl : l.check = .ok ()) (hbuffer : l.bufferSize ≠ 0) {k : Nat}
    {data : Bytes} (h : Ready l sealer codec payloads current w) (hperfect : w.sink.Perfect)
    (hfill : fill k w data = (.error f, w')) : BrokenOff l sealer codec f w'.sink.bytes := by
  induction k generalizing w data payloads current with
  | zero => simp [fill] at hfill
  | succ k ih =>
      simp only [fill] at hfill
      by_cases hdata : data = []
      · simp [hdata] at hfill
      · simp only [List.isEmpty_iff, hdata, if_false] at hfill
        rcases andThen_error hfill with hbegin | ⟨w₁, hopen, hround⟩
        · split at hbegin
          · exact h.broken_begin (h.dataChunks hl) hbegin
          · simp at hbegin
        · have hperfect₁ := uniform_open.perfect hperfect hopen
          obtain ⟨hpiece, hstanding, hfull, hfits⟩ := h.round hl hbuffer hdata hopen
          rcases andThen_error hround with hseal | ⟨w₂, hsettle, hnext⟩
          · split at hseal
            · exact hstanding.broken_seal (hstanding.dataChunks fun _ => hfull) hperfect₁ hseal
            · simp at hseal
          · obtain ⟨payloads₂, current₂, hready, -⟩ := hstanding.settle hbuffer
              (by simp [hpiece]) (by rwa [List.length_append]) hfull hsettle
            have hperfect₂ := uniform_settle.perfect
              (w := { w₁ with pending := w₁.pending ++ data.take w₁.room }) hperfect₁ hsettle
            exact ih hready hperfect₂ hnext

/-- Data that cannot be sealed as a chunk of its own leaves the sink as it is. -/
theorem Ready.broken_sealWhole (hl : l.check = .ok ()) (hbuffer : l.bufferSize = 0)
    {data : Bytes} (hdata : data ≠ []) (h : Ready l sealer codec payloads current w)
    (hperfect : w.sink.Perfect) (hseal : w.sealWhole data = (.error f, w')) :
    BrokenOff l sealer codec f w'.sink.bytes := by
  obtain rfl := h.unbuffered hbuffer
  rcases andThen_error hseal with hbegin | ⟨w₁, hbegin, hsealed⟩
  · exact h.broken_begin (h.dataChunks hl) hbegin
  · have hperfect₁ := uniform_beginChunk.perfect hperfect hbegin
    have hstanding := h.toStanding.begin hbegin hdata
    refine hstanding.broken_seal (hstanding.dataChunks fun hlength => ?_) hperfect₁ hsealed
    exact (Layout.bufferSize_ne_zero hl hlength hbuffer).elim

theorem Ready.broken_take (hl : l.check = .ok ()) {data : Bytes} (hdata : data ≠ [])
    (h : Ready l sealer codec payloads current w) (hperfect : w.sink.Perfect)
    (htake : w.take data = (.error f, w')) : BrokenOff l sealer codec f w'.sink.bytes := by
  unfold take at htake
  rw [h.layout_eq] at htake
  split at htake
  · rename_i hbuffer
    exact h.broken_sealWhole hl hbuffer hdata hperfect htake
  · rename_i hbuffer
    exact h.broken_fill hl hbuffer hperfect htake

/-- An end that cannot be written leaves data chunks alone: what is held back is sealed as
one more of them, or not at all. -/
theorem Ready.broken_terminate (hl : l.check = .ok ())
    (h : Ready l sealer codec payloads current w) (hperfect : w.sink.Perfect)
    (hterminate : w.terminate = (.error f, w')) : BrokenOff l sealer codec f w'.sink.bytes := by
  unfold terminate at hterminate
  rw [h.layout_eq] at hterminate
  cases hlength : l.length? with
  | none =>
      -- What is held back is the end, and it has not been sealed.
      simp only [hlength] at hterminate
      exact h.broken_seal (h.dataChunks hl) hperfect hterminate
  | some form =>
      simp only [hlength] at hterminate
      rcases andThen_error hterminate with hclear | ⟨w₁, hclear, hend⟩
      · split at hclear
        · simp at hclear
        · exact h.broken_seal (h.dataChunks hl) hperfect hclear
      · have hperfect₁ := uniform_clear.perfect hperfect hclear
        have hstanding := h.toStanding.clear hclear
        have hdata := hstanding.dataChunks (by simp [hlength])
        obtain rfl := hstanding.layout_eq
        cases hcounter : w₁.layout.counter? with
        | none =>
            -- A bare zero fits every form, and without faults it is sent.
            obtain ⟨v, hsend⟩ := send_perfect hperfect₁ (form.bytes 0)
            simp [hcounter, IntForm.encode_of_lt form.capacity_pos, hsend] at hend
        | some number =>
            simp only [hcounter, IntForm.encode_of_lt number.capacity_pos] at hend
            -- The number zero has been put behind what is held back, which the books do not
            -- mention.
            have hbooked : Booked w₁.layout sealer codec
                { w₁ with pending := w₁.pending ++ number.bytes 0 } :=
              { hstanding.toBooked with }
            exact hbooked.broken_seal hdata hperfect₁ hend

/-- An end that has been written stands behind the data chunks. -/
theorem Ready.ended (hl : l.check = .ok ()) (h : Ready l sealer codec payloads current w)
    (hterminate : w.terminate = (.ok (), w')) :
    ∃ data state rest, SentChunks l sealer codec data state ∧ Ending l sealer state rest ∧
      w'.sink.bytes = l.frames data ++ rest := by
  cases hlength : l.length? with
  | none =>
      -- What is held back never fills a chunk, be it empty or not.
      have hcounter := Layout.counter_eq_none hl hlength
      have hpending : w.pending.length < l.bufferSize :=
        h.room (Layout.bufferSize_ne_zero hl hlength)
      simp only [terminate, h.layout_eq, hlength] at hterminate
      obtain ⟨chunk, r, sink, hseal, rfl, hbytes, -⟩ := sealPending_ok hterminate
      rw [h.sealer_eq] at hseal
      refine ⟨_, _, chunk, ⟨h.dataChunks hl, h.fits⟩,
        .short hlength hpending (Sealer.recording_ok hseal).1, ?_⟩
      rw [hbytes, h.sink_eq, h.layout_eq]
      simp [Layout.frame, hlength]
  | some form =>
      simp only [terminate, h.layout_eq, hlength] at hterminate
      obtain ⟨w₁, hclear, hend⟩ := andThen_ok hterminate
      have hstanding := h.toStanding.clear hclear
      obtain rfl := hstanding.layout_eq
      have hsent : SentChunks w₁.layout sealer codec w₁.codec.record w₁.codec.state :=
        ⟨hstanding.dataChunks (by simp [hlength]), hstanding.fits⟩
      cases hcounter : w₁.layout.counter? with
      | none =>
          simp only [hcounter, IntForm.encode_of_lt form.capacity_pos] at hend
          obtain ⟨sink, rfl, hbytes⟩ := send_ok hend
          exact ⟨_, _, _, hsent, .mark hlength hcounter, by rw [hbytes, hstanding.sink_eq]⟩
      | some number =>
          simp only [hcounter, IntForm.encode_of_lt number.capacity_pos,
            hstanding.none_held rfl, List.nil_append] at hend
          obtain ⟨chunk, r, sink, hseal, rfl, hbytes, -⟩ := sealPending_ok hend
          dsimp only at hseal hbytes
          rw [hstanding.sealer_eq] at hseal
          refine ⟨_, _, _, hsent, .zero hcounter (Sealer.recording_ok hseal).1, ?_⟩
          rw [hbytes, hstanding.sink_eq]

/-! ## The course -/

/-- A step that succeeds leaves the phase of the writer to the call. -/
theorem phase_fill {k : Nat} {w w' : Writer σ} {data : Bytes}
    (h : fill k w data = (.ok (), w')) : w'.phase = w.phase := by
  induction k generalizing w data with
  | zero => rw [(Prod.mk.inj h).2]
  | succ k ih =>
      simp only [fill] at h
      split at h
      · rw [(Prod.mk.inj h).2]
      · obtain ⟨w₁, hopen, hround⟩ := andThen_ok h
        obtain ⟨w₂, hsettle, hnext⟩ := andThen_ok hround
        have hopened : w₁.phase = w.phase := by
          split at hopen
          · obtain ⟨next, rfl, -⟩ := beginChunk_ok hopen
            rfl
          · rw [(Prod.mk.inj hopen).2]
        have hsettled : w₂.phase = w₁.phase := by
          split at hsettle
          · obtain ⟨chunk, codec, sink, -, rfl, -⟩ := sealPending_ok hsettle
            rfl
          · rw [← (Prod.mk.inj hsettle).2]
        exact (ih hnext).trans (hsettled.trans hopened)

theorem phase_take {w w' : Writer σ} {data : Bytes} (h : w.take data = (.ok (), w')) :
    w'.phase = w.phase := by
  unfold take at h
  split at h
  · obtain ⟨w₁, hbegin, hseal⟩ := andThen_ok h
    obtain ⟨next, rfl, -⟩ := beginChunk_ok hbegin
    obtain ⟨chunk, codec, sink, -, rfl, -⟩ := sealPending_ok hseal
    rfl
  · exact phase_fill h

theorem phase_write {w w' : Writer σ} {data : Bytes} {n : Nat} (hphase : w.phase = .writing)
    (h : w.write data = (.ok n, w')) : w'.phase = .writing := by
  by_cases hdata : data = []
  · rw [hdata, write_nil hphase] at h
    obtain rfl := (Prod.mk.inj h).2
    exact hphase
  · rw [write_eq hphase hdata] at h
    rcases htake : w.take data with ⟨answer, v⟩
    rw [htake] at h
    cases answer with
    | error f => simp [Except.map] at h
    | ok u =>
        obtain rfl := (Prod.mk.inj h).2
        exact (phase_take htake).trans hphase

/-- Where a writer on a sink without faults stands, whatever has been asked of it: it is
ready for more, it has failed between two frames, or it has ended the stream. -/
inductive Course (l : Layout) (sealer : Sealer σ) (codec : σ) (w : Writer (Recorded σ)) : Prop
  | writing {payloads : List Bytes} {current : Bytes} :
      w.phase = .writing → Ready l sealer codec payloads current w → Course l sealer codec w
  | failed {f : Failure} :
      w.phase = .failed f → BrokenOff l sealer codec f w.sink.bytes → Course l sealer codec w
  | closed {data : List Sealing} {state : σ} {rest : Bytes} :
      w.phase = .closed → SentChunks l sealer codec data state → Ending l sealer state rest →
      w.sink.bytes = l.frames data ++ rest → Course l sealer codec w

theorem Course.write (hl : l.check = .ok ()) (h : Course l sealer codec w)
    (hperfect : w.sink.Perfect) (data : Bytes) : Course l sealer codec (w.write data).2 := by
  cases h with
  | failed hphase hbroken =>
      rw [(refuses_of_failed hphase).write]
      exact .failed hphase hbroken
  | closed hphase hchunks hend hbytes =>
      rw [(shut_of_closed hphase).write]
      exact .closed hphase hchunks hend hbytes
  | writing hphase hready =>
      by_cases hdata : data = []
      · rw [hdata, write_nil hphase]
        exact .writing hphase hready
      · have hwrite := write_eq hphase hdata
        rcases htake : w.take data with ⟨answer, w'⟩
        rw [htake] at hwrite
        rw [hwrite]
        cases answer with
        | ok u =>
            obtain ⟨payloads', current', hready', -⟩ := write_ready hl hready hwrite
            exact .writing (phase_write hphase hwrite) hready'
        | error f =>
            have hbroken := hready.broken_take hl hdata hperfect htake
            exact .failed rfl hbroken

theorem Course.close (hl : l.check = .ok ()) (h : Course l sealer codec w)
    (hperfect : w.sink.Perfect) : Course l sealer codec w.close.2 := by
  cases h with
  | failed hphase hbroken =>
      rw [(refuses_of_failed hphase).close]
      exact .failed hphase hbroken
  | closed hphase hchunks hend hbytes =>
      rw [(shut_of_closed hphase).close]
      exact .closed hphase hchunks hend hbytes
  | writing hphase hready =>
      have hclose := close_eq hphase
      rcases hfinish : w.finish with ⟨answer, w'⟩
      rw [hfinish] at hclose
      rw [hclose]
      cases answer with
      | ok u =>
          obtain ⟨w₁, hterminate, -, hbytes⟩ := close_ok hclose
          obtain ⟨data, state, rest, hchunks, hend, hended⟩ := hready.ended hl hterminate
          exact .closed rfl hchunks hend (hbytes.trans hended)
      | error f =>
          rcases andThen_error hfinish with hterminate | ⟨w₁, hterminate, hflush⟩
          · have hbroken := hready.broken_terminate hl hperfect hterminate
            exact .failed rfl hbroken
          · -- The flush of a sink without faults does not fail.
            have hok := (uniform_terminate.perfect hperfect hterminate).flush.1
            unfold flushSink at hflush
            rcases hsink : w₁.sink.flush with ⟨answer, sink⟩
            rw [hsink] at hok
            obtain rfl : answer = .ok () := hok
            simp [hsink] at hflush

theorem Course.flush (h : Course l sealer codec w) : Course l sealer codec w.flush.2 := by
  obtain ⟨sink, hw, hbytes⟩ := w.flush_snd
  cases h with
  | writing hphase hready => exact .writing (by rw [hw, hphase]) hready.flush
  | failed hphase hbroken =>
      rw [(refuses_of_failed hphase).flush]
      exact .failed hphase hbroken
  | closed hphase hchunks hend hended =>
      rw [hw]
      exact .closed hphase hchunks hend (hbytes.trans hended)

/-- Each call keeps the course. -/
theorem Course.serve (hl : l.check = .ok ()) (h : Course l sealer codec w)
    (hperfect : w.sink.Perfect) (request : Request) :
    Course l sealer codec (w.serve request) := by
  cases request with
  | write data => exact h.write hl hperfect data
  | writeSome data =>
      rw [Writer.serve, writeSome_snd]
      exact h.write hl hperfect data
  | flush => exact h.flush
  | close => exact h.close hl hperfect

theorem serve_perfect {w : Writer σ} (h : w.sink.Perfect) (request : Request) :
    (w.serve request).sink.Perfect :=
  serve_keeps (fun _ bs hs => (hs.writeAll bs).2.1) (fun _ hs => hs.flush.2) h request

/-- So does a run of calls. -/
theorem Course.serveAll (hl : l.check = .ok ()) (h : Course l sealer codec w)
    (hperfect : w.sink.Perfect) (requests : List Request) :
    Course l sealer codec (w.serveAll requests) := by
  induction requests generalizing w with
  | nil => exact h
  | cons request requests ih =>
      exact ih (h.serve hl hperfect request) (serve_perfect hperfect request)

theorem Course.halted (h : Course l sealer codec w) (hphase : w.phase = .failed f) :
    Halted l sealer codec f w.sink.bytes := by
  cases h with
  | writing hwriting => simp [hphase] at hwriting
  | closed hclosed => simp [hphase] at hclosed
  | failed hfailed hbroken =>
      rw [hphase] at hfailed
      rw [Phase.failed.inj hfailed]
      exact hbroken.halted

/-- What stands in the sink: data chunks, and one end behind them at the most. -/
theorem Course.bytes_eq (hl : l.check = .ok ()) (h : Course l sealer codec w) :
    ∃ data state rest, SentChunks l sealer codec data state ∧
      (rest = [] ∨ Ending l sealer state rest) ∧ w.sink.bytes = l.frames data ++ rest ∧
      (w.phase = .closed → Ending l sealer state rest) := by
  cases h with
  | writing hphase hready =>
      exact ⟨_, _, [], ⟨hready.dataChunks hl, hready.fits⟩, .inl rfl, by simp [hready.sink_eq],
        by simp [hphase]⟩
  | failed hphase hbroken =>
      obtain ⟨data, state, hsent, -, hbytes⟩ := hbroken
      exact ⟨data, state, [], hsent, .inl rfl, by simp [hbytes], by simp [hphase]⟩
  | closed hphase hsent hend hbytes => exact ⟨_, _, _, hsent, .inr hend, hbytes, fun _ => hend⟩

/-! ## Without the record -/

section Mirrored

variable {w : Writer σ} {v : Writer (Recorded σ)} {s : Sink}

theorem Mirrors.serve (h : Mirrors w v) (request : Request) :
    Mirrors (w.serve request) (v.serve request) := by
  cases request with
  | write data => exact (h.write data).2
  | writeSome data => simpa only [Writer.serve, writeSome_snd] using (h.write data).2
  | flush => exact h.flush
  | close => exact h.close.2

theorem Mirrors.serveAll (h : Mirrors w v) (requests : List Request) :
    Mirrors (w.serveAll requests) (v.serveAll requests) := by
  induction requests generalizing w v with
  | nil => exact h
  | cons request requests ih => exact ih (h.serve request)

/-- The course of a writer onto a sink without faults, seen without the record. -/
theorem start_course (hsink : s.bytes = []) (hperfect : s.Perfect)
    (h : start s sealer codec l = .ok w) (requests : List Request) :
    ∃ v : Writer (Recorded σ), Mirrors (w.serveAll requests) v ∧ Course l sealer codec v := by
  obtain ⟨hl, rfl⟩ := start_ok h
  obtain ⟨v, hstart, hmirrors⟩ := start_mirrors h
  refine ⟨_, hmirrors.serveAll requests, ?_⟩
  have hv : v.sink.Perfect ∧ v.phase = .writing := by
    obtain ⟨log, rfl⟩ := hmirrors
    exact ⟨hperfect, rfl⟩
  exact Course.serveAll hl (.writing hv.2 (start_ready hsink hstart)) hv.1 requests

end Mirrored

end Writer

end SealedStream
