import SealedStream.Proofs.Frames
import SealedStream.Writer

/-!
# What a writer has put out

Between two calls a writer has sealed some whole chunks, each the number of a
payload with the payload behind it, and holds back the beginning of one more
chunk or nothing.  `Writer.Standing` says this about a writer whose sealer
keeps a record: the record lists the sealed chunks, the sink holds their frames
and nothing else, and the payloads with what is held back are the plaintext
taken in so far.

Each step of a writer is described once, under the assumption that it succeeds,
and a successful write then keeps the standing.
-/

namespace SealedStream

namespace Sink

@[simp] theorem bytes_perfect : perfect.bytes = [] := rfl

/-- Bytes that have all been accepted stand behind the earlier ones. -/
theorem bytes_deliver {s s' : Sink} {replies : List Reply} {bs : Bytes}
    (h : s.deliver replies bs = (.ok (), s')) : s'.bytes = s.bytes ++ bs := by
  induction replies generalizing s bs with
  | nil =>
      cases bs with
      | nil =>
          obtain rfl := (Prod.mk.inj h).2
          simp [bytes]
      | cons b bs =>
          obtain rfl := (Prod.mk.inj h).2
          simp [bytes, push]
  | cons reply replies ih =>
      cases bs with
      | nil =>
          obtain rfl := (Prod.mk.inj h).2
          simp [bytes]
      | cons b bs =>
          cases reply with
          | accept limit =>
              simp only [deliver] at h
              split at h
              · simp at h
              · rw [ih h, bytes_push, List.append_assoc, List.take_append_drop]
                rfl
          | failure e =>
              simp only [deliver] at h
              split at h
              · simpa [bytes] using ih h
              · simp at h

theorem bytes_writeAll {s s' : Sink} {bs : Bytes}
    (h : s.writeAll bs = (.ok (), s')) : s'.bytes = s.bytes ++ bs :=
  bytes_deliver h

theorem bytes_flush (s : Sink) : s.flush.2.bytes = s.bytes := by
  unfold flush
  cases s.flushes with
  | nil => rfl
  | cons reply replies => cases reply <;> rfl

end Sink

namespace Writer

variable {σ : Type}

/-! ## Single steps -/

theorem andThen_ok {r : Outcome σ} {next : Writer σ → Outcome σ} {w' : Writer σ}
    (h : r.andThen next = (.ok (), w')) :
    ∃ w, r = (.ok (), w) ∧ next w = (.ok (), w') := by
  obtain ⟨answer, w⟩ := r
  cases answer with
  | error f => simp [Outcome.andThen] at h
  | ok u => exact ⟨w, rfl, h⟩

/-- Beginning a chunk puts its number into it. -/
theorem beginChunk_ok {w w' : Writer σ} (h : w.beginChunk = (.ok (), w')) :
    ∃ next : Nat,
      w' = { w with
        pending := w.pending ++ w.layout.number w.nextCounter
        nextCounter := next } ∧
      ∀ form, w.layout.counter? = some form →
        next = w.nextCounter + 1 ∧ w.nextCounter < form.capacity := by
  unfold beginChunk at h
  cases hcounter : w.layout.counter? with
  | none =>
      simp only [hcounter, Prod.mk.injEq, true_and] at h
      subst h
      exact ⟨w.nextCounter, by simp [Layout.number, hcounter], by simp⟩
  | some form =>
      simp only [hcounter] at h
      cases hencode : form.encode w.nextCounter with
      | error f => simp [hencode] at h
      | ok bs =>
          obtain ⟨hlt, rfl⟩ := IntForm.encode_eq_ok_iff.1 hencode
          simp only [hencode] at h
          split at h
          · obtain rfl := (Prod.mk.inj h).2
            refine ⟨w.nextCounter + 1, by simp [Layout.number, hcounter], ?_⟩
            intro form' hform
            obtain rfl := Option.some.inj hform
            exact ⟨rfl, hlt⟩
          · simp at h

theorem send_ok {w w' : Writer σ} {bs : Bytes} (h : w.send bs = (.ok (), w')) :
    ∃ sink : Sink, w' = { w with sink := sink } ∧
      sink.bytes = w.sink.bytes ++ bs := by
  unfold send at h
  cases hwrite : w.sink.writeAll bs with
  | mk answer sink =>
      cases answer with
      | error e => simp [hwrite] at h
      | ok u =>
          simp only [hwrite, Prod.mk.injEq, true_and] at h
          exact ⟨sink, h.symm, Sink.bytes_writeAll hwrite⟩

/-- A sealed chunk that has been sent stands in the sink as a frame, and its
length fits the form of the lengths. -/
theorem sendFrame_ok {w w' : Writer σ} {chunk : Bytes}
    (h : w.sendFrame chunk = (.ok (), w')) :
    ∃ sink : Sink, w' = { w with sink := sink } ∧
      sink.bytes = w.sink.bytes ++ w.layout.frame chunk ∧
      ∀ form, w.layout.length? = some form → chunk.length < form.capacity := by
  unfold sendFrame at h
  cases hlength : w.layout.length? with
  | none =>
      simp only [hlength] at h
      obtain ⟨sink, rfl, hbytes⟩ := send_ok h
      exact ⟨sink, rfl, by simpa [Layout.frame, hlength] using hbytes, by simp⟩
  | some form =>
      simp only [hlength] at h
      cases hencode : form.encode chunk.length with
      | error f => simp [hencode] at h
      | ok bs =>
          obtain ⟨hlt, rfl⟩ := IntForm.encode_eq_ok_iff.1 hencode
          simp only [hencode] at h
          obtain ⟨w₁, hhead, hbody⟩ := andThen_ok h
          obtain ⟨sink₁, rfl, hbytes₁⟩ := send_ok hhead
          obtain ⟨sink, rfl, hbytes⟩ := send_ok hbody
          refine ⟨sink, rfl, ?_, ?_⟩
          · rw [hbytes, hbytes₁, List.append_assoc]
            simp [Layout.frame, hlength]
          · intro form' hform
            obtain rfl := Option.some.inj hform
            exact hlt

/-- Sealing what has been put together empties it and sends its frame. -/
theorem sealPending_ok {w w' : Writer σ} (h : w.sealPending = (.ok (), w')) :
    ∃ (chunk : Bytes) (codec : σ) (sink : Sink),
      w.sealer.sealChunk w.codec w.pending = (.ok chunk, codec) ∧
      w' = { w with codec := codec, sink := sink, pending := [] } ∧
      sink.bytes = w.sink.bytes ++ w.layout.frame chunk ∧
      ∀ form, w.layout.length? = some form → chunk.length < form.capacity := by
  unfold sealPending at h
  cases hseal : w.sealer.sealChunk w.codec w.pending with
  | mk answer codec =>
      cases answer with
      | error f => simp [hseal] at h
      | ok chunk =>
          simp only [hseal] at h
          obtain ⟨sink, rfl, hbytes, hfits⟩ := sendFrame_ok h
          exact ⟨chunk, codec, sink, rfl, rfl, hbytes, hfits⟩

/-! ## Standing between two steps -/

/-- A writer whose record and whose sink agree: the record lists the chunks that
the sealer has sealed, and the sink holds their frames. -/
structure Booked (l : Layout) (sealer : Sealer σ) (codec : σ)
    (w : Writer (Recorded σ)) : Prop where
  layout_eq : w.layout = l
  sealer_eq : w.sealer = sealer.recording
  seals : sealer.Seals codec w.codec.record w.codec.state
  sink_eq : w.sink.bytes = l.frames w.codec.record
  fits : ∀ form, l.length? = some form →
    ∀ c ∈ w.codec.record, c.chunk.length < form.capacity

/-- A writer that has sealed the payloads as whole chunks and holds back
`current`, the payload of a chunk that has been begun; nothing is held back if
it is empty. -/
structure Standing (l : Layout) (sealer : Sealer σ) (codec : σ)
    (payloads : List Bytes) (current : Bytes) (w : Writer (Recorded σ)) : Prop
    extends Booked l sealer codec w where
  texts : w.codec.record.map Sealing.text = l.numbered 1 payloads
  payload_ne : ∀ payload ∈ payloads, payload ≠ []
  none_held : current = [] → w.pending = []
  some_held : current ≠ [] →
    w.pending = l.number (payloads.length + 1) ++ current
  counts : ∀ form, l.counter? = some form →
    payloads.length + (if current = [] then 0 else 1) < form.capacity ∧
      w.nextCounter = payloads.length + (if current = [] then 0 else 1) + 1

section Standing

variable {l : Layout} {sealer : Sealer σ} {codec : σ} {payloads : List Bytes}
  {current : Bytes} {w w' : Writer (Recorded σ)}

/-- A chunk is begun with its number and a first piece of payload. -/
theorem Standing.begin (h : Standing l sealer codec payloads [] w)
    (hbegin : w.beginChunk = (.ok (), w')) {data : Bytes} (hdata : data ≠ []) :
    Standing l sealer codec payloads data
      { w' with pending := w'.pending ++ data } := by
  obtain ⟨next, rfl, hnext⟩ := beginChunk_ok hbegin
  obtain rfl := h.layout_eq
  refine { h with
    none_held := fun hnil => (hdata hnil).elim
    some_held := fun _ => ?_
    counts := ?_ }
  · simp only [h.none_held rfl, List.nil_append]
    cases hcounter : w.layout.counter? with
    | none => simp [Layout.number, hcounter]
    | some form => simp [(h.counts form hcounter).2]
  · intro form hcounter
    obtain ⟨-, hcount⟩ := h.counts form hcounter
    obtain ⟨hstep, hlt⟩ := hnext form hcounter
    rw [if_pos rfl] at hcount
    simp only [hdata, if_false]
    omega

/-- More payload is added to a chunk that has been begun. -/
theorem Standing.extend (h : Standing l sealer codec payloads current w)
    (hcurrent : current ≠ []) (data : Bytes) :
    Standing l sealer codec payloads (current ++ data)
      { w with pending := w.pending ++ data } := by
  have hne : current ++ data ≠ [] := by simp [hcurrent]
  refine { h with
    none_held := fun hnil => (hne hnil).elim
    some_held := fun _ => ?_
    counts := ?_ }
  · simp only [h.some_held hcurrent, List.append_assoc]
  · intro form hcounter
    simpa [hcurrent, hne] using h.counts form hcounter

/-- Sealing a chunk adds one entry to the record and its frame to the sink. -/
theorem Booked.seal (h : Booked l sealer codec w)
    (hseal : w.sealPending = (.ok (), w')) :
    Booked l sealer codec w' ∧ w'.pending = [] ∧ w'.nextCounter = w.nextCounter ∧
      ∃ chunk, w'.codec.record = w.codec.record ++ [⟨w.pending, chunk⟩] := by
  obtain ⟨chunk, r, sink, hchunk, rfl, hsink, hfits⟩ := sealPending_ok hseal
  rw [h.sealer_eq] at hchunk
  obtain ⟨hstate, hrecord⟩ := Sealer.recording_ok hchunk
  obtain rfl := h.layout_eq
  refine ⟨{ h with seals := ?_, sink_eq := ?_, fits := ?_ }, rfl, rfl, chunk, hrecord⟩
  · rw [hrecord]
    exact h.seals.concat hstate
  · rw [hrecord, hsink, h.sink_eq]
    simp
  · intro form hform c hc
    rw [hrecord] at hc
    rcases List.mem_append.1 hc with hold | hnew
    · exact h.fits form hform c hold
    · obtain rfl := List.mem_singleton.1 hnew
      exact hfits form hform

/-- The chunk that has been put together is sealed. -/
theorem Standing.seal (h : Standing l sealer codec payloads current w)
    (hcurrent : current ≠ []) (hseal : w.sealPending = (.ok (), w')) :
    Standing l sealer codec (payloads ++ [current]) [] w' ∧
      ∃ chunk, w'.codec.record = w.codec.record ++ [⟨w.pending, chunk⟩] := by
  obtain ⟨hbooked, hpending, hnext, chunk, hrecord⟩ := h.toBooked.seal hseal
  refine ⟨?_, chunk, hrecord⟩
  refine { hbooked with
    texts := ?_
    payload_ne := ?_
    none_held := fun _ => hpending
    some_held := fun hne => (hne rfl).elim
    counts := ?_ }
  · rw [hrecord, List.map_append, h.texts, Layout.numbered_concat]
    simp [h.some_held hcurrent, Nat.add_comm]
  · intro payload hmem
    rcases List.mem_append.1 hmem with hold | hnew
    · exact h.payload_ne payload hold
    · obtain rfl := List.mem_singleton.1 hnew
      exact hcurrent
  · intro form hcounter
    simpa [hcurrent, hnext] using h.counts form hcounter

/-- What is held back is sealed, if anything is. -/
theorem Standing.clear (h : Standing l sealer codec payloads current w)
    (hclear : (if w.pending.isEmpty then (.ok (), w) else w.sealPending) =
      (.ok (), w')) :
    Standing l sealer codec (Layout.withRest payloads current) [] w' := by
  by_cases hcurrent : current = []
  · subst hcurrent
    simp only [h.none_held rfl, List.isEmpty_nil, if_true, Prod.mk.injEq,
      true_and] at hclear
    subst hclear
    simpa [Layout.withRest] using h
  · have hpending : w.pending ≠ [] := by
      rw [h.some_held hcurrent]
      simp [hcurrent]
    simp only [List.isEmpty_iff, hpending, if_false] at hclear
    obtain ⟨hnext, -⟩ := h.seal hcurrent hclear
    simpa [Layout.withRest, hcurrent] using hnext

/-- A writer between two calls: of a buffered stream only full chunks have been
sealed and the one held back is not full; an unbuffered stream holds nothing
back. -/
structure Ready (l : Layout) (sealer : Sealer σ) (codec : σ)
    (payloads : List Bytes) (current : Bytes) (w : Writer (Recorded σ)) : Prop
    extends Standing l sealer codec payloads current w where
  room : l.bufferSize ≠ 0 → w.pending.length < l.bufferSize
  full : l.bufferSize ≠ 0 → ∀ c ∈ w.codec.record, c.text.length = l.bufferSize
  unbuffered : l.bufferSize = 0 → current = []

/-- A chunk that is being put together in a sound layout is begun, if need be,
and still has room for payload. -/
theorem Standing.open (hl : l.check = .ok ()) (hbuffer : l.bufferSize ≠ 0)
    (h : Ready l sealer codec payloads current w)
    (hopen : (if w.pending.isEmpty then w.beginChunk else (.ok (), w)) =
      (.ok (), w')) :
    w'.layout = l ∧ w'.codec = w.codec ∧ w'.pending.length < l.bufferSize ∧
      ∀ data, data ≠ [] → Standing l sealer codec payloads (current ++ data)
        { w' with pending := w'.pending ++ data } := by
  by_cases hcurrent : current = []
  · subst hcurrent
    have hpending : w.pending = [] := h.none_held rfl
    simp only [hpending, List.isEmpty_nil, if_true] at hopen
    obtain ⟨next, hw', -⟩ := beginChunk_ok hopen
    refine ⟨by rw [hw', h.layout_eq], by rw [hw'], ?_, ?_⟩
    · rw [hw', hpending, List.nil_append, h.layout_eq]
      exact Layout.length_number_lt hl hbuffer _
    · intro data hdata
      exact h.toStanding.begin hopen hdata
  · have hpending : w.pending ≠ [] := by
      rw [h.some_held hcurrent]
      simp [hcurrent]
    simp only [List.isEmpty_iff, hpending, if_false, Prod.mk.injEq, true_and] at hopen
    subst hopen
    exact ⟨h.layout_eq, rfl, h.room hbuffer,
      fun data _ => h.toStanding.extend hcurrent data⟩

/-- A chunk that has become full is sealed; one that has not is held back. -/
theorem Standing.settle (hbuffer : l.bufferSize ≠ 0)
    (h : Standing l sealer codec payloads current w) (hcurrent : current ≠ [])
    (hlength : w.pending.length ≤ l.bufferSize)
    (hfull : ∀ c ∈ w.codec.record, c.text.length = l.bufferSize)
    (hsettle : (if w.room = 0 then w.sealPending else (.ok (), w)) = (.ok (), w')) :
    ∃ (payloads' : List Bytes) (current' : Bytes),
      Ready l sealer codec payloads' current' w' ∧
        payloads'.flatten ++ current' = payloads.flatten ++ current := by
  have hroom : w.room = l.bufferSize - w.pending.length := by
    rw [Writer.room, h.layout_eq]
  split at hsettle
  · obtain ⟨hnext, chunk, hrecord⟩ := h.seal hcurrent hsettle
    refine ⟨payloads ++ [current], [], ?_, by simp⟩
    refine { hnext with room := ?_, full := ?_, unbuffered := fun _ => rfl }
    · intro _
      rw [hnext.none_held rfl, List.length_nil]
      omega
    · intro _ c hc
      rw [hrecord] at hc
      rcases List.mem_append.1 hc with hold | hnew
      · exact hfull c hold
      · obtain rfl := List.mem_singleton.1 hnew
        show w.pending.length = l.bufferSize
        omega
  · obtain rfl := (Prod.mk.inj hsettle).2
    refine ⟨payloads, current, ?_, rfl⟩
    exact { h with
      room := fun _ => by omega
      full := fun _ => hfull
      unbuffered := fun hzero => (hbuffer hzero).elim }

/-- A round takes in a piece that is not empty, and leaves a writer that is ready for the
rest of the data. -/
theorem Ready.round (hl : l.check = .ok ()) (hbuffer : l.bufferSize ≠ 0) {data : Bytes}
    (hdata : data ≠ []) (h : Ready l sealer codec payloads current w)
    (hopen : (if w.pending = [] then w.beginChunk else (.ok (), w)) = (.ok (), w')) :
    data.take w'.room ≠ [] ∧
      Standing l sealer codec payloads (current ++ data.take w'.room)
        { w' with pending := w'.pending ++ data.take w'.room } ∧
      (∀ c ∈ w'.codec.record, c.text.length = l.bufferSize) ∧
      w'.pending.length + (data.take w'.room).length ≤ l.bufferSize := by
  obtain ⟨hlayout, hcodec, hroom, hstanding⟩ := Standing.open hl hbuffer h
    (by simpa only [List.isEmpty_iff] using hopen)
  have hroom' : w'.room = l.bufferSize - w'.pending.length := by
    rw [Writer.room, hlayout]
  -- The number leaves room for payload, so the piece is not empty.
  have hpiece : data.take w'.room ≠ [] := by
    intro hnil
    rcases List.take_eq_nil_iff.1 hnil with hzero | hnil
    · omega
    · exact hdata hnil
  refine ⟨hpiece, hstanding _ hpiece, by simpa only [hcodec] using h.full hbuffer, ?_⟩
  rw [List.length_take]
  omega

/-- Filling chunks takes all of the data in.  The induction is on the rounds;
each takes at least one byte, so there are enough of them. -/
theorem fill_ready (hl : l.check = .ok ()) (hbuffer : l.bufferSize ≠ 0)
    {k : Nat} {data : Bytes} (h : Ready l sealer codec payloads current w)
    (hk : data.length ≤ k) (hfill : fill k w data = (.ok (), w')) :
    ∃ (payloads' : List Bytes) (current' : Bytes),
      Ready l sealer codec payloads' current' w' ∧
        payloads'.flatten ++ current' = payloads.flatten ++ current ++ data := by
  induction k generalizing w data payloads current with
  | zero =>
      obtain rfl := List.eq_nil_of_length_eq_zero (Nat.le_zero.1 hk)
      obtain rfl := (Prod.mk.inj hfill).2
      exact ⟨payloads, current, h, by simp⟩
  | succ k ih =>
      simp only [fill] at hfill
      by_cases hdata : data = []
      · subst hdata
        obtain rfl := (Prod.mk.inj hfill).2
        exact ⟨payloads, current, h, by simp⟩
      · simp only [List.isEmpty_iff, hdata, if_false] at hfill
        -- A round opens a chunk if need be, takes what fits, and settles.
        obtain ⟨w₁, hopen, hround⟩ := andThen_ok hfill
        obtain ⟨hpiece, hstanding, hfull, hfits⟩ := h.round hl hbuffer hdata hopen
        have hshorter : (data.drop w₁.room).length ≤ k := by
          have := List.length_pos_iff.2 hpiece
          rw [List.length_take] at this
          rw [List.length_drop]
          omega
        obtain ⟨w₂, hsettle, hnext⟩ := andThen_ok hround
        obtain ⟨payloads₂, current₂, hready, hsofar⟩ :=
          hstanding.settle hbuffer (by simp [hpiece])
            (by rwa [List.length_append]) hfull hsettle
        obtain ⟨payloads', current', hready', htaken⟩ := ih hready hshorter hnext
        refine ⟨payloads', current', hready', ?_⟩
        rw [htaken, hsofar, List.append_assoc, List.append_assoc current,
          List.take_append_drop, ← List.append_assoc]

/-- Sealing data as a chunk of its own takes all of it in. -/
theorem sealWhole_ready (hbuffer : l.bufferSize = 0) {data : Bytes}
    (hdata : data ≠ []) (h : Ready l sealer codec payloads current w)
    (hseal : w.sealWhole data = (.ok (), w')) :
    Ready l sealer codec (payloads ++ [data]) [] w' := by
  obtain rfl := h.unbuffered hbuffer
  obtain ⟨w₁, hbegin, hsealed⟩ := andThen_ok hseal
  have hstanding := h.toStanding.begin hbegin hdata
  obtain ⟨hnext, -⟩ := hstanding.seal hdata hsealed
  exact { hnext with
    room := fun hne => (hne hbuffer).elim
    full := fun hne => (hne hbuffer).elim
    unbuffered := fun _ => rfl }

/-- A successful write takes all of its data in; where nothing is buffered, data
that is not empty becomes one payload. -/
theorem write_ready (hl : l.check = .ok ())
    (h : Ready l sealer codec payloads current w) {data : Bytes} {n : Nat}
    (hwrite : w.write data = (.ok n, w')) :
    ∃ (payloads' : List Bytes) (current' : Bytes),
      Ready l sealer codec payloads' current' w' ∧
        payloads'.flatten ++ current' = payloads.flatten ++ current ++ data ∧
        (l.bufferSize = 0 → payloads' = Layout.withRest payloads data) := by
  unfold write at hwrite
  cases hphase : w.phase with
  | closed => simp [hphase] at hwrite
  | failed f => simp [hphase] at hwrite
  | writing =>
      simp only [hphase, List.isEmpty_iff] at hwrite
      by_cases hdata : data = []
      · simp only [hdata, if_true, Prod.mk.injEq] at hwrite
        obtain ⟨-, rfl⟩ := hwrite
        exact ⟨payloads, current, h, by simp [hdata], by simp [Layout.withRest, hdata]⟩
      · simp only [hdata, if_false, h.layout_eq] at hwrite
        split at hwrite
        · rename_i w₁ hstep
          obtain rfl := (Prod.mk.inj hwrite).2
          split at hstep
          · rename_i hbuffer
            refine ⟨payloads ++ [data], [], sealWhole_ready hbuffer hdata h hstep, ?_, ?_⟩
            · simp [h.unbuffered hbuffer]
            · simp [Layout.withRest, hdata]
          · rename_i hbuffer
            obtain ⟨payloads', current', hready, htaken⟩ := fill_ready hl hbuffer h le_rfl hstep
            exact ⟨payloads', current', hready, htaken, fun hzero => (hbuffer hzero).elim⟩
        · simp at hwrite

/-- Take all of the writes, one after the other, if none of them fails. -/
def takeAll : Writer σ → List Bytes → Option (Writer σ)
  | w, [] => some w
  | w, data :: rest =>
      match w.write data with
      | (.ok _, w') => takeAll w' rest
      | (.error _, _) => none

end Standing

/-! ## Completed runs -/

/-- A writer that is started, takes all of the writes and is closed, without
any failure, ends up as `final`. -/
def Completes (sealer : Sealer σ) (codec : σ) (l : Layout) (sink : Sink)
    (writes : List Bytes) (final : Writer σ) : Prop :=
  ∃ w w' : Writer σ, start sink sealer codec l = .ok w ∧
    w.takeAll writes = some w' ∧ w'.close = (.ok (), final)

/-- The length of a full chunk passes if it fits the form of the lengths, or if none is
written in front of a full chunk. -/
theorem checkLength_eq_ok_iff {l : Layout} {capacity : Nat} :
    checkLength l capacity = .ok () ↔
      ∀ form, l.length? = some form → l.bufferSize ≠ 0 → form.width? capacity ≠ none := by
  unfold checkLength
  cases hlength : l.length? with
  | none => simp
  | some form =>
      dsimp only
      split
      · rename_i hwide
        simp [hwide.1, hwide.2]
      · rename_i hwide
        simpa using not_and.1 hwide

/-- A writer is started in a sound layout, if a full sealed chunk is not too long for the
form of the lengths and there is room for it; it has nothing yet. -/
theorem start_eq_ok_iff {sealer : Sealer σ} {codec : σ} {l : Layout} {sink : Sink}
    {w : Writer σ} :
    start sink sealer codec l = .ok w ↔
      l.check = .ok () ∧ checkLength l (l.fullSize sealer.overhead) = .ok () ∧
        l.Allocatable sealer.overhead ∧ w = ⟨l, sealer, codec, sink, [], 1, .writing⟩ := by
  unfold start
  cases l.check with
  | error f => simp
  | ok u =>
      cases checkLength l (l.fullSize sealer.overhead) with
      | error f => simp
      | ok u =>
          by_cases hroom : l.Allocatable sealer.overhead
          · simp [hroom, eq_comm]
          · simp [hroom]

theorem start_ok {sealer : Sealer σ} {codec : σ} {l : Layout} {sink : Sink}
    {w : Writer σ} (h : start sink sealer codec l = .ok w) :
    l.check = .ok () ∧ w = ⟨l, sealer, codec, sink, [], 1, .writing⟩ := by
  obtain ⟨hcheck, -, -, hw⟩ := start_eq_ok_iff.1 h
  exact ⟨hcheck, hw⟩

theorem start_allocatable {sealer : Sealer σ} {codec : σ} {l : Layout} {sink : Sink}
    {w : Writer σ} (h : start sink sealer codec l = .ok w) : l.Allocatable sealer.overhead :=
  (start_eq_ok_iff.1 h).2.2.1

/-- Starting does not look at the sink. -/
theorem start_onto {sealer : Sealer σ} {codec : σ} {l : Layout} {sink : Sink}
    {w : Writer σ} (h : start sink sealer codec l = .ok w) (sink' : Sink) :
    start sink' sealer codec l = .ok { w with sink := sink' } := by
  obtain ⟨hcheck, hwide, hroom, rfl⟩ := start_eq_ok_iff.1 h
  exact start_eq_ok_iff.2 ⟨hcheck, hwide, hroom, rfl⟩

end Writer

end SealedStream
