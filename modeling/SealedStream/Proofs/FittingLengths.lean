import SealedStream.Proofs.Course
import SealedStream.Proofs.Rounds

/-!
# Lengths that fit

A writer is only started if the length of a full sealed chunk fits its form.  That is
enough: no text that is sealed is longer than the buffer, its number included, so that no
sealed chunk is longer than a full one, be it the last of the data or the end of the
stream.  The length of a chunk is then never a reason to fail.

`Writer.Bounded` says it of a writer that goes on, and `Writer.Excused` of one that has
failed, together with what it has failed for: its sealer, its sink or its counter.  The
record is what names the texts that have been sealed.
-/

namespace SealedStream

variable {σ : Type}

/-- Whatever has been sealed from this state on is longer than its text by the
overhead. -/
def Sealer.Grows (sealer : Sealer σ) (codec : σ) : Prop :=
  ∀ record state, sealer.Seals codec record state →
    ∀ c ∈ record, c.chunk.length = c.text.length + sealer.overhead

theorem IntForm.encode_of_le {form : IntForm} {n : Nat} (h : form.capacity ≤ n) :
    form.encode n = .error (.intTooWide n form) := by
  have hwide : form.width? n = none := if_neg (by omega)
  rw [encode, hwide]

theorem IntForm.lt_capacity_of_width? {form : IntForm} {n : Nat} (h : form.width? n ≠ none) :
    n < form.capacity := by
  by_contra hwide
  exact h (if_neg hwide)

namespace Writer

/-- Why a writer has failed, if the length of a chunk is no reason: for its sealer, which the
last call has left in this state, for its sink, or for the number of its next chunk. -/
inductive Cause (l : Layout) (sealer : Sealer σ) (codec : σ) (r : Recorded σ) (next : Nat) :
    Failure → Prop
  | sealer {state : σ} {text : Bytes} {f : Failure} :
      sealer.Seals codec r.record state → sealer.sealChunk state text = (.error f, r.state) →
      Cause l sealer codec r next f
  | sink (e : IoError) : Cause l sealer codec r next (.io e)
  | counter {number : IntForm} :
      l.counter? = some number → number.capacity ≤ next →
      Cause l sealer codec r next (.intTooWide next number)
  | exhausted : Cause l sealer codec r next .nonceExhausted

/-- The texts that have been sealed fill the buffer at most. -/
structure Sized (l : Layout) (sealer : Sealer σ) (codec : σ) (record : List Sealing) :
    Prop where
  seals : ∃ state, sealer.Seals codec record state
  size_le : ∀ c ∈ record, c.text.length ≤ l.bufferSize

/-- A writer that goes on: its sealer stands behind the record. -/
structure Bounded (l : Layout) (sealer : Sealer σ) (codec : σ) (w : Writer (Recorded σ)) :
    Prop where
  layout_eq : w.layout = l
  sealer_eq : w.sealer = sealer.recording
  seals : sealer.Seals codec w.codec.record w.codec.state
  size_le : ∀ c ∈ w.codec.record, c.text.length ≤ l.bufferSize

/-- A writer that a step has left with this failure. -/
structure Excused (l : Layout) (sealer : Sealer σ) (codec : σ) (f : Failure)
    (w : Writer (Recorded σ)) : Prop where
  sized : Sized l sealer codec w.codec.record
  cause : Cause l sealer codec w.codec w.nextCounter f

variable {l : Layout} {sealer : Sealer σ} {codec : σ} {w w' v : Writer (Recorded σ)}
  {f : Failure} {data rest : Bytes} {n : Nat}

theorem Bounded.sized (h : Bounded l sealer codec w) : Sized l sealer codec w.codec.record :=
  ⟨⟨_, h.seals⟩, h.size_le⟩

/-- Each text that has been sealed fills the buffer at most, so that its chunk is no longer
than a full one. -/
theorem Sized.length_lt {record : List Sealing} (h : Sized l sealer codec record)
    (hgrows : sealer.Grows codec) {form : IntForm}
    (hfull : l.bufferSize + sealer.overhead < form.capacity) {c : Sealing} (hc : c ∈ record) :
    c.chunk.length < form.capacity := by
  obtain ⟨state, hseals⟩ := h.seals
  have hlength := hgrows _ _ hseals c hc
  have hsize := h.size_le c hc
  omega

/-! ## Steps -/

/-- A step leaves a writer that goes on, or one that is excused. -/
def Outcome.Accounted (l : Layout) (sealer : Sealer σ) (codec : σ)
    (r : Outcome (Recorded σ)) : Prop :=
  match r with
  | (.ok (), w) => Bounded l sealer codec w
  | (.error f, w) => Excused l sealer codec f w

theorem Outcome.Accounted.andThen {r : Outcome (Recorded σ)}
    {next : Writer (Recorded σ) → Outcome (Recorded σ)} (h : r.Accounted l sealer codec)
    (hnext : ∀ w, r = (.ok (), w) → Bounded l sealer codec w →
      (next w).Accounted l sealer codec) :
    (r.andThen next).Accounted l sealer codec := by
  obtain ⟨answer, w⟩ := r
  cases answer with
  | error f => exact h
  | ok u => exact hnext w rfl h

/-- What the steps of a stream are given: its chunks grow as the sealer says, and the length
of a full one fits. -/
structure Spacious (l : Layout) (sealer : Sealer σ) (codec : σ) : Prop where
  sound : l.check = .ok ()
  grows : sealer.Grows codec
  full : ∀ form, l.length? = some form → l.bufferSize + sealer.overhead < form.capacity

/-- More text in the chunk that is being put together is not in the record. -/
theorem Bounded.append (h : Bounded l sealer codec w) (bs : Bytes) :
    Bounded l sealer codec { w with pending := w.pending ++ bs } :=
  ⟨h.layout_eq, h.sealer_eq, h.seals, h.size_le⟩

theorem Bounded.onto (h : Bounded l sealer codec w) (sink : Sink) :
    Bounded l sealer codec { w with sink := sink } :=
  ⟨h.layout_eq, h.sealer_eq, h.seals, h.size_le⟩

/-- A chunk is begun, or its number is the cause that it is not. -/
theorem Bounded.begin (h : Bounded l sealer codec w) :
    w.beginChunk.Accounted l sealer codec := by
  rcases hbegin : w.beginChunk with ⟨answer, w'⟩
  cases answer with
  | ok u =>
      obtain ⟨next, rfl, -⟩ := beginChunk_ok hbegin
      exact ⟨h.layout_eq, h.sealer_eq, h.seals, h.size_le⟩
  | error f =>
      obtain ⟨number, hcounter, hcause⟩ := beginChunk_error hbegin
      rw [h.layout_eq] at hcounter
      rcases hcause with ⟨rfl, hwide, rfl⟩ | ⟨rfl, -, rfl⟩
      · exact ⟨h.sized, .counter hcounter hwide⟩
      · exact ⟨h.sized, .exhausted⟩

theorem Bounded.send (h : Bounded l sealer codec w) (bs : Bytes) :
    (w.send bs).Accounted l sealer codec := by
  unfold Writer.send
  rcases w.sink.writeAll bs with ⟨answer, sink⟩
  cases answer with
  | ok u => exact h.onto sink
  | error e => exact ⟨h.sized, .sink e⟩

theorem Bounded.flushSink (h : Bounded l sealer codec w) :
    w.flushSink.Accounted l sealer codec := by
  unfold Writer.flushSink
  rcases w.sink.flush with ⟨answer, sink⟩
  cases answer with
  | ok u => exact h.onto sink
  | error e => exact ⟨h.sized, .sink e⟩

/-- A frame fails for the sink alone, if its length fits. -/
theorem Bounded.sendFrame (h : Bounded l sealer codec w) {chunk : Bytes}
    (hfits : ∀ form, l.length? = some form → chunk.length < form.capacity) :
    (w.sendFrame chunk).Accounted l sealer codec := by
  unfold Writer.sendFrame
  rw [h.layout_eq]
  cases hlength : l.length? with
  | none => exact h.send chunk
  | some form =>
      simp only [IntForm.encode_of_lt (hfits form hlength)]
      exact (h.send _).andThen fun w' _ hsent => hsent.send chunk

/-- A text that is not longer than the buffer is recorded with its chunk, and the length of
the chunk fits; so what can fail is the sealer or the sink. -/
theorem Bounded.seal (hspacious : Spacious l sealer codec) (h : Bounded l sealer codec w)
    (hsize : w.pending.length ≤ l.bufferSize) : w.sealPending.Accounted l sealer codec := by
  unfold sealPending
  rcases hchunk : w.sealer.sealChunk w.codec w.pending with ⟨answer, r⟩
  rw [h.sealer_eq] at hchunk
  cases answer with
  | error f =>
      obtain ⟨hfailed, hrecord⟩ := Sealer.recording_error hchunk
      have hseals : sealer.Seals codec r.record w.codec.state := hrecord ▸ h.seals
      exact ⟨⟨⟨_, hseals⟩, hrecord ▸ h.size_le⟩, .sealer hseals hfailed⟩
  | ok chunk =>
      obtain ⟨hstate, hrecord⟩ := Sealer.recording_ok hchunk
      have hseals : sealer.Seals codec r.record r.state := by
        rw [hrecord]
        exact h.seals.concat hstate
      have hbounded : Bounded l sealer codec { w with codec := r, pending := [] } := by
        refine ⟨h.layout_eq, h.sealer_eq, hseals, fun c hc => ?_⟩
        rw [hrecord] at hc
        rcases List.mem_append.1 hc with hold | hnew
        · exact h.size_le c hold
        · obtain rfl := List.mem_singleton.1 hnew
          exact hsize
      refine hbounded.sendFrame fun form hform => ?_
      exact hbounded.sized.length_lt hspacious.grows (hspacious.full form hform)
        (c := ⟨w.pending, chunk⟩) (by simp [hrecord])

/-! ## Rounds -/

theorem Bounded.prepare (h : Bounded l sealer codec w) :
    w.prepare.Accounted l sealer codec := by
  unfold Writer.prepare
  split
  · exact h.begin
  · exact h

/-- A chunk is sealed when it fills the buffer, and not later. -/
theorem Bounded.pack (hspacious : Spacious l sealer codec) (h : Bounded l sealer codec w)
    (hbegun : Begun l w) (data : Bytes) : (w.pack data).Accounted l sealer codec := by
  unfold Writer.pack
  dsimp only
  split
  · exact (h.append _).seal hspacious (hbegun.length_le data)
  · exact h.append _

theorem Bounded.round (hspacious : Spacious l sealer codec) (hholding : Holding l w)
    (h : Bounded l sealer codec w) (data : Bytes) : (w.round data).Accounted l sealer codec :=
  h.prepare.andThen fun _ hprepare hprepared =>
    hprepared.pack hspacious (hholding.prepare hspacious.sound hprepare) data

/-- Rounds that succeed leave a writer that goes on.  The induction is on the rounds; what is
held back is short before each of them. -/
theorem Rounds.bounded (hspacious : Spacious l sealer codec) (hholding : Holding l w)
    (h : Bounded l sealer codec w) (hrounds : Rounds n w data v rest) :
    Bounded l sealer codec v := by
  induction hrounds with
  | none w data => exact h
  | @next k w w₁ w₂ v data rest _ hprepare hpack _ ih =>
      have hbegun := hholding.prepare hspacious.sound hprepare
      have hprepared := h.prepare
      rw [hprepare] at hprepared
      have hpacked := Bounded.pack hspacious hprepared hbegun data
      rw [hpack] at hpacked
      exact ih (hbegun.pack hpack) hpacked

/-! ## The end -/

theorem pending_clear {w w' : Writer σ}
    (hclear : (if w.pending.isEmpty then (.ok (), w) else w.sealPending) = (.ok (), w')) :
    w'.pending = [] := by
  split at hclear
  · rename_i hempty
    obtain rfl := (Prod.mk.inj hclear).2
    exact List.isEmpty_iff.1 hempty
  · obtain ⟨chunk, codec, sink, -, rfl, -⟩ := sealPending_ok hclear
    rfl

/-- The number zero that ends the stream is no longer than the buffer. -/
theorem Spacious.length_zero (hspacious : Spacious l sealer codec) (hbuffer : l.bufferSize ≠ 0)
    {number : IntForm} (hcounter : l.counter? = some number) :
    (number.bytes 0).length ≤ l.bufferSize := by
  have hnumber := Layout.length_number_lt hspacious.sound hbuffer 0
  simp only [Layout.number, hcounter] at hnumber
  exact hnumber.le

/-- What is held back is sealed like the other chunks, and so is the number zero, if it ends
the stream. -/
theorem Bounded.terminate (hspacious : Spacious l sealer codec) (hholding : Holding l w)
    (h : Bounded l sealer codec w) : w.terminate.Accounted l sealer codec := by
  have hshort := hholding.short
  have hlast := h.seal hspacious hshort.le
  unfold Writer.terminate
  rw [h.layout_eq]
  cases hlength : l.length? with
  | none => exact hlast
  | some form =>
      have hclear : Outcome.Accounted l sealer codec
          (if w.pending.isEmpty then (.ok (), w) else w.sealPending) := by
        split
        · exact h
        · exact hlast
      refine hclear.andThen fun w₁ hcleared hbounded => ?_
      obtain rfl := hbounded.layout_eq
      cases hcounter : w₁.layout.counter? with
      | none =>
          simp only [IntForm.encode_of_lt form.capacity_pos]
          exact hbounded.send _
      | some number =>
          simp only [IntForm.encode_of_lt number.capacity_pos]
          refine (hbounded.append _).seal hspacious ?_
          rw [pending_clear hcleared, List.nil_append]
          exact hspacious.length_zero (by omega) hcounter

theorem Bounded.finish (hspacious : Spacious l sealer codec) (hholding : Holding l w)
    (h : Bounded l sealer codec w) : w.finish.Accounted l sealer codec :=
  (h.terminate hspacious hholding).andThen fun _ _ hended => hended.flushSink

/-! ## Calls -/

/-- Where a writer with a buffer stands, whatever has been asked of it. -/
inductive Fitting (l : Layout) (sealer : Sealer σ) (codec : σ) (w : Writer (Recorded σ)) : Prop
  | writing : w.phase = .writing → Holding l w → Bounded l sealer codec w →
      Fitting l sealer codec w
  | failed {f : Failure} : w.phase = .failed f → Excused l sealer codec f w →
      Fitting l sealer codec w
  | closed : w.phase = .closed → Sized l sealer codec w.codec.record → Fitting l sealer codec w

theorem Fitting.sized (h : Fitting l sealer codec w) : Sized l sealer codec w.codec.record := by
  cases h with
  | writing _ _ hbounded => exact hbounded.sized
  | failed _ hexcused => exact hexcused.sized
  | closed _ hsized => exact hsized

theorem Fitting.write (hspacious : Spacious l sealer codec) (h : Fitting l sealer codec w)
    (data : Bytes) : Fitting l sealer codec (w.write data).2 := by
  cases h with
  | failed hphase hexcused =>
      rw [(refuses_of_failed hphase).write]
      exact .failed hphase hexcused
  | closed hphase hsized =>
      rw [(shut_of_closed hphase).write]
      exact .closed hphase hsized
  | writing hphase hholding hbounded =>
      obtain ⟨n, v, rest, hrounds, hend⟩ := hholding.write hspacious.sound hphase data
      obtain ⟨hheld, -⟩ := hrounds.holding hspacious.sound hholding
      have hkept := hrounds.bounded hspacious hholding hbounded
      rcases hend with ⟨-, hwrite⟩ | ⟨f, v', -, hround, hwrite⟩
      · rw [hwrite]
        exact .writing (phase_write hphase hwrite) hheld hkept
      · rw [hwrite]
        have hexcused : Excused l sealer codec f v' := by
          have haccounted := hkept.round hspacious hheld rest
          rwa [hround] at haccounted
        exact .failed rfl ⟨hexcused.sized, hexcused.cause⟩

theorem Fitting.close (hspacious : Spacious l sealer codec) (h : Fitting l sealer codec w) :
    Fitting l sealer codec w.close.2 := by
  cases h with
  | failed hphase hexcused =>
      rw [(refuses_of_failed hphase).close]
      exact .failed hphase hexcused
  | closed hphase hsized =>
      rw [(shut_of_closed hphase).close]
      exact .closed hphase hsized
  | writing hphase hholding hbounded =>
      have haccounted := hbounded.finish hspacious hholding
      rw [close_eq hphase]
      rcases hfinish : w.finish with ⟨answer, w'⟩
      rw [hfinish] at haccounted
      cases answer with
      | ok u => exact .closed rfl haccounted.sized
      | error f => exact .failed rfl ⟨haccounted.sized, haccounted.cause⟩

theorem Fitting.flush (h : Fitting l sealer codec w) : Fitting l sealer codec w.flush.2 := by
  obtain ⟨sink, hflush, -⟩ := w.flush_snd
  rw [hflush]
  cases h with
  | writing hphase hholding hbounded =>
      exact .writing hphase ⟨hholding.layout_eq, hholding.short, hholding.numbered⟩
        ⟨hbounded.layout_eq, hbounded.sealer_eq, hbounded.seals, hbounded.size_le⟩
  | failed hphase hexcused => exact .failed hphase ⟨hexcused.sized, hexcused.cause⟩
  | closed hphase hsized => exact .closed hphase hsized

/-- Each call keeps where the writer stands. -/
theorem Fitting.serve (hspacious : Spacious l sealer codec) (h : Fitting l sealer codec w)
    (request : Request) : Fitting l sealer codec (w.serve request) := by
  cases request with
  | write data => exact h.write hspacious data
  | writeSome data =>
      rw [Writer.serve, writeSome_snd]
      exact h.write hspacious data
  | flush => exact h.flush
  | close => exact h.close hspacious

/-- So does a run of calls. -/
theorem Fitting.serveAll (hspacious : Spacious l sealer codec) (h : Fitting l sealer codec w)
    (requests : List Request) : Fitting l sealer codec (w.serveAll requests) := by
  induction requests generalizing w with
  | nil => exact h
  | cons request requests ih => exact ih (h.serve hspacious request)

/-- A failure that a writer has kept has its cause. -/
theorem Fitting.cause (h : Fitting l sealer codec w) (hphase : w.phase = .failed f) :
    Cause l sealer codec w.codec w.nextCounter f := by
  cases h with
  | writing hwriting => simp [hphase] at hwriting
  | closed hclosed => simp [hphase] at hclosed
  | failed hfailed hexcused =>
      rw [hphase] at hfailed
      rw [Phase.failed.inj hfailed]
      exact hexcused.cause

/-! ## Runs -/

section Runs

variable {s : Sink} {w : Writer σ} {form : IntForm}

/-- What starting a writer has looked at gives its steps what they need. -/
theorem start_spacious (h : start s sealer codec l = .ok w) (hbuffer : l.bufferSize ≠ 0)
    (hsize : l.bufferSize + sealer.overhead < intBound)
    (hgrows : sealer.Grows codec) : Spacious l sealer codec := by
  obtain ⟨hl, hlength, -⟩ := start_eq_ok_iff.1 h
  rw [Layout.fullSize_eq hsize] at hlength
  have hwide := checkLength_eq_ok_iff.1 hlength
  exact ⟨hl, hgrows, fun form hform => IntForm.lt_capacity_of_width? (hwide form hform hbuffer)⟩

/-- The check that starts a writer is enough.  Of a writer with lengths and a buffer, whose
full chunks are of a size that stands in a machine word and whose sealed chunks are longer than
their texts by the overhead, let the same run be made with a record; then after any calls the
length of each chunk in the record is encoded, and so is the bare zero.  If a call reports that a
number is too wide, its sealer has just failed with that very report, or it is the number of the
next chunk, which does not fit the form of the counters. -/
theorem lengths_always_fit (h : start s sealer codec l = .ok w)
    (hlength : l.length? = some form) (hbuffer : l.bufferSize ≠ 0)
    (hsize : l.bufferSize + sealer.overhead < intBound)
    (hgrows : sealer.Grows codec) :
    ∃ v, start s sealer.recording ⟨codec, []⟩ l = .ok v ∧ ∀ requests,
      Mirrors (w.serveAll requests) (v.serveAll requests) ∧
        form.encode 0 = .ok (form.bytes 0) ∧
        (∀ c ∈ (v.serveAll requests).codec.record, c.text.length ≤ l.bufferSize ∧
          form.encode c.chunk.length = .ok (form.bytes c.chunk.length)) ∧
        ∀ request n number, (w.serveAll requests).Fails (.intTooWide n number) request →
          (∃ state text,
            sealer.Seals codec ((v.serveAll requests).serve request).codec.record state ∧
            sealer.sealChunk state text = (.error (.intTooWide n number),
              ((v.serveAll requests).serve request).codec.state)) ∨
          (l.counter? = some number ∧
            n = ((w.serveAll requests).serve request).nextCounter ∧
            number.encode n = .error (.intTooWide n number)) := by
  have hspacious := start_spacious h hbuffer hsize hgrows
  obtain ⟨v, hstart, hmirrors⟩ := start_mirrors h
  have hfirst : Fitting l sealer codec v := by
    have hholding := start_holding hstart hbuffer
    obtain ⟨-, rfl⟩ := start_ok hstart
    exact .writing rfl hholding ⟨rfl, rfl, .nil codec, by simp⟩
  refine ⟨v, hstart, fun requests => ?_⟩
  have hrun := hmirrors.serveAll requests
  have hfitting := hfirst.serveAll hspacious requests
  refine ⟨hrun, IntForm.encode_of_lt form.capacity_pos, fun c hc => ?_, ?_⟩
  · have hsized := hfitting.sized
    exact ⟨hsized.size_le c hc,
      IntForm.encode_of_lt (hsized.length_lt hgrows (hspacious.full form hlength) hc)⟩
  · intro request n number hfails
    have hphase := failed_of_fails hfails (by simp)
    -- The run with the record has failed alike, and there the failure has its cause.
    have hcause : ∀ v', Mirrors ((w.serveAll requests).serve request) v' →
        Fitting l sealer codec v' →
        Cause l sealer codec v'.codec ((w.serveAll requests).serve request).nextCounter
          (.intTooWide n number) := by
      rintro v' ⟨log, rfl⟩ hlast
      exact hlast.cause hphase
    cases hcause _ (hrun.serve request) (hfitting.serve hspacious request) with
    | sealer hseals hfailed => exact .inl ⟨_, _, hseals, hfailed⟩
    | counter hcounter hwide => exact .inr ⟨hcounter, rfl, IntForm.encode_of_le hwide⟩

/-- Chunks that pass as they are have grown by nothing. -/
theorem failing_grows (left : Nat) (f : Failure) : (Chunk.failingSealer 0 f).Grows left := by
  intro record state hseals
  induction hseals with
  | nil s => simp
  | @cons s s₁ s' c record hfirst _ ih =>
      intro d hd
      rcases List.mem_cons.1 hd with rfl | hmem
      · cases s with
        | zero => simp [Chunk.failingSealer] at hfirst
        | succ left =>
            have hchunk : d.text = d.chunk := Except.ok.inj (Prod.mk.inj hfirst).1
            rw [hchunk]
            rfl
      · exact ih d hmem

/-- The first chunk is recorded and its length encoded; what the second write reports is the
sealer's own, as the counter has another form. -/
theorem lengths_always_fit_failing :
    ∃ w v, start .perfect (Chunk.failingSealer 0 (.intTooWide 5 .fixed2)) 1 sampleLayout = .ok w ∧
      start .perfect (Chunk.failingSealer 0 (.intTooWide 5 .fixed2)).recording ⟨1, []⟩
        sampleLayout = .ok v ∧
      (v.serveAll [.write [97, 98]]).codec.record = [⟨[1, 97, 98], [1, 97, 98]⟩] ∧
      IntForm.encode .varint [1, 97, 98].length = .ok [3] ∧
      (w.serveAll [.write [97, 98]]).Fails (.intTooWide 5 .fixed2) (.write [99, 100]) ∧
      ∃ state text, (Chunk.failingSealer 0 (.intTooWide 5 .fixed2)).Seals 1
          [⟨[1, 97, 98], [1, 97, 98]⟩] state ∧
        (Chunk.failingSealer 0 (.intTooWide 5 .fixed2)).sealChunk state text =
          (.error (.intTooWide 5 .fixed2), 0) := by
  have hstart : start .perfect (Chunk.failingSealer 0 (.intTooWide 5 .fixed2)) 1 sampleLayout =
    .ok _ := rfl
  obtain ⟨v, hv, hruns⟩ := lengths_always_fit hstart rfl (by decide) (by decide)
    (failing_grows 1 _)
  obtain rfl := Except.ok.inj (hv.symm.trans rfl)
  obtain ⟨-, -, hfits, hreports⟩ := hruns [.write [97, 98]]
  have hfirst := (hfits ⟨[1, 97, 98], [1, 97, 98]⟩ (by exact List.mem_singleton.2 rfl)).2
  refine ⟨_, _, hstart, hv, rfl, hfirst, rfl, ?_⟩
  rcases hreports (.write [99, 100]) 5 .fixed2 rfl with hsealer | ⟨hcounter, -⟩
  · exact hsealer
  · exact absurd hcounter (by decide)

/-- Five fits two bytes, and the counter has one; the sealer reports otherwise on its own. -/
theorem foreign_report :
    ∃ w, start .perfect (Chunk.failingSealer 0 (.intTooWide 5 .fixed2)) 0 sampleLayout = .ok w ∧
      sampleLayout.length? = some .varint ∧ sampleLayout.bufferSize ≠ 0 ∧
      (Chunk.failingSealer 0 (.intTooWide 5 .fixed2)).Grows 0 ∧
      w.Fails (.intTooWide 5 .fixed2) (.write [97, 98]) ∧
      sampleLayout.counter? ≠ some .fixed2 ∧ IntForm.encode .fixed2 5 = .ok [0, 5] :=
  ⟨_, rfl, rfl, by decide, failing_grows 0 _, rfl, by decide, rfl⟩

end Runs

end Writer

end SealedStream
