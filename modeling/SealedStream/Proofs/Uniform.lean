import SealedStream.Proofs.Requests

/-!
# How a writer uses its sink

Until it flushes, a writer knows its sink by nothing but the answers to what it sends.
`Writer.Uniform` says this of a step as a law of relations: whatever relation between
two sinks is kept when the same bytes are written to both, the step keeps it between
two writers that are the same but for their sinks, and answers both alike.

Two sinks need not go together for ever.  A relation comes with a second one, for the
time after the first sink has ended with an error: the step on the first writer ends
there, and the second one goes on alone.

Every step of a writer up to the flush that ends a stream is uniform; each is put
together from others that are.
-/

namespace SealedStream

/-- A relation that is kept by writing the same bytes to two sinks, as long as the first
one does not end with an error of its own; after that a second relation is kept by
writing to the other. -/
structure Sink.Pairing (together : Sink → Sink → Prop) (apart : IoError → Sink → Sink → Prop) :
    Prop where
  writeAll {a b : Sink} (bs : Bytes) : together a b →
    ((b.writeAll bs).1 = (a.writeAll bs).1 ∧
        together (a.writeAll bs).2 (b.writeAll bs).2) ∨
      ∃ e, (a.writeAll bs).1 = .error e ∧ apart e (a.writeAll bs).2 (b.writeAll bs).2
  goesOn {e : IoError} {a b : Sink} (bs : Bytes) : apart e a b → apart e a (b.writeAll bs).2

/-- A pairing that is kept by flushing the two sinks as well. -/
structure Sink.FlushPairing (together : Sink → Sink → Prop)
    (apart : IoError → Sink → Sink → Prop) : Prop extends Sink.Pairing together apart where
  flush {a b : Sink} : together a b →
    (b.flush.1 = a.flush.1 ∧ together a.flush.2 b.flush.2) ∨
      ∃ e, a.flush.1 = .error e ∧ apart e a.flush.2 b.flush.2
  flushesOn {e : IoError} {a b : Sink} : apart e a b → apart e a b.flush.2

namespace Writer

variable {σ : Type}

/-- Two writers that differ in nothing but their sinks, which are related. -/
def Like (together : Sink → Sink → Prop) (w v : Writer σ) : Prop :=
  ∃ sink, v = { w with sink := sink } ∧ together w.sink sink

/-- Two steps that have come to the same, or the first of which has ended with the
error of its sink. -/
def Outcome.Like (together : Sink → Sink → Prop) (apart : IoError → Sink → Sink → Prop)
    (r q : Outcome σ) : Prop :=
  (q.1 = r.1 ∧ Writer.Like together r.2 q.2) ∨
    ∃ e, r.1 = .error (.io e) ∧ apart e r.2.sink q.2.sink

/-- Going on with the next step where both have come to the same; where only the second
one goes on, the step must keep what holds from then on. -/
theorem Outcome.Like.andThen {together : Sink → Sink → Prop}
    {apart : IoError → Sink → Sink → Prop} {r q : Outcome σ} {next : Writer σ → Outcome σ}
    (h : r.Like together apart q)
    (hnext : ∀ {w v}, Writer.Like together w v → (next w).Like together apart (next v))
    (hgoes : ∀ {e a v}, apart e a v.sink → apart e a (next v).2.sink) :
    (r.andThen next).Like together apart (q.andThen next) := by
  obtain ⟨answer, w⟩ := r
  obtain ⟨answer', v⟩ := q
  rcases h with ⟨hanswer, hlike⟩ | ⟨e, herror, hapart⟩
  · obtain rfl : answer' = answer := hanswer
    cases answer' with
    | error f => exact .inl ⟨rfl, hlike⟩
    | ok u => exact hnext hlike
  · obtain rfl : answer = .error (.io e) := herror
    cases answer' with
    | error f => exact .inr ⟨e, rfl, hapart⟩
    | ok u => exact .inr ⟨e, rfl, hgoes hapart⟩

/-- The step uses the sink in no way but by writing to it. -/
structure Uniform (step : Writer σ → Outcome σ) : Prop where
  outcome {together : Sink → Sink → Prop} {apart : IoError → Sink → Sink → Prop}
      {w v : Writer σ} : Sink.Pairing together apart → Like together w v →
      Outcome.Like together apart (step w) (step v)

/-! ## What a uniform step keeps -/

variable {step next : Writer σ → Outcome σ} {w : Writer σ}

/-- What writing keeps true of a sink, a uniform step keeps true of it. -/
theorem Uniform.keeps (h : Uniform step) {P : Sink → Prop}
    (hwrite : ∀ (s : Sink) (bs : Bytes), P s → P (s.writeAll bs).2) (hw : P w.sink) :
    P (step w).2.sink := by
  -- The writer is set beside itself, so that its sinks never come apart.
  have hpair : Sink.Pairing (fun a b => b = a ∧ P a) (fun _ _ _ => False) := by
    refine ⟨?_, fun _ hno => hno⟩
    rintro a b bs ⟨rfl, ha⟩
    exact .inl ⟨rfl, rfl, hwrite b bs ha⟩
  rcases h.outcome hpair (w := w) (v := w) ⟨w.sink, rfl, rfl, hw⟩ with
    ⟨-, sink, -, -, hsink⟩ | ⟨e, -, hno⟩
  · exact hsink
  · exact hno.elim

/-! ## Putting steps together -/

/-- A step that does nothing. -/
theorem uniform_done : Uniform fun w : Writer σ => (.ok (), w) :=
  ⟨fun _ h => .inl ⟨rfl, h⟩⟩

theorem Uniform.andThen (hstep : Uniform step) (hnext : Uniform next) :
    Uniform fun w => (step w).andThen next where
  outcome hpair h := (hstep.outcome hpair h).andThen (hnext.outcome hpair)
    fun hapart => hnext.keeps (fun _ bs => hpair.goesOn bs) hapart

/-- A choice that does not look at the sink. -/
theorem Uniform.ite {c : Writer σ → Prop} [DecidablePred c]
    (hc : ∀ w sink, c { w with sink := sink } ↔ c w) (hstep : Uniform step)
    (hnext : Uniform next) : Uniform fun w => if c w then step w else next w where
  outcome {together apart w v} hpair h := by
    have hsame : c v ↔ c w := by
      obtain ⟨sink, rfl, -⟩ := h
      exact hc w sink
    by_cases hw : c w
    · simpa only [hsame, hw, if_true] using hstep.outcome hpair h
    · simpa only [hsame, hw, if_false] using hnext.outcome hpair h

/-- A step that changes the writer, but not its sink, before it goes on. -/
theorem Uniform.after (change : Writer σ → Writer σ)
    (hchange : ∀ w sink, change { w with sink := sink } = { change w with sink := sink })
    (hstep : Uniform step) : Uniform fun w => step (change w) where
  outcome {together apart w v} hpair h := by
    obtain ⟨sink, rfl, hsink⟩ := h
    have hkept : (change w).sink = w.sink := by
      have hsame : change w = { change w with sink := w.sink } := hchange w w.sink
      rw [hsame]
    exact hstep.outcome hpair ⟨sink, hchange w sink, hkept ▸ hsink⟩

/-! ## The steps of a writer -/

theorem uniform_beginChunk : Uniform (beginChunk (σ := σ)) where
  outcome {together apart w v} _ h := by
    obtain ⟨sink, rfl, hsink⟩ := h
    unfold beginChunk
    dsimp only
    cases w.layout.counter? with
    | none => exact .inl ⟨rfl, sink, rfl, hsink⟩
    | some form =>
        dsimp only
        cases form.encode w.nextCounter with
        | error f => exact .inl ⟨rfl, sink, rfl, hsink⟩
        | ok bs =>
            dsimp only
            split <;> exact .inl ⟨rfl, sink, rfl, hsink⟩

theorem uniform_send (bs : Bytes) : Uniform fun w : Writer σ => w.send bs where
  outcome {together apart w v} hpair h := by
    obtain ⟨sink, rfl, hsink⟩ := h
    have hwrite := hpair.writeAll bs hsink
    unfold send
    dsimp only
    rcases ha : w.sink.writeAll bs with ⟨answer, a⟩
    rcases hb : sink.writeAll bs with ⟨answer', b⟩
    rw [ha, hb] at hwrite
    rcases hwrite with ⟨hanswer, hkept⟩ | ⟨e, herror, hapart⟩
    · obtain rfl : answer' = answer := hanswer
      cases answer' <;> exact .inl ⟨rfl, b, rfl, hkept⟩
    · obtain rfl : answer = .error e := herror
      cases answer' <;> exact .inr ⟨e, rfl, hapart⟩

theorem uniform_sendFrame (chunk : Bytes) :
    Uniform fun w : Writer σ => w.sendFrame chunk where
  outcome {together apart w v} hpair h := by
    obtain ⟨sink, rfl, hsink⟩ := h
    unfold sendFrame
    dsimp only
    cases w.layout.length? with
    | none => exact (uniform_send chunk).outcome hpair ⟨sink, rfl, hsink⟩
    | some form =>
        dsimp only
        cases form.encode chunk.length with
        | error f => exact .inl ⟨rfl, sink, rfl, hsink⟩
        | ok bs =>
            exact ((uniform_send bs).andThen (uniform_send chunk)).outcome hpair
              ⟨sink, rfl, hsink⟩

theorem uniform_sealPending : Uniform (sealPending (σ := σ)) where
  outcome {together apart w v} hpair h := by
    obtain ⟨sink, rfl, hsink⟩ := h
    unfold sealPending
    dsimp only
    rcases w.sealer.sealChunk w.codec w.pending with ⟨answer, codec⟩
    cases answer with
    | error f => exact .inl ⟨rfl, sink, rfl, hsink⟩
    | ok chunk => exact (uniform_sendFrame chunk).outcome hpair ⟨sink, rfl, hsink⟩

/-- What begins a round: a chunk is begun, unless one has been. -/
theorem uniform_open :
    Uniform fun w : Writer σ => if w.pending = [] then w.beginChunk else (.ok (), w) :=
  Uniform.ite (c := fun w => w.pending = []) (fun _ _ => Iff.rfl) uniform_beginChunk uniform_done

/-- What ends a round: a chunk that has become full is sealed. -/
theorem uniform_settle :
    Uniform fun w : Writer σ => if w.room = 0 then w.sealPending else (.ok (), w) :=
  Uniform.ite (c := fun w => w.room = 0) (fun _ _ => Iff.rfl) uniform_sealPending uniform_done

/-- What comes before the end: what is held back is sealed. -/
theorem uniform_clear :
    Uniform fun w : Writer σ => if w.pending.isEmpty then (.ok (), w) else w.sealPending :=
  Uniform.ite (c := fun w => w.pending.isEmpty = true) (fun _ _ => Iff.rfl) uniform_done
    uniform_sealPending

/-- A round of `fill` from where a chunk has been begun, with what follows it. -/
theorem uniform_round (data : Bytes) {rest : Bytes → Writer σ → Outcome σ}
    (hrest : ∀ data, Uniform (rest data)) :
    Uniform fun w : Writer σ =>
      let w' := { w with pending := w.pending ++ data.take w.room }
      Outcome.andThen (if w'.room = 0 then w'.sealPending else (.ok (), w'))
        fun w'' => rest (data.drop w.room) w'' where
  outcome {together apart w v} hpair h := by
    -- What the round takes depends on the room, which both writers have alike.
    obtain ⟨sink, rfl, hsink⟩ := h
    exact (uniform_settle.andThen (hrest (data.drop w.room))).outcome hpair ⟨sink, rfl, hsink⟩

/-- One round after the other; the induction is on the rounds. -/
theorem uniform_fill (k : Nat) (data : Bytes) :
    Uniform fun w : Writer σ => fill k w data := by
  induction k generalizing data with
  | zero => exact uniform_done
  | succ k ih =>
      simp only [fill, List.isEmpty_iff]
      split
      · exact uniform_done
      · exact uniform_open.andThen (uniform_round data ih)

theorem uniform_sealWhole (data : Bytes) :
    Uniform fun w : Writer σ => w.sealWhole data :=
  uniform_beginChunk.andThen
    (uniform_sealPending.after (fun w => { w with pending := w.pending ++ data })
      fun _ _ => rfl)

/-- What ends a stream with lengths, once nothing is held back. -/
theorem uniform_mark (form : IntForm) :
    Uniform fun w : Writer σ =>
      match w.layout.counter? with
      | some counter =>
          match counter.encode 0 with
          | .error f => (.error f, w)
          | .ok bs => sealPending { w with pending := w.pending ++ bs }
      | none =>
          match form.encode 0 with
          | .error f => (.error f, w)
          | .ok bs => w.send bs where
  outcome {together apart w v} hpair h := by
    obtain ⟨sink, rfl, hsink⟩ := h
    dsimp only
    cases w.layout.counter? with
    | none =>
        dsimp only
        cases form.encode 0 with
        | error f => exact .inl ⟨rfl, sink, rfl, hsink⟩
        | ok bs => exact (uniform_send bs).outcome hpair ⟨sink, rfl, hsink⟩
    | some counter =>
        dsimp only
        cases counter.encode 0 with
        | error f => exact .inl ⟨rfl, sink, rfl, hsink⟩
        | ok bs => exact uniform_sealPending.outcome hpair ⟨sink, rfl, hsink⟩

theorem uniform_terminate : Uniform (terminate (σ := σ)) where
  outcome {together apart w v} hpair h := by
    have hlayout : v.layout = w.layout := by
      obtain ⟨sink, rfl, -⟩ := h
      rfl
    unfold terminate
    rw [hlayout]
    cases w.layout.length? with
    | none => exact uniform_sealPending.outcome hpair h
    | some form =>
        exact (uniform_clear.andThen (uniform_mark form)).outcome hpair h

/-- What a write does to a writer that is writing, if there is something to write. -/
def take (w : Writer σ) (data : Bytes) : Outcome σ :=
  if w.layout.bufferSize = 0 then w.sealWhole data else fill data.length w data

theorem uniform_take (data : Bytes) : Uniform fun w : Writer σ => w.take data :=
  Uniform.ite (c := fun w => w.layout.bufferSize = 0) (fun _ _ => Iff.rfl)
    (uniform_sealWhole data) (uniform_fill data.length data)

/-- What closing does to a writer that is writing. -/
def finish (w : Writer σ) : Outcome σ :=
  w.terminate.andThen flushSink

/-! ## Whole calls -/

/-- The writer that a call leaves after its steps: a failure is kept, and a success may
change the phase. -/
def Outcome.kept (r : Outcome σ) (done : Phase → Phase) : Writer σ :=
  match r with
  | (.ok (), w) => { w with phase := done w.phase }
  | (.error f, w) => w.fail f

@[simp] theorem Outcome.kept_sink (r : Outcome σ) (done : Phase → Phase) :
    (r.kept done).sink = r.2.sink := by
  obtain ⟨answer, w⟩ := r
  cases answer <;> rfl

theorem write_eq (hphase : w.phase = .writing) {data : Bytes} (hdata : data ≠ []) :
    w.write data =
      ((w.take data).1.map fun _ => data.length, (w.take data).kept id) := by
  rcases htake : w.take data with ⟨answer, w'⟩
  unfold take at htake
  unfold write
  simp only [hphase, List.isEmpty_iff, hdata, if_false, htake]
  cases answer <;> rfl

theorem close_eq (hphase : w.phase = .writing) :
    w.close = (w.finish.1, w.finish.kept fun _ => .closed) := by
  rcases hfinish : w.finish with ⟨answer, w'⟩
  unfold finish at hfinish
  unfold close
  simp only [hphase, hfinish]
  cases answer <;> rfl

theorem write_nil (hphase : w.phase = .writing) : w.write [] = (.ok 0, w) := by
  simp [write, hphase]

theorem flushSink_snd (w : Writer σ) : w.flushSink.2 = { w with sink := w.sink.flush.2 } := by
  unfold flushSink
  cases w.sink.flush with
  | mk answer sink => cases answer <;> rfl

/-! ## Two writers called alike -/

section Pairs

variable {together : Sink → Sink → Prop} {apart : IoError → Sink → Sink → Prop}
  {v : Writer σ}

theorem Like.phase_eq (h : Like together w v) : v.phase = w.phase := by
  obtain ⟨sink, rfl, -⟩ := h
  rfl

/-- What two steps have come to is kept by the calls; an error of the first sink is kept as
a failure. -/
theorem Outcome.Like.kept {r q : Outcome σ} (h : r.Like together apart q)
    (done : Phase → Phase) :
    (q.1 = r.1 ∧ Writer.Like together (r.kept done) (q.kept done)) ∨
      ∃ e, r.1 = .error (.io e) ∧ (r.kept done).phase = .failed (.io e) ∧
        apart e (r.kept done).sink (q.kept done).sink := by
  obtain ⟨answer, w⟩ := r
  obtain ⟨answer', v⟩ := q
  rcases h with ⟨hanswer, sink, rfl, htogether⟩ | ⟨e, herror, hapart⟩
  · obtain rfl : answer' = answer := hanswer
    cases answer' <;> exact .inl ⟨rfl, sink, rfl, htogether⟩
  · obtain rfl : answer = .error (.io e) := herror
    refine .inr ⟨e, rfl, rfl, ?_⟩
    rw [kept_sink, kept_sink]
    exact hapart

/-- A write answers two writers alike, or it fails for the first sink. -/
theorem Like.write (hpair : Sink.Pairing together apart) (h : Like together w v)
    (data : Bytes) :
    ((v.write data).1 = (w.write data).1 ∧ Like together (w.write data).2 (v.write data).2) ∨
      ∃ e, (w.write data).1 = .error (.io e) ∧ (w.write data).2.phase = .failed (.io e) ∧
        apart e (w.write data).2.sink (v.write data).2.sink := by
  cases hphase : w.phase with
  | closed =>
      rw [(shut_of_closed hphase).write, (shut_of_closed (h.phase_eq.trans hphase)).write]
      exact .inl ⟨rfl, h⟩
  | failed f =>
      rw [(refuses_of_failed hphase).write, (refuses_of_failed (h.phase_eq.trans hphase)).write]
      exact .inl ⟨rfl, h⟩
  | writing =>
      by_cases hdata : data = []
      · subst hdata
        rw [write_nil hphase, write_nil (h.phase_eq.trans hphase)]
        exact .inl ⟨rfl, h⟩
      · rw [write_eq hphase hdata, write_eq (h.phase_eq.trans hphase) hdata]
        rcases ((uniform_take data).outcome hpair h).kept id with
          ⟨hanswer, hlike⟩ | ⟨e, herror, hkept⟩
        · exact .inl ⟨by rw [hanswer], hlike⟩
        · exact .inr ⟨e, by rw [herror]; rfl, hkept⟩

theorem Like.flushSink (hpair : Sink.FlushPairing together apart) (h : Like together w v) :
    Outcome.Like together apart w.flushSink v.flushSink := by
  obtain ⟨sink, rfl, hsink⟩ := h
  have hstep := hpair.flush hsink
  unfold Writer.flushSink
  dsimp only
  rcases ha : w.sink.flush with ⟨answer, a⟩
  rcases hb : sink.flush with ⟨answer', b⟩
  rw [ha, hb] at hstep
  rcases hstep with ⟨hanswer, hkept⟩ | ⟨e, herror, hapart⟩
  · obtain rfl : answer' = answer := hanswer
    cases answer' <;> exact .inl ⟨rfl, b, rfl, hkept⟩
  · obtain rfl : answer = .error e := herror
    cases answer' <;> exact .inr ⟨e, rfl, hapart⟩

theorem Like.finish (hpair : Sink.FlushPairing together apart) (h : Like together w v) :
    Outcome.Like together apart w.finish v.finish :=
  (uniform_terminate.outcome hpair.toPairing h).andThen (Like.flushSink hpair)
    fun {e a v} hapart => by
      rw [flushSink_snd]
      exact hpair.flushesOn hapart

/-- Closing answers two writers alike, or it fails for the first sink. -/
theorem Like.close (hpair : Sink.FlushPairing together apart) (h : Like together w v) :
    (v.close.1 = w.close.1 ∧ Like together w.close.2 v.close.2) ∨
      ∃ e, w.close.1 = .error (.io e) ∧ w.close.2.phase = .failed (.io e) ∧
        apart e w.close.2.sink v.close.2.sink := by
  cases hphase : w.phase with
  | closed =>
      rw [(shut_of_closed hphase).close, (shut_of_closed (h.phase_eq.trans hphase)).close]
      exact .inl ⟨rfl, h⟩
  | failed f =>
      rw [(refuses_of_failed hphase).close, (refuses_of_failed (h.phase_eq.trans hphase)).close]
      exact .inl ⟨rfl, h⟩
  | writing =>
      rw [close_eq hphase, close_eq (h.phase_eq.trans hphase)]
      exact (h.finish hpair).kept fun _ => .closed

end Pairs

/-! ## What every call keeps -/

section Keeping

variable {P : Sink → Prop}

theorem finish_keeps (hwrite : ∀ (s : Sink) (bs : Bytes), P s → P (s.writeAll bs).2)
    (hflush : ∀ s : Sink, P s → P s.flush.2) (hw : P w.sink) : P w.finish.2.sink := by
  have hkept := uniform_terminate.keeps hwrite hw
  unfold finish
  rcases hend : w.terminate with ⟨answer, w'⟩
  rw [hend] at hkept
  cases answer with
  | error f => exact hkept
  | ok u =>
      show P w'.flushSink.2.sink
      rw [flushSink_snd]
      exact hflush w'.sink hkept

/-- What writing and flushing keep true of a sink, every call keeps true of it. -/
theorem serve_keeps (hwrite : ∀ (s : Sink) (bs : Bytes), P s → P (s.writeAll bs).2)
    (hflush : ∀ s : Sink, P s → P s.flush.2) (hw : P w.sink) (request : Request) :
    P (w.serve request).sink := by
  have hwritten (data : Bytes) : P (w.write data).2.sink := by
    cases hphase : w.phase with
    | closed | failed => simpa [write, hphase] using hw
    | writing =>
        by_cases hdata : data = []
        · rwa [hdata, write_nil hphase]
        · rw [write_eq hphase hdata, Outcome.kept_sink]
          exact (uniform_take data).keeps hwrite hw
  cases request with
  | write data => exact hwritten data
  | writeSome data => simpa [serve] using hwritten data
  | flush =>
      cases hphase : w.phase with
      | failed f => rwa [serve, (refuses_of_failed hphase).flush]
      | writing | closed =>
          rw [serve, flush_passes (by simp [hphase])]
          exact hflush w.sink hw
  | close =>
      cases hphase : w.phase with
      | closed | failed => simpa [serve, close, hphase] using hw
      | writing =>
          rw [serve, close_eq hphase, Outcome.kept_sink]
          exact finish_keeps hwrite hflush hw

theorem serveAll_keeps (hwrite : ∀ (s : Sink) (bs : Bytes), P s → P (s.writeAll bs).2)
    (hflush : ∀ s : Sink, P s → P s.flush.2) (hw : P w.sink) (requests : List Request) :
    P (w.serveAll requests).sink := by
  induction requests generalizing w with
  | nil => exact hw
  | cons request requests ih => exact ih (serve_keeps hwrite hflush hw request)

end Keeping

end Writer

end SealedStream
