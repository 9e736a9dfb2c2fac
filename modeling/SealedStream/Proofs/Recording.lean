import SealedStream.Proofs.Calls

/-!
# Keeping a record changes nothing

A writer whose sealer keeps a record gives the same answers as the writer
without it, and does the same to its sink.  `Writer.Mirrors` relates the two;
every step keeps them related, and so does a whole run.
-/

namespace SealedStream

namespace Writer

variable {σ : Type}

/-- The second writer is the first one with a record kept by its sealer. -/
def Mirrors (w : Writer σ) (v : Writer (Recorded σ)) : Prop :=
  ∃ log : List Sealing, v =
    ⟨w.layout, w.sealer.recording, ⟨w.codec, log⟩, w.sink, w.pending,
      w.nextCounter, w.phase⟩

/-- The same answer, and writers that differ in the record alone. -/
def Outcome.Mirrors (r : Outcome σ) (q : Outcome (Recorded σ)) : Prop :=
  q.1 = r.1 ∧ Writer.Mirrors r.2 q.2

theorem Outcome.Mirrors.cases {r : Outcome σ} {q : Outcome (Recorded σ)}
    (h : r.Mirrors q) :
    ∃ (answer : Except Failure Unit) (w : Writer σ) (v : Writer (Recorded σ)),
      r = (answer, w) ∧ q = (answer, v) ∧ Writer.Mirrors w v := by
  obtain ⟨answer, w⟩ := r
  obtain ⟨answer', v⟩ := q
  obtain ⟨hanswer, hwriters⟩ := h
  exact ⟨answer, w, v, rfl, by rw [show answer' = answer from hanswer], hwriters⟩

theorem Outcome.Mirrors.andThen {r : Outcome σ} {q : Outcome (Recorded σ)}
    {next : Writer σ → Outcome σ}
    {next' : Writer (Recorded σ) → Outcome (Recorded σ)} (h : r.Mirrors q)
    (hnext : ∀ w v, Writer.Mirrors w v → (next w).Mirrors (next' v)) :
    (r.andThen next).Mirrors (q.andThen next') := by
  obtain ⟨answer, w, v, rfl, rfl, hwriters⟩ := h.cases
  cases answer with
  | error f => exact ⟨rfl, hwriters⟩
  | ok u => exact hnext w v hwriters

section Mirrors

variable {w : Writer σ} {v : Writer (Recorded σ)}

theorem Mirrors.beginChunk (h : Mirrors w v) :
    w.beginChunk.Mirrors v.beginChunk := by
  obtain ⟨log, rfl⟩ := h
  unfold Writer.beginChunk
  cases w.layout.counter? with
  | none => exact ⟨rfl, log, rfl⟩
  | some form =>
      dsimp only
      cases form.encode w.nextCounter with
      | error f => exact ⟨rfl, log, rfl⟩
      | ok bs =>
          dsimp only
          by_cases hlast : w.nextCounter + 1 < intBound
          · simp only [hlast, if_true]
            exact ⟨rfl, log, rfl⟩
          · simp only [hlast, if_false]
            exact ⟨rfl, log, rfl⟩

theorem Mirrors.send (h : Mirrors w v) (bs : Bytes) :
    (w.send bs).Mirrors (v.send bs) := by
  obtain ⟨log, rfl⟩ := h
  unfold Writer.send
  cases w.sink.writeAll bs with
  | mk answer sink => cases answer <;> exact ⟨rfl, log, rfl⟩

theorem Mirrors.sendFrame (h : Mirrors w v) (chunk : Bytes) :
    (w.sendFrame chunk).Mirrors (v.sendFrame chunk) := by
  have hlayout : v.layout = w.layout := by
    obtain ⟨log, rfl⟩ := h
    rfl
  unfold Writer.sendFrame
  rw [hlayout]
  cases w.layout.length? with
  | none => exact h.send chunk
  | some form =>
      dsimp only
      cases form.encode chunk.length with
      | error f => exact ⟨rfl, h⟩
      | ok bs => exact (h.send bs).andThen fun _ _ hnext => hnext.send chunk

theorem Mirrors.sealPending (h : Mirrors w v) :
    w.sealPending.Mirrors v.sealPending := by
  obtain ⟨log, rfl⟩ := h
  unfold Writer.sealPending Sealer.recording
  dsimp only
  cases w.sealer.sealChunk w.codec w.pending with
  | mk answer codec =>
      cases answer with
      | error f => exact ⟨rfl, log, rfl⟩
      | ok chunk =>
          exact Mirrors.sendFrame ⟨log ++ [⟨w.pending, chunk⟩], rfl⟩ chunk

theorem Mirrors.append (h : Mirrors w v) (bs : Bytes) :
    Mirrors { w with pending := w.pending ++ bs }
      { v with pending := v.pending ++ bs } := by
  obtain ⟨log, rfl⟩ := h
  exact ⟨log, rfl⟩

theorem Mirrors.fill (h : Mirrors w v) (k : Nat) (data : Bytes) :
    (fill k w data).Mirrors (fill k v data) := by
  induction k generalizing w v data with
  | zero => exact ⟨rfl, h⟩
  | succ k ih =>
      unfold Writer.fill
      split
      · exact ⟨rfl, h⟩
      · refine Outcome.Mirrors.andThen ?_ fun w₁ v₁ h₁ => ?_
        · have hpending : v.pending = w.pending := by
            obtain ⟨log, rfl⟩ := h
            rfl
          rw [hpending]
          split
          · exact h.beginChunk
          · exact ⟨rfl, h⟩
        · -- Both have the same room, so both take the same piece.
          have hroom : v₁.room = w₁.room := by
            obtain ⟨log, rfl⟩ := h₁
            rfl
          have h₂ := h₁.append (data.take w₁.room)
          have hroom₂ :
              Writer.room { v₁ with pending := v₁.pending ++ data.take w₁.room } =
                Writer.room { w₁ with pending := w₁.pending ++ data.take w₁.room } := by
            obtain ⟨log, rfl⟩ := h₁
            rfl
          rw [hroom]
          refine Outcome.Mirrors.andThen ?_ fun w₂ v₂ h₃ => ih h₃ _
          rw [hroom₂]
          split
          · exact h₂.sealPending
          · exact ⟨rfl, h₂⟩

theorem Mirrors.sealWhole (h : Mirrors w v) (data : Bytes) :
    (w.sealWhole data).Mirrors (v.sealWhole data) :=
  h.beginChunk.andThen fun _ _ hnext => (hnext.append data).sealPending

theorem Mirrors.fail (h : Mirrors w v) (f : Failure) : Mirrors (w.fail f) (v.fail f) := by
  obtain ⟨log, rfl⟩ := h
  exact ⟨log, rfl⟩

theorem Mirrors.write (h : Mirrors w v) (data : Bytes) :
    (v.write data).1 = (w.write data).1 ∧ Mirrors (w.write data).2 (v.write data).2 := by
  have hphase : v.phase = w.phase := by
    obtain ⟨log, rfl⟩ := h
    rfl
  have hlayout : v.layout = w.layout := by
    obtain ⟨log, rfl⟩ := h
    rfl
  unfold Writer.write
  rw [hphase, hlayout]
  cases w.phase with
  | closed => exact ⟨rfl, h⟩
  | failed f => exact ⟨rfl, h⟩
  | writing =>
      dsimp only
      split
      · exact ⟨rfl, h⟩
      · have hstep :
            Outcome.Mirrors
              (if w.layout.bufferSize = 0 then w.sealWhole data
                else Writer.fill data.length w data)
              (if w.layout.bufferSize = 0 then v.sealWhole data
                else Writer.fill data.length v data) := by
          split
          · exact h.sealWhole data
          · exact h.fill data.length data
        obtain ⟨answer, w₁, v₁, hw, hv, hwriters⟩ := hstep.cases
        rw [hw, hv]
        cases answer with
        | ok u => exact ⟨rfl, hwriters⟩
        | error f => exact ⟨rfl, hwriters.fail f⟩

theorem Mirrors.flush (h : Mirrors w v) : Mirrors w.flush.2 v.flush.2 := by
  obtain ⟨log, rfl⟩ := h
  obtain ⟨l, sealer, codec, sink, pending, next, phase⟩ := w
  unfold Writer.flush
  cases phase with
  | failed f => exact ⟨log, rfl⟩
  | writing | closed =>
      dsimp only
      cases sink.flush with
      | mk answer sink' => cases answer <;> exact ⟨log, rfl⟩

theorem Mirrors.performAll (h : Mirrors w v) {calls : List Call} {w' : Writer σ}
    (hcalls : w.performAll calls = some w') :
    ∃ v', v.performAll calls = some v' ∧ Mirrors w' v' := by
  induction calls generalizing w v with
  | nil =>
      obtain rfl := Option.some.inj hcalls
      exact ⟨v, rfl, h⟩
  | cons call calls ih =>
      cases call with
      | flush => exact ih h.flush hcalls
      | write data =>
          obtain ⟨hanswer, hwriters⟩ := h.write data
          simp only [Writer.performAll] at hcalls ⊢
          cases hw : w.write data with
          | mk answer w₁ =>
              cases hv : v.write data with
              | mk answer' v₁ =>
                  rw [hw, hv] at hanswer hwriters
                  obtain rfl : answer' = answer := hanswer
                  cases answer' with
                  | error f => simp [hw] at hcalls
                  | ok n =>
                      rw [hw] at hcalls
                      exact ih hwriters hcalls

theorem Mirrors.takeAll (h : Mirrors w v) {writes : List Bytes} {w' : Writer σ}
    (hwrites : w.takeAll writes = some w') :
    ∃ v', v.takeAll writes = some v' ∧ Mirrors w' v' := by
  rw [takeAll_eq_performAll] at hwrites ⊢
  exact h.performAll hwrites

theorem Mirrors.flushSink (h : Mirrors w v) : w.flushSink.Mirrors v.flushSink := by
  obtain ⟨log, rfl⟩ := h
  unfold Writer.flushSink
  cases w.sink.flush with
  | mk answer sink => cases answer <;> exact ⟨rfl, log, rfl⟩

theorem Mirrors.terminate (h : Mirrors w v) : w.terminate.Mirrors v.terminate := by
  have hlayout : v.layout = w.layout ∧ v.pending = w.pending := by
    obtain ⟨log, rfl⟩ := h
    exact ⟨rfl, rfl⟩
  unfold Writer.terminate
  rw [hlayout.1, hlayout.2]
  cases w.layout.length? with
  | none => exact h.sealPending
  | some form =>
      refine Outcome.Mirrors.andThen ?_ fun w₁ v₁ h₁ => ?_
      · split
        · exact ⟨rfl, h⟩
        · exact h.sealPending
      · have hseal (bs : Bytes) := (h₁.append bs).sealPending
        have hsend (bs : Bytes) := h₁.send bs
        obtain ⟨log, rfl⟩ := h₁
        dsimp only at hseal ⊢
        cases w₁.layout.counter? with
        | none =>
            dsimp only
            cases form.encode 0 with
            | error f => exact ⟨rfl, log, rfl⟩
            | ok bs => exact hsend bs
        | some counter =>
            dsimp only
            cases counter.encode 0 with
            | error f => exact ⟨rfl, log, rfl⟩
            | ok bs => exact hseal bs

theorem Mirrors.close (h : Mirrors w v) :
    v.close.1 = w.close.1 ∧ Mirrors w.close.2 v.close.2 := by
  have hphase : v.phase = w.phase := by
    obtain ⟨log, rfl⟩ := h
    rfl
  unfold Writer.close
  rw [hphase]
  cases w.phase with
  | closed => exact ⟨rfl, h⟩
  | failed f => exact ⟨rfl, h⟩
  | writing =>
      dsimp only
      have hend : (w.terminate.andThen Writer.flushSink).Mirrors
          (v.terminate.andThen Writer.flushSink) :=
        h.terminate.andThen fun _ _ hnext => hnext.flushSink
      obtain ⟨answer, w₁, v₁, hw, hv, hwriters⟩ := hend.cases
      rw [hw, hv]
      cases answer with
      | error f => exact ⟨rfl, hwriters.fail f⟩
      | ok u =>
          obtain ⟨log, rfl⟩ := hwriters
          exact ⟨rfl, log, rfl⟩

end Mirrors

theorem start_mirrors {sealer : Sealer σ} {codec : σ} {l : Layout} {sink : Sink}
    {w : Writer σ} (h : start sink sealer codec l = .ok w) :
    ∃ v, start sink sealer.recording ⟨codec, []⟩ l = .ok v ∧ Mirrors w v := by
  obtain ⟨hcheck, hwide, hroom, rfl⟩ := start_eq_ok_iff.1 h
  exact ⟨_, start_eq_ok_iff.2 ⟨hcheck, hwide, hroom, rfl⟩, [], rfl⟩

/-- Every completed run can be followed by a writer that keeps a record. -/
theorem Completes.recorded {sealer : Sealer σ} {codec : σ} {l : Layout} {sink : Sink}
    {writes : List Bytes} {final : Writer σ}
    (h : Completes sealer codec l sink writes final) :
    ∃ final', Completes sealer.recording ⟨codec, []⟩ l sink writes final' ∧
      Mirrors final final' := by
  obtain ⟨w, w', hstart, hwrites, hclose⟩ := h
  obtain ⟨v, hstart', hwriters⟩ := start_mirrors hstart
  obtain ⟨v', hwrites', hwriters'⟩ := hwriters.takeAll hwrites
  obtain ⟨hanswer, hfinal⟩ := hwriters'.close
  rw [hclose] at hanswer hfinal
  exact ⟨v'.close.2, ⟨v, v', hstart', hwrites', Prod.ext hanswer rfl⟩, hfinal⟩

end Writer

end SealedStream
