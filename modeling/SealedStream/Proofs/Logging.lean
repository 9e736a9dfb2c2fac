import SealedStream.Proofs.ReaderLife

/-!
# Keeping a log of what is opened

An opener can keep every chunk that it is called with, whether it opens it or not.  A
reader with such an opener gives the same answers as the reader without it and takes the
same from its source.  `Reader.Mirrors` relates the two; every call keeps them related.

This rests on how frames are taken: of the opener, only its overhead is looked at.
-/

namespace SealedStream

/-- The state of an opener that keeps the chunks it is called with, oldest first. -/
structure Logged (σ : Type) where
  state : σ
  chunks : List Bytes

/-- The same opener, keeping every chunk that it is called with. -/
def Opener.logging {σ : Type} (opener : Opener σ) : Opener (Logged σ) where
  overhead := opener.overhead
  openChunk s chunk :=
    let (answer, state) := opener.openChunk s.state chunk
    (answer, ⟨state, s.chunks ++ [chunk]⟩)

namespace Reader

variable {σ τ : Type}

/-! ## Frames and the opener -/

/-- Taking a chunk of a known length is a matter of the source alone, and changes nothing
else. -/
theorem chunkOfLength_eq (source : Source) (declared : Nat) :
    ∃ answer rest, ∀ {τ : Type} (l : Layout) (opener : Opener τ) codec pending expected phase,
      chunkOfLength ⟨l, opener, codec, source, pending, expected, phase⟩ declared =
        (answer, ⟨l, opener, codec, rest, pending, expected, phase⟩) := by
  unfold chunkOfLength
  dsimp only
  cases source.gather declared with
  | mk answer rest => cases answer <;> exact ⟨_, rest, fun _ _ _ _ _ _ => rfl⟩

/-- Taking a frame is a matter of the layout, the overhead and the source, and changes
nothing but the source. -/
theorem nextFrame_eq (l : Layout) (overhead : Nat) (source : Source) :
    ∃ answer rest, ∀ {τ : Type} (openChunk : τ → Bytes → Except Failure Bytes × τ)
        codec pending expected phase,
      nextFrame ⟨l, ⟨overhead, openChunk⟩, codec, source, pending, expected, phase⟩ =
        (answer, ⟨l, ⟨overhead, openChunk⟩, codec, rest, pending, expected, phase⟩) := by
  unfold nextFrame
  dsimp only
  cases l.length? with
  | none =>
      simp only [fixedFrame, fillBuffer, fullChunk]
      by_cases hroom : l.Allocatable overhead
      · simp only [hroom, if_true]
        cases source.gather (l.bufferSize + overhead) with
        | mk answer rest =>
            cases answer with
            | error e => exact ⟨_, rest, fun _ _ _ _ _ => rfl⟩
            | ok bs =>
                exact ⟨.ok (if bs.length = l.bufferSize + overhead then .chunk bs
                  else if bs.isEmpty ∧ 0 < overhead then .endOfInput else .lastChunk bs),
                  rest, fun _ _ _ _ _ => rfl⟩
      · simp only [hroom, if_false]
        exact ⟨_, source, fun _ _ _ _ _ => rfl⟩
  | some form =>
      simp only [lengthFrame]
      cases form.fromSource source with
      | mk answer rest =>
          cases answer with
          | error f => exact ⟨_, rest, fun _ _ _ _ _ => rfl⟩
          | ok found =>
              cases found with
              | none => exact ⟨_, rest, fun _ _ _ _ _ => rfl⟩
              | some declared =>
                  dsimp only
                  by_cases hend : declared = 0 ∧ l.counter? = none
                  · simp only [if_pos hend]
                    exact ⟨_, rest, fun _ _ _ _ _ => rfl⟩
                  · simp only [if_neg hend]
                    cases exceeded? (l.chunkLimit? overhead) declared with
                    | some limit => exact ⟨_, rest, fun _ _ _ _ _ => rfl⟩
                    | none =>
                        obtain ⟨answer, rest', heq⟩ := chunkOfLength_eq rest declared
                        exact ⟨answer, rest', fun _ _ _ _ _ => heq _ _ _ _ _ _⟩

/-! ## The reader with the log -/

/-- The second reader is the first one with a log kept by its opener. -/
def Mirrors (r : Reader σ) (v : Reader (Logged σ)) : Prop :=
  ∃ log : List Bytes, v =
    ⟨r.layout, r.opener.logging, ⟨r.codec, log⟩, r.source, r.pending, r.expected, r.phase⟩

/-- The same answer, and readers that differ in the log alone. -/
def Echoes {α : Type} (x : Except Failure α × Reader σ)
    (y : Except Failure α × Reader (Logged σ)) : Prop :=
  y.1 = x.1 ∧ Mirrors x.2 y.2

theorem Echoes.cases {α : Type} {x : Except Failure α × Reader σ}
    {y : Except Failure α × Reader (Logged σ)} (h : Echoes x y) :
    ∃ answer r v, x = (answer, r) ∧ y = (answer, v) ∧ Mirrors r v := by
  obtain ⟨answer, r⟩ := x
  obtain ⟨answer', v⟩ := y
  obtain ⟨hanswer, hreaders⟩ := h
  exact ⟨answer, r, v, rfl, by rw [show answer' = answer from hanswer], hreaders⟩

section Mirrors

variable {r : Reader σ} {v : Reader (Logged σ)}

theorem Mirrors.phase_eq (h : Mirrors r v) : v.phase = r.phase := by
  obtain ⟨log, rfl⟩ := h
  rfl

theorem Mirrors.fail (h : Mirrors r v) (f : Failure) : Mirrors (r.fail f) (v.fail f) := by
  obtain ⟨log, rfl⟩ := h
  exact ⟨log, rfl⟩

theorem Mirrors.terminate (h : Mirrors r v) : Mirrors r.terminate v.terminate := by
  obtain ⟨log, rfl⟩ := h
  exact ⟨log, rfl⟩

theorem Mirrors.deliver (h : Mirrors r v) (n : Nat) :
    (v.deliver n).1 = (r.deliver n).1 ∧ Mirrors (r.deliver n).2 (v.deliver n).2 := by
  obtain ⟨log, rfl⟩ := h
  exact ⟨rfl, log, rfl⟩

theorem Mirrors.nextFrame (h : Mirrors r v) : Echoes r.nextFrame v.nextFrame := by
  obtain ⟨log, rfl⟩ := h
  obtain ⟨answer, rest, heq⟩ := nextFrame_eq r.layout r.opener.overhead r.source
  have hplain : r.nextFrame = (answer, { r with source := rest }) :=
    heq r.opener.openChunk r.codec r.pending r.expected r.phase
  have hlogged := heq r.opener.logging.openChunk ⟨r.codec, log⟩ r.pending r.expected r.phase
  rw [hplain]
  exact ⟨congrArg Prod.fst hlogged, log, congrArg Prod.snd hlogged⟩

theorem Mirrors.acceptNumbered (h : Mirrors r v) (form : IntForm) (text : Bytes) :
    Echoes (r.acceptNumbered form text) (v.acceptNumbered form text) := by
  obtain ⟨log, rfl⟩ := h
  unfold Reader.acceptNumbered
  cases form.decode text with
  | error f => exact ⟨rfl, log, rfl⟩
  | ok pair =>
      obtain ⟨found, used⟩ := pair
      dsimp only
      by_cases hzero : found = 0
      · simp only [if_pos hzero]
        by_cases hused : used = text.length
        · simp only [if_pos hused]
          exact ⟨rfl, log, rfl⟩
        · simp only [if_neg hused]
          exact ⟨rfl, log, rfl⟩
      · simp only [if_neg hzero]
        by_cases hdue : found = r.expected
        · simp only [if_pos hdue]
          exact ⟨rfl, log, rfl⟩
        · simp only [if_neg hdue]
          exact ⟨rfl, log, rfl⟩

/-- The chunk goes into the log, opened or not. -/
theorem Mirrors.acceptChunk (h : Mirrors r v) (chunk : Bytes) :
    Echoes (r.acceptChunk chunk) (v.acceptChunk chunk) := by
  obtain ⟨log, rfl⟩ := h
  cases hopen : r.opener.openChunk r.codec chunk with
  | mk answer codec =>
      have hlogged : r.opener.logging.openChunk ⟨r.codec, log⟩ chunk =
          (answer, ⟨codec, log ++ [chunk]⟩) := by
        simp only [Opener.logging, hopen]
      have hopened : Mirrors { r with codec := codec }
          ⟨r.layout, r.opener.logging, ⟨codec, log ++ [chunk]⟩, r.source, r.pending,
            r.expected, r.phase⟩ :=
        ⟨log ++ [chunk], rfl⟩
      unfold Reader.acceptChunk
      dsimp only
      rw [hopen, hlogged]
      cases answer with
      | error f => exact ⟨rfl, hopened⟩
      | ok text =>
          dsimp only
          cases r.layout.counter? with
          | none => exact ⟨rfl, log ++ [chunk], rfl⟩
          | some form => exact hopened.acceptNumbered form text

theorem Mirrors.pull (h : Mirrors r v) : Echoes r.pull v.pull := by
  unfold Reader.pull
  obtain ⟨answer, r₁, v₁, hr, hv, hreaders⟩ := h.nextFrame.cases
  rw [hr, hv]
  cases answer with
  | error f => exact ⟨rfl, hreaders⟩
  | ok frame =>
      cases frame with
      | endOfInput => exact ⟨rfl, hreaders⟩
      | terminator => exact ⟨rfl, hreaders.terminate⟩
      | chunk bs => exact hreaders.acceptChunk bs
      | lastChunk bs =>
          obtain ⟨answer, r₂, v₂, hr, hv, hreaders⟩ := (hreaders.acceptChunk bs).cases
          dsimp only
          rw [hr, hv]
          cases answer with
          | error f => exact ⟨rfl, hreaders⟩
          | ok u => exact ⟨rfl, hreaders.terminate⟩

/-- The induction is on the frames that may still be pulled. -/
theorem Mirrors.supply (h : Mirrors r v) (k want : Nat) (got : Bytes) :
    Echoes (supply k want got r) (supply k want got v) := by
  induction k generalizing r v want got with
  | zero =>
      obtain ⟨hout, hreaders⟩ := h.deliver want
      exact ⟨congrArg (fun out => Except.ok (got ++ out)) hout, hreaders⟩
  | succ k ih =>
      obtain ⟨hout, hreaders⟩ := h.deliver want
      simp only [Reader.supply, hout, hreaders.phase_eq]
      split
      · exact ⟨rfl, hreaders⟩
      · obtain ⟨answer, r₁, v₁, hr, hv, hnext⟩ := hreaders.pull.cases
        rw [hr, hv]
        cases answer with
        | error f => exact ⟨rfl, hnext.fail f⟩
        | ok u => exact ih hnext _ _

theorem Mirrors.read (h : Mirrors r v) (n : Nat) : Echoes (r.read n) (v.read n) := by
  have hsource : v.source = r.source := by
    obtain ⟨log, rfl⟩ := h
    rfl
  unfold Reader.read
  rw [h.phase_eq, hsource]
  cases r.phase with
  | reading | terminated => exact h.supply _ n []
  | closed | failed => exact ⟨rfl, h⟩

theorem Mirrors.close (h : Mirrors r v) : Echoes r.close v.close := by
  unfold Reader.close
  rw [h.phase_eq]
  cases r.phase with
  | reading => exact ⟨rfl, h.fail .streamTruncated⟩
  | closed | failed => exact ⟨rfl, h⟩
  | terminated =>
      obtain ⟨log, rfl⟩ := h
      exact ⟨rfl, log, rfl⟩

theorem Mirrors.serve (h : Mirrors r v) (request : Request) :
    Mirrors (r.serve request) (v.serve request) := by
  cases request with
  | read n => exact (h.read n).2
  | readSome n =>
      simp only [Reader.serve, readSome_eq]
      exact (h.read n).2
  | close => exact h.close.2

/-- The readers stay related through calls of any kind. -/
theorem Mirrors.serveAll (h : Mirrors r v) (requests : List Request) :
    Mirrors (r.serveAll requests) (v.serveAll requests) := by
  induction requests generalizing r v with
  | nil => exact h
  | cons request requests ih => exact ih (h.serve request)

end Mirrors

end Reader

end SealedStream
