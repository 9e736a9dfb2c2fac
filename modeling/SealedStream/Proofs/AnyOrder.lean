import SealedStream.Proofs.ChunkCalls
import SealedStream.Proofs.SharedKey

/-!
# Drawn nonces go with their chunks

Under drawn nonces a chunk carries its nonce at its end.  What a call of the sealer comes to
depends on its own text and its own draw, and on nothing that has happened before: a draw that
fails is the answer to its call, and the next call draws again.

So the opener needs to know nothing of the other chunks.  It opens those of a run in any order,
each as often as it is asked to.
-/

namespace SealedStream

variable {ρ : Type}

theorem Suite.nonceSize_aead (suite : Suite) (key : Bytes) :
    (suite.aead key).nonceSize = suite.nonceSize := by
  cases suite <;> rfl

namespace Entropy

/-- The answers to `k` requests for `n` bytes, made one after another, also after one that has
failed, and the state of the source after them. -/
def drawAll (entropy : Entropy ρ) (n : Nat) :
    (k : Nat) → ρ → List (Except Failure Bytes) × ρ
  | 0, s => ([], s)
  | k + 1, s =>
      let draw := entropy.draw s n
      let rest := drawAll entropy n k draw.2
      (draw.1 :: rest.1, rest.2)

theorem drawAll_take (entropy : Entropy ρ) {n i k : Nat} (h : i ≤ k) (s : ρ) :
    (entropy.drawAll n k s).1.take i = (entropy.drawAll n i s).1 := by
  induction i generalizing k s with
  | zero => rfl
  | succ i ih =>
      obtain ⟨k, rfl⟩ := Nat.exists_eq_succ_of_ne_zero (show k ≠ 0 by omega)
      simp only [drawAll, List.take_succ_cons, ih (Nat.le_of_succ_le_succ h)]

theorem length_of_mem_drawAll {entropy : Entropy ρ} {n k : Nat} {s : ρ} {nonce : Bytes}
    (h : .ok nonce ∈ (entropy.drawAll n k s).1) : nonce.length = n := by
  induction k generalizing s with
  | zero => simp [drawAll] at h
  | succ k ih =>
      rcases List.mem_cons.1 h with hfirst | hlater
      · exact entropy.length_draw (Prod.ext hfirst.symm rfl)
      · exact ih hlater

end Entropy

/-- What a call comes to whose draw was answered like this: the sealed text with the nonce
behind it, or the failure of the draw. -/
def Aead.answerDrawn (a : Aead) (draw : Except Failure Bytes) (text : Bytes) :
    Except Failure Bytes :=
  match draw with
  | .error f => .error f
  | .ok nonce => (a.answer nonce text).map (· ++ nonce)

/-- A call that seals its chunk has had its draw answered. -/
theorem Aead.exists_of_answerDrawn {a : Aead} {draw : Except Failure Bytes}
    {text chunk : Bytes} (h : a.answerDrawn draw text = .ok chunk) :
    ∃ nonce sealed, draw = .ok nonce ∧ a.sealText nonce text = some sealed ∧
      chunk = sealed ++ nonce := by
  cases draw with
  | error f => simp [Aead.answerDrawn] at h
  | ok nonce =>
      cases hanswer : a.answer nonce text with
      | error f => simp [Aead.answerDrawn, hanswer, Except.map] at h
      | ok sealed =>
          simp only [Aead.answerDrawn, hanswer, Except.map, Except.ok.injEq] at h
          exact ⟨nonce, sealed, rfl, Aead.sealText_of_answer hanswer, h.symm⟩

/-- What has been sealed in a run has been sealed by a call. -/
theorem exists_call_of_mem_sealings {σ : Type} {sealer : Sealer σ} {s : σ} {texts : List Bytes}
    {c : Sealing} (h : c ∈ sealings texts (sealer.callAll s texts).1) :
    ∃ s₁ s₂, sealer.sealChunk s₁ c.text = (.ok c.chunk, s₂) := by
  induction texts generalizing s with
  | nil => simp [sealings] at h
  | cons text texts ih =>
      cases hseal : sealer.sealChunk s text with
      | mk answer s' =>
          cases answer with
          | error f =>
              simp only [Sealer.callAll, hseal, sealings] at h
              exact ih h
          | ok chunk =>
              simp only [Sealer.callAll, hseal, sealings] at h
              rcases List.mem_cons.1 h with rfl | hlater
              · exact ⟨s, s', hseal⟩
              · exact ih hlater

namespace Chunk

variable {a : Aead} {entropy : Entropy ρ}

/-- The step: a call is answered from its own draw and its own text.  The draw is used up in
any case, and the chunk counts if there is one. -/
theorem drawn_call (a : Aead) (entropy : Entropy ρ) (s : Drawn ρ) (text : Bytes) :
    (drawnSealer a entropy).sealChunk s text =
      (a.answerDrawn (entropy.draw s.source a.nonceSize).1 text,
        ⟨(entropy.draw s.source a.nonceSize).2, s.sealed +
          if (a.answerDrawn (entropy.draw s.source a.nonceSize).1 text).isOk then 1 else 0⟩) := by
  cases hdraw : entropy.draw s.source a.nonceSize with
  | mk answer source =>
      cases answer with
      | error f => simp [drawnSealer, Aead.answerDrawn, hdraw, Except.isOk, Except.toBool]
      | ok nonce =>
          cases hseal : a.sealText nonce text with
          | none =>
              simp [drawnSealer, Aead.answerDrawn, Aead.answer, hdraw, hseal, Except.map,
                Except.isOk, Except.toBool]
          | some chunk =>
              simp [drawnSealer, Aead.answerDrawn, Aead.answer, hdraw, hseal, Except.map,
                Except.isOk, Except.toBool]

/-- The run: so many draws are made as there are texts, and each text is answered from the draw
in its place. -/
theorem drawn_callAll (a : Aead) (entropy : Entropy ρ) (s : Drawn ρ) (texts : List Bytes) :
    let draws := entropy.drawAll a.nonceSize texts.length s.source
    let answers := List.zipWith a.answerDrawn draws.1 texts
    (drawnSealer a entropy).callAll s texts =
      (answers, ⟨draws.2, s.sealed + answers.countP (·.isOk)⟩) := by
  induction texts generalizing s with
  | nil => rfl
  | cons text texts ih =>
      simp only [Sealer.callAll, drawn_call, ih, Entropy.drawAll, List.length_cons,
        List.zipWith_cons_cons, List.countP_cons]
      congr 2
      omega

/-- What has been sealed in a run is longer than its text by the overhead, and is opened to it. -/
theorem drawn_sealings (ha : a.Inverts) (entropy : Entropy ρ) (s : Drawn ρ)
    (texts : List Bytes) {c : Sealing}
    (hc : c ∈ sealings texts ((drawnSealer a entropy).callAll s texts).1) :
    c.chunk.length = c.text.length + (Aead.tagSize + a.nonceSize) ∧
      openDrawn a c.chunk = .ok c.text := by
  obtain ⟨s₁, s₂, hseal⟩ := exists_call_of_mem_sealings hc
  exact drawn_step ha hseal

/-- What a call has sealed whose draw was answered with a nonce of the right size. -/
theorem drawn_answer_ok (ha : a.Inverts) {draw : Except Failure Bytes} {k : Nat} {s : ρ}
    (hdraw : draw ∈ (entropy.drawAll a.nonceSize k s).1) {text chunk : Bytes}
    (h : a.answerDrawn draw text = .ok chunk) :
    ∃ nonce sealed, draw = .ok nonce ∧ nonce.length = a.nonceSize ∧
      a.sealText nonce text = some sealed ∧ chunk = sealed ++ nonce ∧
      chunk.length = text.length + (Aead.tagSize + a.nonceSize) := by
  obtain ⟨nonce, sealed, rfl, hseal, rfl⟩ := Aead.exists_of_answerDrawn h
  have hnonce := Entropy.length_of_mem_drawAll hdraw
  have hlength : sealed.length = text.length + Aead.tagSize := (ha hnonce hseal).1
  refine ⟨nonce, sealed, rfl, hnonce, hseal, rfl, ?_⟩
  rw [List.length_append, hlength, hnonce, Nat.add_assoc]

theorem openDrawn_short {chunk : Bytes} (h : chunk.length < a.nonceSize) :
    openDrawn a chunk = .error .nonceInvalid := by
  simp [openDrawn, h]

theorem openDrawn_tagless {chunk : Bytes} (hnonce : a.nonceSize ≤ chunk.length)
    (htag : chunk.length < a.nonceSize + Aead.tagSize) :
    openDrawn a chunk = .error .authenticationFailed := by
  simp [openDrawn, Nat.not_lt.2 hnonce, htag]

end Chunk

namespace Key

variable {k : Key} {entropy : Entropy ρ}

/-- A sealer of a key with drawn nonces goes on as the sealer of its cipher does. -/
theorem callAll_drawn (k : Key) (mode : NonceMode) (entropy : Entropy ρ) (s : Chunk.Drawn ρ)
    (texts : List Bytes) :
    (k.sealer mode entropy).callAll (.drawn s) texts =
      (((Chunk.drawnSealer k.aead entropy).callAll s texts).1,
        .drawn ((Chunk.drawnSealer k.aead entropy).callAll s texts).2) := by
  induction texts generalizing s with
  | nil => rfl
  | cons text texts ih =>
      have hfirst : (k.sealer mode entropy).sealChunk (.drawn s) text =
          (((Chunk.drawnSealer k.aead entropy).sealChunk s text).1,
            .drawn ((Chunk.drawnSealer k.aead entropy).sealChunk s text).2) := rfl
      simp only [Sealer.callAll, hfirst, ih]

/-- An opener of a key with drawn nonces opens any number of chunks, one after another, each as
it would alone. -/
theorem openAll_drawn (k : Key) (mode : NonceMode) (chunks : List Bytes) :
    (k.opener mode).callAll .drawn chunks = (chunks.map (Chunk.openDrawn k.aead), .drawn) := by
  induction chunks with
  | nil => rfl
  | cons chunk chunks ih =>
      have hfirst : (k.opener mode).openChunk .drawn chunk =
          (Chunk.openDrawn k.aead chunk, .drawn) := rfl
      simp only [Opener.callAll, hfirst, ih, List.map_cons]

/-- Drawn nonces make every chunk independent of the others.  Let a sealer of a key be called
with any texts, whatever the source of its nonces does.

Each call is answered from its own text and its own draw.  A chunk that is sealed is the text
sealed under the nonce drawn for it, with the nonce behind it, and so longer than the text by
the overhead.  A draw that fails is the answer to its call.  After any number of calls, the
sealer has counted those that have sealed their chunk.

An opener of the key opens whatever is picked from the chunks, in any order and any number of
times, each to its own text.

And of any bytes at all the opener says the same each time: that there is no nonce if they are
shorter than one, that they are not authentic if they are too short for a nonce and a tag, and
otherwise what the cipher says of all but the last of them under the nonce that these are. -/
theorem drawn_chunks_stand_alone (k : Key) (entropy : Entropy ρ) (source : ρ)
    (texts : List Bytes) {draws answers : List (Except Failure Bytes)}
    (hdraws : (entropy.drawAll k.suite.nonceSize texts.length source).1 = draws)
    (hanswers : ((k.sealer .random entropy).callAll (k.sealState .random source) texts).1 =
      answers) :
    answers = List.zipWith k.aead.answerDrawn draws texts ∧
    (∀ (i : Nat) text chunk, texts[i]? = some text → answers[i]? = some (.ok chunk) →
      ∃ nonce sealed, draws[i]? = some (.ok nonce) ∧ nonce.length = k.suite.nonceSize ∧
        k.aead.sealText nonce text = some sealed ∧ chunk = sealed ++ nonce ∧
        chunk.length = text.length + (k.sealer .random entropy).overhead) ∧
    (∀ (i : Nat) text f, texts[i]? = some text → draws[i]? = some (.error f) →
      answers[i]? = some (.error f)) ∧
    (∀ i, i ≤ texts.length →
      ((k.sealer .random entropy).callAll (k.sealState .random source) (texts.take i)).2 =
        .drawn ⟨(entropy.drawAll k.suite.nonceSize i source).2, sealedBefore answers i⟩) ∧
    (∀ picks : List Sealing, (∀ c ∈ picks, c ∈ sealings texts answers) →
      (k.opener .random).callAll (k.openState .random) (picks.map Sealing.chunk) =
        (picks.map (.ok ·.text), k.openState .random)) ∧
    (∀ chunk : Bytes, chunk.length < k.suite.nonceSize →
      (k.opener .random).openChunk (k.openState .random) chunk =
        (.error .nonceInvalid, k.openState .random)) ∧
    (∀ chunk : Bytes, k.suite.nonceSize ≤ chunk.length →
      chunk.length < k.suite.nonceSize + Aead.tagSize →
        (k.opener .random).openChunk (k.openState .random) chunk =
          (.error .authenticationFailed, k.openState .random)) ∧
    ∀ sealed nonce : Bytes, nonce.length = k.suite.nonceSize → Aead.tagSize ≤ sealed.length →
      (k.opener .random).openChunk (k.openState .random) (sealed ++ nonce) =
        ((k.aead.openText nonce sealed).elim (.error .authenticationFailed) .ok,
          k.openState .random) := by
  have hsize : k.aead.nonceSize = k.suite.nonceSize := k.suite.nonceSize_aead k.bytes
  have ha : k.aead.Inverts := k.suite.inverts_aead k.bytes
  rw [← hsize] at hdraws ⊢
  have hrun (texts : List Bytes) : (k.sealer .random entropy).callAll
      (k.sealState .random source) texts = _ :=
    (k.callAll_drawn .random entropy ⟨source, 0⟩ texts).trans (by rw [Chunk.drawn_callAll])
  have hzip : answers = List.zipWith k.aead.answerDrawn draws texts := by
    rw [← hanswers, hrun, hdraws]
  have hcall : ∀ {i : Nat} {text : Bytes}, texts[i]? = some text →
      answers[i]? = draws[i]?.map (k.aead.answerDrawn · text) := by
    intro i text hi
    rw [hzip, List.getElem?_zipWith, hi]
    cases draws[i]? <;> rfl
  refine ⟨hzip, ?_, ?_, ?_, ?_, ?_, ?_, ?_⟩
  · intro i text chunk htext hchunk
    rw [hcall htext, Option.map_eq_some_iff] at hchunk
    obtain ⟨draw, hdraw, hanswer⟩ := hchunk
    have hmem := List.mem_of_getElem? hdraw
    rw [← hdraws] at hmem
    obtain ⟨nonce, sealed, rfl, hsealed⟩ := Chunk.drawn_answer_ok ha hmem hanswer
    exact ⟨nonce, sealed, hdraw, hsealed⟩
  · intro i text f htext hdraw
    rw [hcall htext, hdraw]
    rfl
  · intro i hi
    have hfirst : List.zipWith k.aead.answerDrawn
        (entropy.drawAll k.aead.nonceSize i source).1 (texts.take i) = answers.take i := by
      rw [hzip, List.take_zipWith, ← hdraws, Entropy.drawAll_take entropy hi]
    rw [hrun, List.length_take, Nat.min_eq_left hi]
    simp only [hfirst, Nat.zero_add, sealedBefore]
  · intro picks hpicks
    have hopens : ∀ c ∈ picks, Chunk.openDrawn k.aead c.chunk = .ok c.text := by
      intro c hc
      refine (Chunk.drawn_sealings ha entropy ⟨source, 0⟩ texts ?_).2
      have hmem := hpicks c hc
      rw [← hanswers] at hmem
      rwa [show k.sealState .random source = .drawn ⟨source, 0⟩ from rfl, callAll_drawn] at hmem
    refine (k.openAll_drawn .random _).trans ?_
    rw [List.map_map]
    exact congrArg (·, _) (List.map_congr_left hopens)
  · intro chunk hshort
    exact congrArg (·, _) (Chunk.openDrawn_short hshort)
  · intro chunk hnonce htag
    exact congrArg (·, _) (Chunk.openDrawn_tagless hnonce htag)
  · intro sealed nonce hnonce htag
    exact congrArg (·, _) (Chunk.openDrawn_append hnonce htag)

/-- A source that goes by a list: each entry answers one request, with a byte repeated or with
a failure. -/
def faltering : Entropy (List (Option UInt8)) where
  draw
    | [], _ => (.error (.random "no entropy left"), [])
    | none :: later, _ => (.error (.random "entropy faltered"), later)
    | some b :: later, n => (.ok (List.replicate n b), later)
  length_draw := by
    intro script later n bs h
    match script with
    | [] | none :: _ => simp at h
    | some b :: _ =>
        simp only [Prod.mk.injEq, Except.ok.injEq] at h
        rw [← h.1, List.length_replicate]

/-- The second of three draws fails, and the second text is not sealed.  Of the two chunks, the
later one is opened, then the earlier one, then the later one again. -/
theorem faltering_chunks_open_swapped :
    ∃ first third : Bytes,
      ((zeroKey.sealer .random faltering).callAll
        (zeroKey.sealState .random [some 1, none, some 2]) [[97], [98], [99]]).1 =
          [.ok first, .error (.random "entropy faltered"), .ok third] ∧
      (zeroKey.opener .random).callAll (zeroKey.openState .random) [third, first, third] =
        ([.ok [99], .ok [97], .ok [99]], zeroKey.openState .random) := by
  obtain ⟨first, third, hanswers⟩ : ∃ first third : Bytes,
      ((zeroKey.sealer .random faltering).callAll
        (zeroKey.sealState .random [some 1, none, some 2]) [[97], [98], [99]]).1 =
          [.ok first, .error (.random "entropy faltered"), .ok third] := ⟨_, _, rfl⟩
  obtain ⟨-, -, -, -, hopens, -⟩ := zeroKey.drawn_chunks_stand_alone faltering
    [some 1, none, some 2] [[97], [98], [99]] rfl hanswers
  refine ⟨first, third, hanswers, hopens [⟨[99], third⟩, ⟨[97], first⟩, ⟨[99], third⟩] ?_⟩
  simp [sealings]

end Key

end SealedStream
