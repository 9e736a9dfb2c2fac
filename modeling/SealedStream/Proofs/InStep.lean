import SealedStream.Proofs.NonceSupply

/-!
# Counted codecs stay in step

A counted opener reads no nonce: it counts the chunks it has opened, as a counted sealer
counts the chunks it has sealed.  Let both start from the same counter value.  Handed what
the sealer puts out, in order, the opener opens each chunk to its text, and after each the
two have the same state: the same counter, and the same knowledge of whether its last value
has been used.

A chunk that is refused costs the opener nothing.  So forgeries may be slipped in between
the chunks, as many as one likes: neither the counter nor the answer to any other chunk
depends on them.
-/

namespace SealedStream

/-- A chunk as it is handed to an opener; a forged one has been slipped in. -/
structure Delivery where
  chunk : Bytes
  forged : Bool
  deriving DecidableEq, Repr

namespace Delivery

/-- The chunks that have not been slipped in. -/
def genuine (deliveries : List Delivery) : List Bytes :=
  (deliveries.filter fun d => !d.forged).map chunk

/-- Of the answers to these deliveries, those to the genuine chunks. -/
def answers (deliveries : List Delivery) (answers : List (Except Failure Bytes)) :
    List (Except Failure Bytes) :=
  ((deliveries.zip answers).filter fun pair => !pair.1.forged).map Prod.snd

/-- Each forged chunk has been refused as not authentic. -/
def Refused (deliveries : List Delivery) (answers : List (Except Failure Bytes)) : Prop :=
  ∀ pair ∈ deliveries.zip answers,
    pair.1.forged = true → pair.2 = .error .authenticationFailed

instance (deliveries : List Delivery) (answers : List (Except Failure Bytes)) :
    Decidable (Refused deliveries answers) :=
  inferInstanceAs (Decidable (∀ pair ∈ deliveries.zip answers,
    pair.1.forged = true → pair.2 = .error .authenticationFailed))

end Delivery

/-- Refusing a chunk as not authentic changes nothing. -/
def Opener.Unmoved {τ : Type} (opener : Opener τ) : Prop :=
  ∀ (t : τ) (chunk : Bytes), (opener.openChunk t chunk).1 = .error .authenticationFailed →
    (opener.openChunk t chunk).2 = t

/-- Deliveries that are refused leave no trace in a run: the other chunks are answered as if
they had been alone, and the state at the end is the same.  The induction is on the
deliveries, with the first state left open. -/
theorem Opener.Unmoved.callAll {τ : Type} {opener : Opener τ} (h : opener.Unmoved) (t : τ)
    (deliveries : List Delivery)
    (hrefused : Delivery.Refused deliveries
      (opener.callAll t (deliveries.map Delivery.chunk)).1) :
    opener.callAll t (Delivery.genuine deliveries) =
      (Delivery.answers deliveries (opener.callAll t (deliveries.map Delivery.chunk)).1,
        (opener.callAll t (deliveries.map Delivery.chunk)).2) := by
  induction deliveries generalizing t with
  | nil => rfl
  | cons d deliveries ih =>
      obtain ⟨hfirst, hlater⟩ := List.forall_mem_cons.1 hrefused
      have hrest := ih _ hlater
      cases hd : d.forged with
      | false =>
          simp only [Delivery.genuine, Delivery.answers, Opener.callAll, hd, List.map_cons,
            List.zip_cons_cons, Bool.not_false, List.filter_cons_of_pos] at hrest ⊢
          rw [hrest]
      | true =>
          -- The forged chunk has left the opener where it was.
          have hstill : (opener.openChunk t d.chunk).2 = t := h t d.chunk (hfirst hd)
          rw [hstill] at hrest
          simpa [Delivery.genuine, Delivery.answers, Opener.callAll, hd, hstill] using hrest

namespace Chunk

variable {a : Aead} {s : Counted}

/-- When a counted opener refuses a chunk as not authentic: as long as it is not exhausted,
exactly if the chunk is shorter than a tag or does not open under the counter. -/
theorem counted_refuses_iff (a : Aead) (s : Counted) (chunk : Bytes) :
    ((countedOpener a).openChunk s chunk).1 = .error .authenticationFailed ↔
      s.exhausted = false ∧
        (chunk.length < Aead.tagSize ∨ a.openText s.counter chunk = none) := by
  simp only [countedOpener]
  cases hexhausted : s.exhausted with
  | true => simp
  | false =>
      by_cases hshort : chunk.length < Aead.tagSize
      · simp [hshort]
      · cases hopen : a.openText s.counter chunk <;> simp [hshort]

theorem counted_unmoved (a : Aead) : (countedOpener a).Unmoved := by
  intro s chunk hrefused
  obtain ⟨hlive, hshort | hclosed⟩ := (counted_refuses_iff a s chunk).1 hrefused
  · simp [countedOpener, hlive, hshort]
  · simp [countedOpener, hlive, hclosed]

/-- An exhausted codec refuses every call, on either side. -/
theorem counted_exhausted (a : Aead) (h : s.exhausted = true) (bs : Bytes) :
    (countedSealer a).sealChunk s bs = (.error .nonceExhausted, s) ∧
      (countedOpener a).openChunk s bs = (.error .nonceExhausted, s) := by
  simp [countedSealer, countedOpener, h]

/-- The run: an opener in the state of the sealer opens what the sealer seals, and both come
to the same state.  A text that is not sealed moves neither of them. -/
theorem counted_lockstep (ha : a.Inverts) (hs : s.counter.length = a.nonceSize)
    (texts : List Bytes) :
    (countedOpener a).callAll s
        ((sealings texts ((countedSealer a).callAll s texts).1).map Sealing.chunk) =
      ((sealings texts ((countedSealer a).callAll s texts).1).map (.ok ·.text),
        ((countedSealer a).callAll s texts).2) := by
  induction texts generalizing s with
  | nil => rfl
  | cons text texts ih =>
      cases hseal : (countedSealer a).sealChunk s text with
      | mk answer s' =>
          cases answer with
          | ok chunk =>
              obtain ⟨-, hopen, hs'⟩ := counted_step ha hs hseal
              simp [Sealer.callAll, Opener.callAll, sealings, hseal, hopen, ih hs']
          | error f =>
              obtain rfl := counted_seal_error hseal
              simpa [Sealer.callAll, sealings, hseal] using ih hs

/-- Counted codecs that start from the same counter value stay in step.  Let the sealer be
called with any texts.  The opener, handed what has been sealed, opens every chunk to its
text and ends in the state of the sealer, counter and exhaustion alike; as the texts may
be any, the two agree after each chunk, and they are exhausted by the same one.  From then on
both refuse every call.

Chunks that the opener refuses as not authentic, because they are shorter than a tag or the
cipher does not open them under the counter, may be slipped in anywhere, into this run or
into any other: they move nothing, the other chunks are answered as without them, and the state
at the end is the same. -/
theorem counted_opener_in_step (ha : a.Inverts) {c : NonceCounter}
    (hstart : Counted.start a c = .ok s) (texts : List Bytes)
    {answers : List (Except Failure Bytes)} {last : Counted}
    (hrun : (countedSealer a).callAll s texts = (answers, last)) :
    (countedOpener a).callAll s ((sealings texts answers).map Sealing.chunk) =
      ((sealings texts answers).map (.ok ·.text), last) ∧
    (last.exhausted = true → ∀ bs,
      (countedSealer a).sealChunk last bs = (.error .nonceExhausted, last) ∧
        (countedOpener a).openChunk last bs = (.error .nonceExhausted, last)) ∧
    (∀ deliveries opened t,
      (countedOpener a).callAll s (deliveries.map Delivery.chunk) = (opened, t) →
      Delivery.genuine deliveries = (sealings texts answers).map Sealing.chunk →
      Delivery.Refused deliveries opened →
        Delivery.answers deliveries opened = (sealings texts answers).map (.ok ·.text) ∧
          t = last) ∧
    (∀ u deliveries opened t,
      (countedOpener a).callAll u (deliveries.map Delivery.chunk) = (opened, t) →
      Delivery.Refused deliveries opened →
        (countedOpener a).callAll u (Delivery.genuine deliveries) =
          (Delivery.answers deliveries opened, t)) ∧
    ∀ u chunk, (((countedOpener a).openChunk u chunk).1 = .error .authenticationFailed ↔
        u.exhausted = false ∧
          (chunk.length < Aead.tagSize ∨ a.openText u.counter chunk = none)) ∧
      (((countedOpener a).openChunk u chunk).1 = .error .authenticationFailed →
        ((countedOpener a).openChunk u chunk).2 = u) := by
  obtain ⟨hwidth, rfl, -⟩ := Counted.left_of_start hstart
  obtain rfl : ((countedSealer a).callAll s texts).1 = answers := congrArg Prod.fst hrun
  obtain rfl : ((countedSealer a).callAll s texts).2 = last := congrArg Prod.snd hrun
  have hstep := counted_lockstep ha hwidth texts
  have hwithout : ∀ (u : Counted) deliveries opened t,
      (countedOpener a).callAll u (deliveries.map Delivery.chunk) = (opened, t) →
      Delivery.Refused deliveries opened →
        (countedOpener a).callAll u (Delivery.genuine deliveries) =
          (Delivery.answers deliveries opened, t) := by
    intro u deliveries opened t hcalls hrefused
    have halone := (counted_unmoved a).callAll u deliveries
    rw [hcalls] at halone
    exact halone hrefused
  refine ⟨hstep, ?_, ?_, hwithout, ?_⟩
  · exact counted_exhausted a
  · intro deliveries opened t hcalls hgenuine hrefused
    have halone := hwithout s deliveries opened t hcalls hrefused
    rw [hgenuine, hstep] at halone
    exact ⟨(congrArg Prod.fst halone).symm, (congrArg Prod.snd halone).symm⟩
  · intro u chunk
    exact ⟨counted_refuses_iff a u chunk, counted_unmoved a u chunk⟩

/-- A cipher of one-byte nonces that leaves the text as it is and has the nonce in the tag. -/
def stamping : Aead :=
  .ofStream 1 (fun _ n => Bytes.zeros n)
    (fun nonce _ => (nonce ++ Bytes.zeros Aead.tagSize).take Aead.tagSize)

theorem inverts_stamping : stamping.Inverts := by
  apply Aead.inverts_ofStream
  · intro nonce n
    simp [Bytes.zeros]
  · intro nonce text
    simp [Bytes.zeros]

/-- Two chunks in order, an empty chunk before the first of them, and the first once more
before the second. -/
def sampleDeliveries : List Delivery :=
  [⟨[], true⟩, ⟨1 :: 0xfe :: Bytes.zeros 15, false⟩, ⟨1 :: 0xfe :: Bytes.zeros 15, true⟩,
    ⟨2 :: 0xff :: Bytes.zeros 15, false⟩]

/-- With two nonces left, two of three texts are sealed.  The opener refuses what has been
slipped in, opens both chunks and is exhausted with the sealer. -/
theorem stamping_in_step :
    ∃ s last answers opened, stamping.Inverts ∧ Counted.start stamping [0xfe] = .ok s ∧
      (countedSealer stamping).callAll s [[1], [2], [3]] = (answers, last) ∧
      answers = [.ok (1 :: 0xfe :: Bytes.zeros 15), .ok (2 :: 0xff :: Bytes.zeros 15),
        .error .nonceExhausted] ∧
      last.exhausted = true ∧
      (countedOpener stamping).callAll s (sampleDeliveries.map Delivery.chunk) =
        (opened, last) ∧
      Delivery.Refused sampleDeliveries opened ∧
      Delivery.answers sampleDeliveries opened = [.ok [1], .ok [2]] := by
  obtain ⟨-, -, hslipped, -⟩ := counted_opener_in_step (c := [0xfe]) inverts_stamping rfl
    [[1], [2], [3]] rfl
  have hrefused : Delivery.Refused sampleDeliveries
      ((countedOpener stamping).callAll ⟨[0xfe], false⟩
        (sampleDeliveries.map Delivery.chunk)).1 := by
    decide
  obtain ⟨hopened, -⟩ := hslipped sampleDeliveries _ _ rfl rfl hrefused
  exact ⟨_, _, _, _, inverts_stamping, rfl, rfl, rfl, rfl, rfl, hrefused, hopened⟩

end Chunk

end SealedStream
