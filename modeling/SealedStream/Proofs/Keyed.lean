import Mathlib.Tactic.Linarith
import SealedStream.Key
import SealedStream.Proofs.Record

/-!
# The codecs of a key match

Every cipher here gives back what it has sealed, under any nonce of its size,
and adds a tag of sixteen bytes.  From this alone the counted and the drawn
codecs of a key match: counted nonces stay in step because both sides move on
exactly when a call succeeds, and a drawn nonce travels with its chunk.
-/

namespace SealedStream

namespace Aead

/-- Opening gives back what was sealed, and sealing adds a tag. -/
def Inverts (a : Aead) : Prop :=
  ∀ {nonce text chunk : Bytes}, nonce.length = a.nonceSize →
    a.sealText nonce text = some chunk →
      chunk.length = text.length + tagSize ∧
        a.openText nonce chunk = some text

/-- A keystream that is long enough can be taken off again. -/
theorem checkAndUnmask_maskAndTag {keystream : Bytes → Nat → Bytes}
    {tag : Bytes → Bytes → Bytes}
    (hkeystream : ∀ nonce n, n ≤ (keystream nonce n).length)
    (htag : ∀ nonce text, (tag nonce text).length = tagSize)
    (nonce text : Bytes) :
    (maskAndTag keystream tag nonce text).length = text.length + tagSize ∧
      checkAndUnmask keystream tag nonce (maskAndTag keystream tag nonce text) =
        some text := by
  have hmasked : (Bytes.xor text (keystream nonce text.length)).length =
      text.length := by
    rw [Bytes.length_xor, Nat.min_eq_left (hkeystream nonce _)]
  have hlength : (maskAndTag keystream tag nonce text).length =
      text.length + tagSize := by
    simp [maskAndTag, hmasked, htag]
  have htake : (maskAndTag keystream tag nonce text).take text.length =
      Bytes.xor text (keystream nonce text.length) := by
    simp only [maskAndTag, List.take_left' hmasked]
  have hdrop : (maskAndTag keystream tag nonce text).drop text.length =
      tag nonce (Bytes.xor text (keystream nonce text.length)) := by
    simp only [maskAndTag, List.drop_left' hmasked]
  have hcut : (maskAndTag keystream tag nonce text).length - tagSize =
      text.length := by
    omega
  have hlong : tagSize ≤ (maskAndTag keystream tag nonce text).length := by
    omega
  refine ⟨hlength, ?_⟩
  simp only [checkAndUnmask, hcut, htake, hdrop, hlong, and_self, if_true,
    Bytes.xor_xor_cancel _ _ (hkeystream nonce _)]

theorem inverts_ofStream {nonceSize : Nat} {keystream : Bytes → Nat → Bytes}
    {tag : Bytes → Bytes → Bytes}
    (hkeystream : ∀ nonce n, n ≤ (keystream nonce n).length)
    (htag : ∀ nonce text, (tag nonce text).length = tagSize) :
    (ofStream nonceSize keystream tag).Inverts := by
  intro nonce text chunk _ hseal
  obtain rfl := Option.some.inj hseal
  exact checkAndUnmask_maskAndTag hkeystream htag nonce text

end Aead

theorem ChaCha20.length_block (k : Nat) (s : ChaCha20.State) :
    (ChaCha20.block k s).length = 64 := by
  simp [ChaCha20.block, ChaCha20.State.bytes, ChaCha20.Row.bytes]

/-- A keystream is as long as its blocks together. -/
theorem length_blocks {block : Nat → Bytes} {size : Nat}
    (hblock : ∀ i, (block i).length = size) (n : Nat) :
    ((List.range n).flatMap block).length = size * n := by
  simp [List.length_flatMap, hblock, List.map_const', Nat.mul_comm]

theorem ChaCha20.length_keystream (key nonce : Bytes) (start n : Nat) :
    (ChaCha20.keystream key nonce start n).length = 64 * n :=
  length_blocks (fun _ => ChaCha20.length_block _ _) n

theorem Gcm.length_keystream (keys : Aes.Schedule) (nonce : Bytes) (n : Nat) :
    (Gcm.keystream keys nonce n).length = 16 * n :=
  length_blocks (fun _ => by simp [Aes.Block.bytes, Aes.Column.bytes]) n

namespace Aead

theorem inverts_chacha20Poly1305 (key : Bytes) : (chacha20Poly1305 key).Inverts := by
  apply inverts_ofStream
  · intro nonce n
    rw [ChaCha20.length_keystream]
    omega
  · intro nonce text
    exact Poly1305.length_tag _ _

theorem inverts_xchacha20Poly1305 (key : Bytes) :
    (xchacha20Poly1305 key).Inverts := by
  intro nonce text chunk hnonce hseal
  have hsize : nonce.length = 24 := hnonce
  have hshort : (shortNonce nonce).length = 12 := by
    simp [shortNonce, Bytes.zeros, hsize]
  exact inverts_chacha20Poly1305 _ hshort hseal

theorem inverts_aesGcm (key : Bytes) : (aesGcm key).Inverts := by
  apply inverts_ofStream
  · intro nonce n
    rw [Gcm.length_keystream]
    omega
  · intro nonce text
    exact Gcm.length_tag _ _ _ _

end Aead

/-- The cipher of every suite gives back what it has sealed. -/
theorem Suite.inverts_aead (suite : Suite) (key : Bytes) :
    (suite.aead key).Inverts := by
  cases suite with
  | chacha20Poly1305 => exact Aead.inverts_chacha20Poly1305 key
  | xchacha20Poly1305 => exact Aead.inverts_xchacha20Poly1305 key
  | aes128Gcm | aes256Gcm => exact Aead.inverts_aesGcm key

namespace NonceCounter

theorem length_carry (c : Bytes) : (carry c).length = c.length := by
  induction c with
  | nil => rfl
  | cons b bs ih =>
      unfold carry
      split <;> simp [ih]

theorem length_of_next {c c' : NonceCounter} (h : c.next = .ok c') :
    c'.length = c.length := by
  unfold next at h
  split at h
  · simp at h
  · obtain rfl := Except.ok.inj h
    exact length_carry c

end NonceCounter

namespace Chunk

theorem Counted.length_advance (s : Counted) :
    s.advance.counter.length = s.counter.length := by
  unfold advance
  split
  · rename_i hnext
    exact NonceCounter.length_of_next hnext
  · rfl

theorem counted_seal_ok {a : Aead} {s s' : Counted} {text chunk : Bytes}
    (h : (countedSealer a).sealChunk s text = (.ok chunk, s')) :
    s.exhausted = false ∧ a.sealText s.counter text = some chunk ∧ s' = s.advance := by
  simp only [countedSealer] at h
  split at h
  · simp at h
  · rename_i hlive
    cases hseal : a.sealText s.counter text with
    | none => simp [hseal] at h
    | some sealed =>
        simp only [hseal, Prod.mk.injEq, Except.ok.injEq] at h
        obtain ⟨rfl, rfl⟩ := h
        exact ⟨by simpa using hlive, rfl, rfl⟩

/-- A chunk sealed under a counter is opened under the same one, and both
sides move on together. -/
theorem counted_step {a : Aead} (ha : a.Inverts) {s s' : Counted}
    (hs : s.counter.length = a.nonceSize) {text chunk : Bytes}
    (h : (countedSealer a).sealChunk s text = (.ok chunk, s')) :
    chunk.length = text.length + Aead.tagSize ∧
      (countedOpener a).openChunk s chunk = (.ok text, s') ∧
      s'.counter.length = a.nonceSize := by
  obtain ⟨hlive, hseal, rfl⟩ := counted_seal_ok h
  obtain ⟨hlength, hopen⟩ := ha hs hseal
  refine ⟨hlength, ?_, by rw [Counted.length_advance, hs]⟩
  have hlong : ¬ chunk.length < Aead.tagSize := by omega
  simp [countedOpener, hlive, hlong, hopen]

/-- What the cipher says of a chunk under the nonce behind it, if there is a whole nonce and
room for a tag. -/
theorem openDrawn_append {a : Aead} {sealed nonce : Bytes} (hnonce : nonce.length = a.nonceSize)
    (htag : Aead.tagSize ≤ sealed.length) :
    openDrawn a (sealed ++ nonce) =
      (a.openText nonce sealed).elim (.error .authenticationFailed) .ok := by
  have htotal : (sealed ++ nonce).length = sealed.length + a.nonceSize := by
    rw [List.length_append, hnonce]
  have hnonceFits : ¬ (sealed ++ nonce).length < a.nonceSize := by omega
  have htagFits : ¬ (sealed ++ nonce).length < a.nonceSize + Aead.tagSize := by omega
  have hcut : (sealed ++ nonce).length - a.nonceSize = sealed.length := by omega
  simp only [openDrawn, hnonceFits, htagFits, if_false, hcut, List.take_left, List.drop_left]
  cases a.openText nonce sealed <;> rfl

/-- A chunk with its drawn nonce behind it is opened under that nonce. -/
theorem drawn_step {a : Aead} (ha : a.Inverts) {ρ : Type} {entropy : Entropy ρ}
    {s s' : Drawn ρ} {text chunk : Bytes}
    (h : (drawnSealer a entropy).sealChunk s text = (.ok chunk, s')) :
    chunk.length = text.length + (Aead.tagSize + a.nonceSize) ∧
      openDrawn a chunk = .ok text := by
  simp only [drawnSealer] at h
  cases hdraw : entropy.draw s.source a.nonceSize with
  | mk answer source =>
      cases answer with
      | error f => simp [hdraw] at h
      | ok nonce =>
          have hnonce : nonce.length = a.nonceSize := entropy.length_draw hdraw
          cases hseal : a.sealText nonce text with
          | none => simp [hdraw, hseal] at h
          | some sealed =>
              simp only [hdraw, hseal, Prod.mk.injEq, Except.ok.injEq] at h
              obtain ⟨rfl, -⟩ := h
              obtain ⟨hlength, hopen⟩ := ha hnonce hseal
              refine ⟨?_, ?_⟩
              · rw [List.length_append, hlength, hnonce]
                omega
              · rw [openDrawn_append hnonce (by omega), hopen]
                rfl

end Chunk

namespace Key

variable {ρ : Type}

/-- The sealer and the opener of a key match in either nonce mode, each from
the state in which it starts. -/
theorem matched (k : Key) (mode : NonceMode) (entropy : Entropy ρ) (source : ρ) :
    Matched (k.sealer mode entropy) (k.sealState mode source)
      (k.opener mode) (k.openState mode) := by
  have ha : k.aead.Inverts := k.suite.inverts_aead k.bytes
  cases mode with
  | counter =>
      -- Both sides are at the same counter, which keeps its width.
      refine Matched.of_related
        (fun s t => ∃ c : Chunk.Counted, s = .counted c ∧ t = .counted c ∧
          c.counter.length = k.aead.nonceSize) rfl ?_ ?_
      · rintro _ _ text chunk s' ⟨c, rfl, rfl, hc⟩ hseal
        cases hstep : (Chunk.countedSealer k.aead).sealChunk c text with
        | mk answer c' =>
            simp only [sealer, hstep, Prod.mk.injEq] at hseal
            obtain ⟨rfl, rfl⟩ := hseal
            obtain ⟨hlength, hopen, hc'⟩ := Chunk.counted_step ha hc hstep
            refine ⟨hlength, .counted c', ?_, c', rfl, rfl, hc'⟩
            simp [opener, hopen]
      · exact ⟨.zero k.aead, rfl, rfl, by
          simp [Chunk.Counted.zero, NonceCounter.zero, Bytes.zeros]⟩
  | random =>
      -- The opener keeps no state, so nothing relates it to the sealer's.
      refine Matched.of_related
        (fun s t => (∃ d : Chunk.Drawn ρ, s = .drawn d) ∧ t = .drawn) rfl ?_ ?_
      · rintro _ _ text chunk s' ⟨⟨d, rfl⟩, rfl⟩ hseal
        cases hstep : (Chunk.drawnSealer k.aead entropy).sealChunk d text with
        | mk answer d' =>
            simp only [sealer, hstep, Prod.mk.injEq] at hseal
            obtain ⟨rfl, rfl⟩ := hseal
            obtain ⟨hlength, hopen⟩ := Chunk.drawn_step ha hstep
            refine ⟨hlength, .drawn, ?_, ⟨d', rfl⟩, rfl⟩
            simp [opener, Chunk.drawnOpener, hopen]
      · exact ⟨⟨⟨source, 0⟩, rfl⟩, rfl⟩

end Key

end SealedStream
