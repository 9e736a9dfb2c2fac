import SealedStream.Proofs.Keyed

/-!
# Counted nonces do not repeat

Every step of a nonce counter adds one to the number it stands for, and a codec
whose counter can go no further stops.  So no two chunks of one codec get the
same nonce, and a chunk that opens under a nonce stands where its nonce says.
This is what binds the counted opener to positions, given a cipher that opens
nothing but what was sealed under the same nonce.
-/

namespace SealedStream

theorem NonceCounter.toNatLE_carry {c : Bytes} (h : NonceCounter.isLast c = false) :
    Bytes.toNatLE (NonceCounter.carry c) = Bytes.toNatLE c + 1 := by
  induction c with
  | nil => simp [NonceCounter.isLast] at h
  | cons b bs ih =>
      unfold NonceCounter.carry
      by_cases hb : b = 0xff
      · -- The byte turns to zero, and the carry goes on to the others.
        have hrest : NonceCounter.isLast bs = false := by
          simpa [NonceCounter.isLast, hb] using h
        rw [if_pos hb, Bytes.toNatLE, Bytes.toNatLE, ih hrest, hb]
        simp
        omega
      · have hbyte : b.toNat ≠ 255 := fun heq => hb (UInt8.toNat_inj.1 heq)
        have hstep : (b + 1).toNat = b.toNat + 1 := by
          have := b.toNat_lt
          rw [UInt8.toNat_add, UInt8.toNat_one]
          omega
        rw [if_neg hb, Bytes.toNatLE, Bytes.toNatLE, hstep]
        omega

namespace Chunk

namespace Counted

/-- A codec that is not exhausted has added one to its counter. -/
theorem toNatLE_advance {s : Counted} (h : s.advance.exhausted = false) :
    s.exhausted = false ∧
      Bytes.toNatLE s.advance.counter = Bytes.toNatLE s.counter + 1 := by
  unfold advance at h ⊢
  cases hnext : s.counter.next with
  | error f => simp [hnext] at h
  | ok counter =>
      simp only [hnext] at h ⊢
      refine ⟨h, ?_⟩
      unfold NonceCounter.next at hnext
      split at hnext
      · simp at hnext
      · rename_i hlast
        obtain rfl := Except.ok.inj hnext
        exact NonceCounter.toNatLE_carry (by simpa using hlast)

theorem length_iterate (s : Counted) (k : Nat) :
    (advance^[k] s).counter.length = s.counter.length := by
  induction k with
  | zero => rfl
  | succ k ih => rw [Function.iterate_succ_apply', length_advance, ih]

/-- After `k` chunks the counter has gone up by `k`, unless it has come to its
end. -/
theorem toNatLE_iterate {s : Counted} {k : Nat}
    (h : (advance^[k] s).exhausted = false) :
    Bytes.toNatLE (advance^[k] s).counter = Bytes.toNatLE s.counter + k := by
  induction k with
  | zero => rfl
  | succ k ih =>
      rw [Function.iterate_succ_apply'] at h ⊢
      obtain ⟨hlive, hstep⟩ := toNatLE_advance h
      rw [hstep, ih hlive]
      omega

/-- No nonce is used for two chunks. -/
theorem nonce_injective {s : Counted} {j k : Nat}
    (hj : (advance^[j] s).exhausted = false) (hk : (advance^[k] s).exhausted = false)
    (h : (advance^[j] s).counter = (advance^[k] s).counter) : j = k := by
  have hvalue := toNatLE_iterate hj
  rw [h, toNatLE_iterate hk] at hvalue
  omega

end Counted

theorem counted_seal_error {a : Aead} {s s' : Counted} {text : Bytes} {f : Failure}
    (h : (countedSealer a).sealChunk s text = (.error f, s')) : s' = s := by
  simp only [countedSealer] at h
  split at h
  · exact (Prod.mk.inj h).2.symm
  · split at h
    · exact (Prod.mk.inj h).2.symm
    · simp at h

/-- The chunks of a counted sealer are sealed under the nonces of their
positions. -/
theorem counted_seals {a : Aead} {s s' : Counted} {record : List Sealing}
    (h : (countedSealer a).Seals s record s') {k : Nat} {c : Sealing}
    (hk : record[k]? = some c) :
    (Counted.advance^[k] s).exhausted = false ∧
      a.sealText (Counted.advance^[k] s).counter c.text = some c.chunk := by
  induction h generalizing k with
  | nil => simp at hk
  | cons hfirst _ ih =>
      obtain ⟨hlive, hseal, rfl⟩ := counted_seal_ok hfirst
      cases k with
      | zero =>
          obtain rfl := Option.some.inj hk
          exact ⟨hlive, hseal⟩
      | succ k => exact ih hk

theorem counted_open_ok {a : Aead} {s s' : Counted} {text chunk : Bytes}
    (h : (countedOpener a).openChunk s chunk = (.ok text, s')) :
    s.exhausted = false ∧ a.openText s.counter chunk = some text ∧ s' = s.advance := by
  simp only [countedOpener] at h
  split at h
  · simp at h
  · rename_i hlive
    split at h
    · simp at h
    · cases hopen : a.openText s.counter chunk with
      | none => simp [hopen] at h
      | some opened =>
          simp only [hopen, Prod.mk.injEq, Except.ok.injEq] at h
          obtain ⟨rfl, rfl⟩ := h
          exact ⟨by simpa using hlive, rfl, rfl⟩

theorem counted_after {a : Aead} {s t : Counted} {k : Nat}
    (h : (countedOpener a).After s k t) : t = Counted.advance^[k] s := by
  induction h with
  | start => rfl
  | opened _ hopen ih =>
      obtain ⟨-, -, rfl⟩ := counted_open_ok hopen
      rw [Function.iterate_succ_apply', ih]

/-- With a cipher that opens only what a counted sealer has sealed under the
same nonce, the counted opener is bound to the positions of the chunks. -/
theorem counted_boundTo {a : Aead} {s s' : Counted} {record : List Sealing}
    (h : (countedSealer a).Seals s record s')
    (hauthentic : ∀ nonce chunk text, a.openText nonce chunk = some text →
      ∃ k, record[k]? = some ⟨text, chunk⟩ ∧ (Counted.advance^[k] s).counter = nonce) :
    (countedOpener a).BoundTo s record := by
  intro k t chunk text t' hafter hopen
  obtain rfl := counted_after hafter
  obtain ⟨hlive, hopened, -⟩ := counted_open_ok hopen
  -- What opens here was sealed under the nonce of this place, and nowhere else.
  obtain ⟨j, hj, hnonce⟩ := hauthentic _ _ _ hopened
  obtain rfl : j = k := Counted.nonce_injective (counted_seals h hj).1 hlive hnonce
  exact hj

end Chunk

end SealedStream
