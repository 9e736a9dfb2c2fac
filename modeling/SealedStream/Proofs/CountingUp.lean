import SealedStream.Proofs.NonceSupply

/-!
# Counting up

A nonce counter of any width is a number written with the least significant byte first, and to
move it on is to add one.  The carry stops at the first byte that has room, and only a counter
whose bytes are all `0xff` has none: that is looked at beforehand, and such a counter is left
alone.  So the calls that succeed are as many as there are values left, no value comes twice,
and behind the last value nothing moves any more.
-/

namespace SealedStream

namespace NonceCounter

variable {c : NonceCounter} {k : Nat}

theorem isLast_iff : c.isLast = true ↔ ∀ b ∈ c, b = 0xff := by
  simp [isLast]

theorem increment_of_last (h : c.isLast = true) : c.increment = (.error .nonceExhausted, c) := by
  simp [increment, next, h]

theorem increment_of_not_last (h : c.isLast = false) : c.increment = (.ok (), carry c) := by
  simp [increment, next, h]

/-- A value is left behind this one exactly if it is not the last. -/
theorem isLast_eq_decide (c : NonceCounter) : c.isLast = decide (c.left = 1) := by
  cases hlast : c.isLast with
  | true => simp [left_of_isLast hlast]
  | false =>
      have hleft := left_carry hlast
      have hpos := left_pos (carry c)
      simp
      omega

/-! ## Call after call -/

/-- What a call leaves of a counter, whether it succeeds or not. -/
def moved (c : NonceCounter) : NonceCounter :=
  c.increment.2

/-- The step: one value less is left, but never less than the one that is there. -/
theorem left_moved (c : NonceCounter) :
    c.moved.length = c.length ∧ c.moved.left = max 1 (c.left - 1) := by
  unfold moved
  cases hlast : c.isLast with
  | true => simp [increment_of_last hlast, left_of_isLast hlast]
  | false =>
      have hleft := left_carry hlast
      have hpos := left_pos (carry c)
      rw [increment_of_not_last hlast]
      exact ⟨length_carry c, by dsimp only; omega⟩

/-- The run: so many values less are left. -/
theorem left_iterate_moved (c : NonceCounter) (k : Nat) :
    (moved^[k] c).length = c.length ∧ (moved^[k] c).left = max 1 (c.left - k) := by
  induction k with
  | zero =>
      have hpos := left_pos c
      exact ⟨rfl, by simp only [Function.iterate_zero, id_eq]; omega⟩
  | succ k ih =>
      obtain ⟨hlength, hleft⟩ := ih
      obtain ⟨hlength', hleft'⟩ := left_moved (moved^[k] c)
      rw [Function.iterate_succ_apply', hlength', hleft', hlength, hleft]
      exact ⟨rfl, by omega⟩

/-- Call after call the counter goes through the values behind it, and stays at the last. -/
theorem iterate_moved_eq (c : NonceCounter) (k : Nat) :
    moved^[k] c = c.after (min k (c.left - 1)) := by
  obtain ⟨hlength, hleft⟩ := left_iterate_moved c k
  have hlt := Bytes.toNatLE_lt c
  have hlt' := Bytes.toNatLE_lt (moved^[k] c)
  apply eq_after hlength
  simp only [left, hlength] at hleft hlt' ⊢
  omega

theorem increment_iterate_moved (c : NonceCounter) (k : Nat) :
    (moved^[k] c).increment.1 =
      if k + 1 < c.left then .ok () else .error .nonceExhausted := by
  have hlast := isLast_eq_decide (moved^[k] c)
  rw [(left_iterate_moved c k).2] at hlast
  by_cases hleft : k + 1 < c.left
  · rw [if_pos hleft, increment_of_not_last (by rw [hlast, decide_eq_false_iff_not]; omega)]
  · rw [if_neg hleft, increment_of_last (by rw [hlast, decide_eq_true_iff]; omega)]

theorem length_zero (w : Nat) : (zero w).length = w :=
  List.length_replicate

/-- From zero all values of a width are left. -/
theorem left_zero (w : Nat) : (zero w).left = 256 ^ w := by
  rw [left, length_zero, zero, Bytes.toNatLE_zeros, Nat.sub_zero]

theorem toNatLE_iterate_moved {w : Nat} (hk : k ≤ 256 ^ w - 1) :
    Bytes.toNatLE (moved^[k] (zero w)) = k := by
  have hpos := left_pos (zero w)
  rw [left_zero] at hpos
  rw [iterate_moved_eq, left_zero, Nat.min_eq_left hk,
    toNatLE_after (by rw [left_zero]; omega), zero, Bytes.toNatLE_zeros, Nat.zero_add]

/-- Moving on adds one, for a counter of any width.  It is refused exactly if all bytes are
`0xff`, as they are if there is none, and leaves such a counter as it is, however often it is
tried.  Any other counter keeps its width, and the number that it stands for, the least
significant byte first, becomes greater by one.

A counter that starts from zero can be moved on as often as its width has values, less one, and
never again.  On the way it has all its values, each of them once, and comes to rest at the one
whose bytes are `0xff`. -/
theorem increments_count_up :
    (∀ c : NonceCounter,
      ((∀ b ∈ c, b = 0xff) → ∀ k, (moved^[k] c).increment = (.error .nonceExhausted, c)) ∧
      ((¬ ∀ b ∈ c, b = 0xff) → ∃ c', c.increment = (.ok (), c') ∧ c'.length = c.length ∧
        Bytes.toNatLE c' = Bytes.toNatLE c + 1)) ∧
    ∀ w : Nat,
      (∀ k, (moved^[k] (zero w)).increment.1 =
        if k < 256 ^ w - 1 then .ok () else .error .nonceExhausted) ∧
      (∀ k ≤ 256 ^ w - 1, (moved^[k] (zero w)).length = w ∧
        Bytes.toNatLE (moved^[k] (zero w)) = k) ∧
      (∀ j k, j ≤ 256 ^ w - 1 → k ≤ 256 ^ w - 1 →
        moved^[j] (zero w) = moved^[k] (zero w) → j = k) ∧
      ∀ k, 256 ^ w - 1 ≤ k → moved^[k] (zero w) = List.replicate w 0xff := by
  refine ⟨fun c => ⟨fun hfull k => ?_, fun hroom => ?_⟩,
    fun w => ⟨fun k => ?_, fun k hk => ⟨?_, toNatLE_iterate_moved hk⟩,
      fun j k hj hk hsame => ?_, fun k hk => ?_⟩⟩
  · have hstays := increment_of_last (isLast_iff.2 hfull)
    have hmoved : moved c = c := congrArg Prod.snd hstays
    rw [Function.iterate_fixed hmoved, hstays]
  · have hlast : c.isLast = false := by
      rw [Bool.eq_false_iff, Ne, isLast_iff]
      exact hroom
    exact ⟨carry c, increment_of_not_last hlast, length_carry c, toNatLE_carry hlast⟩
  · rw [increment_iterate_moved, left_zero]
    simp only [Nat.lt_sub_iff_add_lt]
  · rw [(left_iterate_moved (zero w) k).1, length_zero]
  · rw [← toNatLE_iterate_moved hj, hsame, toNatLE_iterate_moved hk]
  · rw [iterate_moved_eq, Nat.min_eq_right (by rw [left_zero]; exact hk), ← replicate_eq_after,
      length_zero]

/-- In two bytes the carry goes to the right, a full counter is left alone, and from zero the
value after the last is refused. -/
theorem two_bytes_counted :
    (∃ c', increment [0xff, 1] = (.ok (), c') ∧ c'.length = 2 ∧ Bytes.toNatLE c' = 512) ∧
      increment [0xff, 0xff] = (.error .nonceExhausted, [0xff, 0xff]) ∧
      increment [] = (.error .nonceExhausted, []) ∧
      (moved^[65534] (zero 2)).increment.1 = .ok () ∧
      (moved^[65535] (zero 2)).increment.1 = .error .nonceExhausted ∧
      Bytes.toNatLE (moved^[300] (zero 2)) = 300 ∧
      moved^[300] (zero 2) ≠ moved^[301] (zero 2) ∧
      moved^[70000] (zero 2) = List.replicate 2 0xff := by
  obtain ⟨hone, hzero⟩ := increments_count_up
  obtain ⟨hanswers, hvalues, hdistinct, hrest⟩ := hzero 2
  refine ⟨(hone [0xff, 1]).2 (by simp), (hone [0xff, 0xff]).1 (by simp) 0, (hone []).1 (by simp) 0,
    ?_, ?_, (hvalues 300 (by decide)).2, fun hsame => ?_, hrest 70000 (by decide)⟩
  · rw [hanswers]
    rfl
  · rw [hanswers]
    rfl
  · have := hdistinct 300 301 (by decide) (by decide) hsame
    omega

end NonceCounter

end SealedStream
