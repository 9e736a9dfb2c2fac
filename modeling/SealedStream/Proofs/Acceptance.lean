import Mathlib.Algebra.BigOperators.Ring.Finset
import SealedStream.Proofs.Decoding

/-!
# What a varint comes to

A varint ends with the first byte whose top bit is clear, and stands for the sum of the low
seven bits of its bytes, each of them in its place.  It is accepted exactly if it ends within
ten bytes and the sum is below `2 ^ 64`.

The number can be put together in a register of 64 bits, by shifts and a bitwise or.  The tenth
byte is looked at before it is taken in, and that is enough: no shift reaches 64, no bit is
shifted out, and no two groups overlap, so the register holds the sum.
-/

namespace SealedStream

namespace Varint

/-! ## The sum -/

/-- The byte at this place is the first whose top bit is clear. -/
def EndsAt (i : Nat) (bs : Bytes) : Prop :=
  Open (bs.take i) ∧ ∃ b, bs[i]? = some b ∧ b.toNat < 128

/-- The low seven bits of the first `k` bytes, each of them in its place. -/
def sum (k : Nat) (bs : Bytes) : Nat :=
  ∑ i ∈ Finset.range k, (bs.getD i 0).toNat % 128 * 2 ^ (7 * i)

theorem not_endsAt_nil {i : Nat} : ¬ EndsAt i [] := by
  simp [EndsAt]

theorem endsAt_zero {b : UInt8} {bs : Bytes} : EndsAt 0 (b :: bs) ↔ b.toNat < 128 := by
  simp [EndsAt, Open]

theorem endsAt_succ {i : Nat} {b : UInt8} {bs : Bytes} :
    EndsAt (i + 1) (b :: bs) ↔ 128 ≤ b.toNat ∧ EndsAt i bs := by
  simp [EndsAt, open_cons, and_assoc]

/-- Behind the first byte every place is worth 128 times as much. -/
theorem sum_cons (k : Nat) (b : UInt8) (bs : Bytes) :
    sum (k + 1) (b :: bs) = b.toNat % 128 + 128 * sum k bs := by
  rw [sum, Finset.sum_range_succ', sum, Finset.mul_sum, Nat.add_comm]
  congr 1
  · simp
  · apply Finset.sum_congr rfl
    intro i _
    rw [List.getD_cons_succ]
    ring

@[simp] theorem sum_one (b : UInt8) (bs : Bytes) : sum 1 (b :: bs) = b.toNat % 128 := by
  rw [sum_cons]
  simp [sum]

/-- Before the tenth byte there is room for a group of seven bits and more. -/
theorem two_pow_room {c : Nat} (h : c + 1 < maxWidth) :
    2 ^ (64 - 7 * c) = 128 * 2 ^ (64 - 7 * (c + 1)) ∧ 0 < 2 ^ (64 - 7 * (c + 1)) := by
  have hwidth : maxWidth = 10 := rfl
  have hseven : 64 - 7 * c = 7 + (64 - 7 * (c + 1)) := by omega
  rw [hseven, pow_add]
  exact ⟨rfl, Nat.two_pow_pos _⟩

/-- In the tenth byte there is room for bit 63 alone. -/
theorem two_pow_last {c : Nat} (h : c + 1 = maxWidth) : 2 ^ (64 - 7 * c) = 2 := by
  obtain rfl : c = 9 := Nat.succ.inj h
  rfl

/-- The group of a byte that is not refused does not reach past bit 63. -/
theorem group_fits {c : Nat} {b : UInt8} (hopen : c < maxWidth)
    (htaken : ¬ (c + 1 = maxWidth ∧ 1 < b.toNat)) : b.toNat % 128 < 2 ^ (64 - 7 * c) := by
  by_cases htenth : c + 1 = maxWidth
  · rw [two_pow_last htenth]
    omega
  · obtain ⟨hroom, hmore⟩ := two_pow_room (show c + 1 < maxWidth by omega)
    omega

/-- From where a varint has come to, it ends within the bytes that are still allowed, with a sum
that does not reach past bit 63 in its place, and in no other way. -/
theorem scanFrom_eq_whole {p : Partial} {bs : Bytes} {n used : Nat} (hopen : p.count < maxWidth) :
    scanFrom p bs = .whole n used ↔
      ∃ i, p.count + i < maxWidth ∧ EndsAt i bs ∧ sum (i + 1) bs < 2 ^ (64 - 7 * p.count) ∧
        n = p.value + sum (i + 1) bs * 2 ^ (7 * p.count) ∧ used = p.count + (i + 1) := by
  induction bs generalizing p with
  | nil => simp [scanFrom, not_endsAt_nil]
  | cons b bs ih =>
      have hrefused := push_eq_malformed (b := b) hopen
      cases hpush : p.push b with
      | malformed =>
          -- The tenth byte has more than one bit, so it does not end a sum that fits.
          obtain ⟨htenth, hlarge⟩ := hrefused.1 hpush
          simp only [scanFrom, hpush, reduceCtorEq, false_iff]
          rintro ⟨i, hi, hends, hfits, -⟩
          obtain rfl : i = 0 := by omega
          rw [endsAt_zero] at hends
          rw [sum_one, Nat.mod_eq_of_lt hends, two_pow_last htenth] at hfits
          omega
      | done value =>
          obtain ⟨-, hends, rfl⟩ := push_eq_done hpush
          have hsmall : ¬ (p.count + 1 = maxWidth ∧ 1 < b.toNat) := by
            rw [← hrefused, hpush]
            simp
          simp only [scanFrom, hpush, IntForm.Scan.whole.injEq]
          constructor
          · rintro ⟨rfl, rfl⟩
            refine ⟨0, hopen, endsAt_zero.2 hends, ?_, ?_, rfl⟩
            · rw [sum_one]
              exact group_fits hopen hsmall
            · rw [sum_one, Nat.mod_eq_of_lt hends]
          · rintro ⟨i, -, hends', -, rfl, rfl⟩
            cases i with
            | zero => simp [Nat.mod_eq_of_lt hends]
            | succ i =>
                have := (endsAt_succ.1 hends').1
                omega
      | more q =>
          obtain ⟨hcount, hopen'⟩ := push_eq_more hpush
          obtain ⟨-, hb, rfl⟩ := value_of_push_more hpush
          obtain ⟨hroom, -⟩ := two_pow_room (hcount ▸ hopen')
          simp only [scanFrom, hpush, ih hopen']
          constructor
          · rintro ⟨i, hi, hends, hfits, rfl, rfl⟩
            refine ⟨i + 1, by omega, endsAt_succ.2 ⟨hb, hends⟩, ?_, ?_, by omega⟩
            · rw [sum_cons]
              omega
            · rw [sum_cons]
              ring
          · rintro ⟨i, hi, hends, hfits, rfl, rfl⟩
            cases i with
            | zero =>
                rw [endsAt_zero] at hends
                omega
            | succ i =>
                rw [sum_cons] at hfits ⊢
                refine ⟨i, by omega, (endsAt_succ.1 hends).2, by omega, by ring, by omega⟩

/-! ## In a register -/

namespace Register

/-- The register has taken in these bytes, and none of them was the last. -/
inductive Reads : Bytes → Register → Prop
  | start : Reads [] start
  | more {front : Bytes} {b : UInt8} {r r' : Register} :
      Reads front r → r.push b = .ok (false, r') → Reads (front ++ [b]) r'

/-- The register holds what is known of a varint, below the place of the next group. -/
structure Holds (r : Register) (p : Partial) : Prop where
  value : r.value.toNat = p.value
  shift : r.shift.toNat = 7 * p.count
  count : r.count = p.count
  below : p.value < 2 ^ (7 * p.count)

variable {r r' : Register} {p : Partial} {b : UInt8}

theorem start_holds : start.Holds .start :=
  ⟨rfl, rfl, rfl, by decide⟩

theorem toNat_low (b : UInt8) : (b &&& 0x7f).toUInt64.toNat = b.toNat % 128 := by
  rw [UInt8.toNat_toUInt64, UInt8.toNat_and]
  exact Nat.and_two_pow_sub_one_eq_mod b.toNat 7

theorem high_eq_zero (b : UInt8) : b &&& 0x80 = 0 ↔ b.toNat < 128 := by
  have htop : ∀ n < 256, n &&& 128 = 0 ↔ n < 128 := by decide +kernel
  rw [← UInt8.toNat_inj, UInt8.toNat_and]
  exact htop b.toNat b.toNat_lt

/-- A byte that is taken in loses nothing: the shift stays below 64, no bit is shifted out, and
the group meets no bit that is there already. -/
theorem Holds.lossless (h : r.Holds p) (hopen : p.count < maxWidth)
    (htaken : ¬ (p.count + 1 = maxWidth ∧ 1 < b.toNat)) :
    r.shift.toNat < 64 ∧ (r.group b).toNat = b.toNat % 128 * 2 ^ r.shift.toNat ∧
      (r.value ||| r.group b).toNat = r.value.toNat + (r.group b).toNat := by
  have hwidth : maxWidth = 10 := rfl
  have hshift : r.shift.toNat < 64 := by
    rw [h.shift]
    omega
  have hfits : b.toNat % 128 * 2 ^ r.shift.toNat < 2 ^ 64 := by
    have hplace : 2 ^ 64 = 2 ^ (64 - 7 * p.count) * 2 ^ (7 * p.count) := by
      rw [← pow_add]
      congr 1
      omega
    rw [h.shift, hplace]
    exact Nat.mul_lt_mul_of_pos_right (group_fits hopen htaken) (Nat.two_pow_pos _)
  have hgroup : (r.group b).toNat = b.toNat % 128 * 2 ^ r.shift.toNat := by
    rw [group, UInt64.toNat_shiftLeft, toNat_low, Nat.mod_eq_of_lt hshift, Nat.shiftLeft_eq,
      Nat.mod_eq_of_lt hfits]
  refine ⟨hshift, hgroup, ?_⟩
  have hbelow : r.value.toNat < 2 ^ r.shift.toNat := by
    rw [h.value, h.shift]
    exact h.below
  rw [UInt64.toNat_or, hgroup, Nat.or_comm, ← Nat.shiftLeft_eq,
    ← Nat.shiftLeft_add_eq_or_of_lt hbelow, Nat.add_comm]

theorem push_refused (h : r.count = p.count) (hrefused : p.count + 1 = maxWidth ∧ 1 < b.toNat) :
    r.push b = .error .ciphertextInvalid := by
  rw [push, h, if_pos (.inr hrefused)]

/-- A byte that is not refused leaves the register with its group more. -/
theorem Holds.taken (h : r.Holds p) (hopen : p.count < maxWidth)
    (htaken : ¬ (p.count + 1 = maxWidth ∧ 1 < b.toNat)) :
    ∃ r', r.push b = .ok (b.toNat < 128, r') ∧ r'.value = r.value ||| r.group b ∧
      r'.Holds ⟨p.value + b.toNat % 128 * 2 ^ (7 * p.count), p.count + 1⟩ := by
  have hwidth : maxWidth = 10 := rfl
  have hroom : ¬ (maxWidth < r.count + 1 ∨ r.count + 1 = maxWidth ∧ 1 < b) := by
    rw [h.count]
    rintro (hlong | hrefused)
    · omega
    · exact htaken hrefused
  obtain ⟨hshift, hgroup, hsum⟩ := h.lossless hopen htaken
  refine ⟨⟨r.value ||| r.group b, r.shift + 7, r.count + 1⟩, ?_, rfl, ?_, ?_, ?_, ?_⟩
  · simp only [push, if_neg hroom, high_eq_zero]
  · rw [hsum, hgroup, h.value, h.shift]
  · have hseven : (7 : UInt64).toNat = 7 := rfl
    rw [UInt64.toNat_add, hseven, h.shift]
    dsimp only
    omega
  · rw [h.count]
  · have hbelow := h.below
    have hplace : 2 ^ (7 * (p.count + 1)) = 128 * 2 ^ (7 * p.count) := by ring
    have hlow := Nat.mul_le_mul_right (2 ^ (7 * p.count)) (show b.toNat % 128 ≤ 127 by omega)
    dsimp only
    omega

/-- The run: what comes of the register is what comes of the number. -/
theorem Holds.decode (h : r.Holds p) (hopen : p.count < maxWidth) (bs : Bytes) :
    (r.decode bs).map (fun found => (found.1.toNat, found.2)) =
      match scanFrom p bs with
      | .whole n used => .ok (n, used)
      | .malformed | .incomplete => .error .ciphertextInvalid := by
  induction bs generalizing r p with
  | nil => rfl
  | cons b bs ih =>
      have hrefused := push_eq_malformed (b := b) hopen
      cases hpush : p.push b with
      | malformed =>
          have hpush' := push_refused h.count (hrefused.1 hpush)
          simp only [Register.decode, scanFrom, hpush, hpush']
          rfl
      | done n =>
          obtain ⟨-, hends, rfl⟩ := push_eq_done hpush
          obtain ⟨r', hpush', -, hnext⟩ :=
            h.taken hopen (b := b) (by rw [← hrefused, hpush]; simp)
          have hvalue := hnext.value
          have hcount := hnext.count
          rw [Nat.mod_eq_of_lt hends] at hvalue
          simp only [Register.decode, scanFrom, hpush, hpush', hends, decide_true, Except.map,
            hvalue, hcount]
      | more q =>
          obtain ⟨hcount, hopen'⟩ := push_eq_more hpush
          obtain ⟨-, hb, rfl⟩ := value_of_push_more hpush
          obtain ⟨r', hpush', -, hnext⟩ :=
            h.taken hopen (b := b) (by rw [← hrefused, hpush]; simp)
          simp only [Register.decode, scanFrom, hpush, hpush', Nat.not_lt.2 hb, decide_false]
          exact ih hnext hopen'

/-- A register that has taken in some bytes holds what is known of a varint after them. -/
theorem Reads.holds {front : Bytes} (h : Reads front r) :
    ∃ p : Partial, r.Holds p ∧ p.count < maxWidth := by
  induction h with
  | start => exact ⟨.start, start_holds, by decide⟩
  | @more front b r r' _ hpush ih =>
      obtain ⟨p, hholds, hopen⟩ := ih
      have htaken : ¬ (p.count + 1 = maxWidth ∧ 1 < b.toNat) := by
        intro hrefused
        rw [push_refused hholds.count hrefused] at hpush
        simp at hpush
      obtain ⟨r'', hpush', -, hnext⟩ := hholds.taken hopen htaken
      rw [hpush'] at hpush
      obtain ⟨hmore, rfl⟩ := Prod.mk.inj (Except.ok.inj hpush)
      have hb : ¬ b.toNat < 128 := of_decide_eq_false hmore
      refine ⟨_, hnext, ?_⟩
      dsimp only
      omega

end Register

/-- A varint is accepted exactly if the first byte whose top bit is clear is among the first ten
and the low seven bits of the bytes up to it, each of them in its place, add up to less than
`2 ^ 64`.  This sum is the number, and the bytes up to that one are what is taken for it.  All
else is invalid.

The same comes of a register of 64 bits.  Whenever it takes in a byte, the shift is below 64, the
group comes out whole, and what the register holds then is greater by just that group. -/
theorem accepted_exactly :
    (∀ bs n used, IntForm.varint.decode bs = .ok (n, used) ↔
      ∃ i < 10, EndsAt i bs ∧ sum (i + 1) bs < 2 ^ 64 ∧ n = sum (i + 1) bs ∧ used = i + 1) ∧
    (∀ bs e, IntForm.varint.decode bs = .error e ↔
      e = .ciphertextInvalid ∧ ¬ ∃ i < 10, EndsAt i bs ∧ sum (i + 1) bs < 2 ^ 64) ∧
    (∀ bs, (Register.start.decode bs).map (fun found => (found.1.toNat, found.2)) =
      IntForm.varint.decode bs) ∧
    ∀ front b r last r', Register.Reads front r → r.push b = .ok (last, r') →
      r.shift.toNat < 64 ∧ (r.group b).toNat = b.toNat % 128 * 2 ^ r.shift.toNat ∧
        r'.value.toNat = r.value.toNat + (r.group b).toNat := by
  have hwhole (bs : Bytes) (n used : Nat) : IntForm.varint.decode bs = .ok (n, used) ↔
      ∃ i < 10, EndsAt i bs ∧ sum (i + 1) bs < 2 ^ 64 ∧ n = sum (i + 1) bs ∧ used = i + 1 := by
    rw [IntForm.decode_eq_ok, IntForm.scan, scanFrom_eq_whole (by decide)]
    simp [Partial.start, maxWidth]
  refine ⟨hwhole, fun bs e => ?_, fun bs => ?_, fun front b r last r' hreads hpush => ?_⟩
  · cases hdecode : IntForm.varint.decode bs with
    | ok found =>
        obtain ⟨i, hi, hends, hfits, -⟩ := (hwhole bs found.1 found.2).1 hdecode
        simp only [reduceCtorEq, false_iff, not_and, not_not]
        exact fun _ => ⟨i, hi, hends, hfits⟩
    | error f =>
        obtain rfl := (IntForm.decode_eq_error.1 hdecode).1
        have hnone : ¬ ∃ i < 10, EndsAt i bs ∧ sum (i + 1) bs < 2 ^ 64 := by
          rintro ⟨i, hi, hends, hfits⟩
          have hok := (hwhole bs _ _).2 ⟨i, hi, hends, hfits, rfl, rfl⟩
          rw [hdecode] at hok
          simp at hok
        rw [Except.error.injEq, eq_comm]
        exact (and_iff_left hnone).symm
  · rw [Register.start_holds.decode (by decide)]
    cases hscan : scanFrom .start bs <;> simp only [IntForm.decode, IntForm.scan, hscan]
  · obtain ⟨p, hholds, hopen⟩ := hreads.holds
    have htaken : ¬ (p.count + 1 = maxWidth ∧ 1 < b.toNat) := by
      intro hrefused
      rw [Register.push_refused hholds.count hrefused] at hpush
      simp at hpush
    obtain ⟨hshift, hgroup, hsum⟩ := hholds.lossless hopen htaken
    obtain ⟨r'', hpush', hvalue, -⟩ := hholds.taken hopen htaken
    rw [hpush'] at hpush
    obtain ⟨-, rfl⟩ := Prod.mk.inj (Except.ok.inj hpush)
    exact ⟨hshift, hgroup, by rw [hvalue, hsum]⟩

/-- The largest number takes the one bit that there is room for in the tenth byte.  With the next
bit, or with an eleventh byte, a varint is refused.  After one byte the register takes in its
second group above the first. -/
theorem largest_accepted :
    IntForm.varint.decode (List.replicate 9 0xff ++ [1, 7]) = .ok (2 ^ 64 - 1, 10) ∧
      (∃ i < 10, EndsAt i (List.replicate 9 0xff ++ [1, 7]) ∧
        2 ^ 64 - 1 = sum (i + 1) (List.replicate 9 0xff ++ [1, 7])) ∧
      (Register.start.decode (List.replicate 9 0xff ++ [1, 7])).map
        (fun found => (found.1.toNat, found.2)) = .ok (2 ^ 64 - 1, 10) ∧
      (¬ ∃ i < 10, EndsAt i (List.replicate 9 0xff ++ [2]) ∧
        sum (i + 1) (List.replicate 9 0xff ++ [2]) < 2 ^ 64) ∧
      (¬ ∃ i < 10, EndsAt i (List.replicate 10 0x80 ++ [0]) ∧
        sum (i + 1) (List.replicate 10 0x80 ++ [0]) < 2 ^ 64) ∧
      ∃ r', Register.push ⟨127, 7, 1⟩ 2 = .ok (true, r') ∧
        r'.value.toNat = 127 + (Register.group ⟨127, 7, 1⟩ 2).toNat := by
  obtain ⟨hwhole, hinvalid, hregister, hgroups⟩ := accepted_exactly
  have hlargest : IntForm.varint.decode (List.replicate 9 0xff ++ [1, 7]) =
      .ok (2 ^ 64 - 1, 10) := by decide +kernel
  have hlarger : IntForm.varint.decode (List.replicate 9 0xff ++ [2]) =
      .error .ciphertextInvalid := by decide
  have hlonger : IntForm.varint.decode (List.replicate 10 0x80 ++ [0]) =
      .error .ciphertextInvalid := by decide
  have hreads : Register.Reads [0xff] ⟨127, 7, 1⟩ := .more .start rfl
  have hpush : Register.push ⟨127, 7, 1⟩ 2 = .ok (true, ⟨383, 14, 2⟩) := rfl
  obtain ⟨i, hi, hends, -, hsum, -⟩ := (hwhole _ _ _).1 hlargest
  exact ⟨hlargest, ⟨i, hi, hends, hsum⟩, (hregister _).trans hlargest,
    ((hinvalid _ _).1 hlarger).2, ((hinvalid _ _).1 hlonger).2, _, hpush,
    (hgroups _ _ _ _ _ hreads hpush).2.2⟩

end Varint

end SealedStream
