import Mathlib.Data.List.Basic
import Mathlib.Data.List.Induction
import SealedStream.Base64
import SealedStream.Proofs.Digits

/-!
# What base 64 reads

Digits are read as the numbers they were written for, and every group is written in one way
only: four digits for three bytes, and for a last group the spare bits have to be zero.  So a
text is read exactly if it is the one that writing the bytes produces.
-/

namespace SealedStream

namespace Bytes

theorem ofNatBE_eq_iff {w n : Nat} {bs : Bytes} (hn : n < 256 ^ w) :
    ofNatBE w n = bs ↔ bs.length = w ∧ n = toNatBE bs := by
  constructor
  · rintro rfl
    exact ⟨length_ofNatBE w n, by rw [toNatBE_ofNatBE, Nat.mod_eq_of_lt hn]⟩
  · rintro ⟨rfl, rfl⟩
    exact ofNatBE_toNatBE bs

end Bytes

namespace Base64

/-! ## Digits -/

/-- A character of a range is told by how far it is from the first. -/
theorem eq_ofNat_of_range {first last c : Char} (hfirst : first ≤ c) (hlast : c ≤ last) :
    c.toNat - first.toNat ≤ last.toNat - first.toNat ∧
      c = Char.ofNat (first.toNat + (c.toNat - first.toNat)) := by
  have hlow : first.toNat ≤ c.toNat := hfirst
  have hhigh : c.toNat ≤ last.toNat := hlast
  rw [Nat.add_sub_cancel' hlow, Char.ofNat_toNat]
  exact ⟨Nat.sub_le_sub_right hhigh _, rfl⟩

/-- The characters with a number are the digits, each with its own. -/
theorem value?_eq_some_iff {c : Char} {n : Nat} : value? c = some n ↔ n < 64 ∧ c = digit n := by
  constructor
  · intro h
    -- Each range of `value?` is a branch of `digit`.
    unfold value? at h
    split at h
    · rename_i hc
      obtain ⟨hk, hchar⟩ := eq_ofNat_of_range hc.1 hc.2
      obtain rfl := Option.some.inj h
      have hless : c.toNat - 'A'.toNat < 26 := Nat.lt_succ_of_le hk
      exact ⟨by omega, by rwa [digit, if_pos hless]⟩
    split at h
    · rename_i hc
      obtain ⟨hk, hchar⟩ := eq_ofNat_of_range hc.1 hc.2
      obtain rfl := Option.some.inj h
      have hless : c.toNat - 'a'.toNat < 26 := Nat.lt_succ_of_le hk
      refine ⟨by omega, ?_⟩
      rwa [digit, if_neg (by omega), if_pos (by omega), Nat.add_sub_cancel]
    split at h
    · rename_i hc
      obtain ⟨hk, hchar⟩ := eq_ofNat_of_range hc.1 hc.2
      obtain rfl := Option.some.inj h
      have hless : c.toNat - '0'.toNat < 10 := Nat.lt_succ_of_le hk
      refine ⟨by omega, ?_⟩
      rwa [digit, if_neg (by omega), if_neg (by omega), if_pos (by omega), Nat.add_sub_cancel]
    split at h
    · rename_i hc
      obtain rfl := Option.some.inj h
      exact ⟨by decide, hc⟩
    split at h
    · rename_i hc
      obtain rfl := Option.some.inj h
      exact ⟨by decide, hc⟩
    · simp at h
  · rintro ⟨hn, rfl⟩
    exact value?_digit hn

theorem digit_ne_fill {n : Nat} (h : n < 64) : digit n ≠ '=' := by
  revert n
  decide

theorem number?_concat (ds : List Char) (c : Char) :
    number? (ds ++ [c]) = (number? ds).bind fun n => (value? c).map fun d => 64 * n + d := by
  simp [number?, List.foldlM_append]

/-- Digits are read exactly as the number that is written with them. -/
theorem number?_eq_some_iff {ds : List Char} {n : Nat} :
    number? ds = some n ↔ n < 64 ^ ds.length ∧ ds = digits ds.length n := by
  induction ds using List.reverseRecOn generalizing n with
  | nil => simp [number?, digits, eq_comm]
  | append_singleton ds c ih =>
      simp only [number?_concat, Option.bind_eq_some_iff, Option.map_eq_some_iff, ih,
        value?_eq_some_iff, List.length_append, List.length_singleton, digits, pow_succ]
      constructor
      · rintro ⟨m, ⟨hm, hds⟩, d, ⟨hd, rfl⟩, rfl⟩
        have hhigh : (64 * m + d) / 64 = m := by omega
        have hlow : (64 * m + d) % 64 = d := by omega
        rw [hhigh, hlow, ← hds]
        exact ⟨by omega, rfl⟩
      · rintro ⟨hn, heq⟩
        obtain ⟨hds, hc⟩ := List.append_inj' heq rfl
        have hdigit : n % 64 < 64 := Nat.mod_lt n (by decide)
        exact ⟨n / 64, ⟨by omega, hds⟩, n % 64, ⟨hdigit, List.singleton_inj.1 hc⟩,
          Nat.div_add_mod n 64⟩

/-! ## Groups -/

/-- A last group is read from a number that ends in zeros for the spare bits. -/
theorem lastGroup_eq_some_iff_number {width spare : Nat} {ds : List Char} {bs : Bytes} :
    lastGroup width spare ds = some bs ↔
      ∃ whole, number? ds = some (2 ^ spare * whole) ∧ Bytes.ofNatBE width whole = bs := by
  have hpos : 0 < 2 ^ spare := Nat.two_pow_pos spare
  unfold lastGroup
  cases hnumber : number? ds with
  | none => simp
  | some n =>
      simp only [Nat.shiftRight_eq_div_pow, Nat.shiftLeft_eq, Option.some.injEq]
      constructor
      · intro h
        split at h
        · rename_i hzeros
          exact ⟨n / 2 ^ spare, by rw [Nat.mul_comm, hzeros], Option.some.inj h⟩
        · simp at h
      · rintro ⟨whole, rfl, rfl⟩
        rw [Nat.mul_div_cancel_left whole hpos, Nat.mul_comm whole, if_pos rfl]

/-- So it is read exactly if it is written for as many bytes. -/
theorem lastGroup_eq_some_iff {width spare : Nat} {ds : List Char} {bs : Bytes}
    (hroom : 2 ^ spare * 256 ^ width = 64 ^ ds.length) :
    lastGroup width spare ds = some bs ↔
      bs.length = width ∧ ds = digits ds.length (2 ^ spare * Bytes.toNatBE bs) := by
  have hpos : 0 < 2 ^ spare := Nat.two_pow_pos spare
  simp only [lastGroup_eq_some_iff_number, number?_eq_some_iff, ← hroom,
    Nat.mul_lt_mul_left hpos]
  constructor
  · rintro ⟨whole, ⟨hfits, hds⟩, hbs⟩
    obtain ⟨hlength, rfl⟩ := (Bytes.ofNatBE_eq_iff hfits).1 hbs
    exact ⟨hlength, hds⟩
  · rintro ⟨rfl, hds⟩
    exact ⟨Bytes.toNatBE bs, ⟨Bytes.toNatBE_lt bs, hds⟩, Bytes.ofNatBE_toNatBE bs⟩

/-! ## Texts -/

theorem encode_one (x : UInt8) :
    encode [x] = digits 2 (2 ^ 4 * Bytes.toNatBE [x]) ++ ['=', '='] := by
  simp [encode, Bytes.toNatBE]

theorem encode_two (x y : UInt8) :
    encode [x, y] = digits 3 (2 ^ 2 * Bytes.toNatBE [x, y]) ++ ['='] := by
  simp [encode, Bytes.toNatBE]

theorem encode_three (x y z : UInt8) (rest : Bytes) :
    encode (x :: y :: z :: rest) = digits 4 (Bytes.toNatBE [x, y, z]) ++ encode rest := by
  have hnumber : 65536 * x.toNat + 256 * y.toNat + z.toNat = Bytes.toNatBE [x, y, z] := by
    simp only [Bytes.toNatBE, List.foldl_cons, List.foldl_nil]
    omega
  rw [encode, hnumber]

theorem digit_mod_ne_fill (n : Nat) : digit (n % 64) ≠ '=' :=
  digit_ne_fill (Nat.mod_lt n (by decide))

theorem decode_one (n : Nat) : decode (digits 2 n ++ ['=', '=']) = lastGroup 1 4 (digits 2 n) :=
  decode.eq_2 _ _

theorem decode_two (n : Nat) : decode (digits 3 n ++ ['=']) = lastGroup 2 2 (digits 3 n) :=
  decode.eq_3 _ _ _ (digit_mod_ne_fill _)

theorem decode_three (n : Nat) (ds : List Char) :
    decode (digits 4 n ++ ds) =
      match number? (digits 4 n), decode ds with
      | some n, some more => some (Bytes.ofNatBE 3 n ++ more)
      | _, _ => none :=
  decode.eq_4 _ _ _ _ ds (fun _ hd _ => digit_mod_ne_fill n hd)
    (fun hd _ => digit_mod_ne_fill n hd)

/-- Reading undoes writing. -/
theorem decode_encode (bs : Bytes) : decode (encode bs) = some bs := by
  induction bs using encode.induct with
  | case1 => rfl
  | case2 x =>
      rw [encode_one, decode_one, lastGroup_eq_some_iff (by simp), length_digits]
      exact ⟨rfl, rfl⟩
  | case3 x y =>
      rw [encode_two, decode_two, lastGroup_eq_some_iff (by simp), length_digits]
      exact ⟨rfl, rfl⟩
  | case4 x y z rest ih =>
      have hfits : Bytes.toNatBE [x, y, z] < 256 ^ 3 := Bytes.toNatBE_lt [x, y, z]
      have hnumber : number? (digits 4 (Bytes.toNatBE [x, y, z])) =
          some (Bytes.toNatBE [x, y, z]) := by
        rw [number?_eq_some_iff, length_digits]
        exact ⟨hfits, rfl⟩
      have hgroup : Bytes.ofNatBE 3 (Bytes.toNatBE [x, y, z]) = [x, y, z] :=
        Bytes.ofNatBE_toNatBE [x, y, z]
      rw [encode_three, decode_three, hnumber, ih]
      exact congrArg (fun group => some (group ++ rest)) hgroup

/-- What is read has been written for the bytes that it gives. -/
theorem eq_encode_of_decode {ds : List Char} {bs : Bytes} (h : decode ds = some bs) :
    ds = encode bs := by
  fun_induction decode ds generalizing bs with
  | case1 =>
      obtain rfl := Option.some.inj h
      rfl
  | case2 a b =>
      obtain ⟨hlength, hds⟩ := (lastGroup_eq_some_iff (by simp)).1 h
      obtain ⟨x, rfl⟩ := List.length_eq_one_iff.1 hlength
      have hdigits : [a, b] = digits 2 (2 ^ 4 * Bytes.toNatBE [x]) := hds
      rw [encode_one, ← hdigits]
      rfl
  | case3 a b c =>
      obtain ⟨hlength, hds⟩ := (lastGroup_eq_some_iff (by simp)).1 h
      obtain ⟨x, y, rfl⟩ := List.length_eq_two.1 hlength
      have hdigits : [a, b, c] = digits 3 (2 ^ 2 * Bytes.toNatBE [x, y]) := hds
      rw [encode_two, ← hdigits]
      rfl
  | case4 a b c d rest _ _ n more hmore hnumber ih =>
      obtain ⟨hfits, hds⟩ := number?_eq_some_iff.1 hnumber
      have hdigits : [a, b, c, d] = digits 4 n := hds
      have hbytes : n < 256 ^ 3 := by simpa using hfits
      obtain ⟨hlength, hn⟩ := (Bytes.ofNatBE_eq_iff hbytes).1 rfl
      obtain ⟨x, y, z, hgroup⟩ := List.length_eq_three.1 hlength
      obtain rfl := Option.some.inj h
      rw [hgroup] at hn ⊢
      change _ = encode (x :: y :: z :: more)
      rw [encode_three, ← hn, ← hdigits, ← ih hmore]
      rfl
  | case5 => simp at h
  | case6 => simp at h

/-- A text is read exactly if it is the one that is written. -/
theorem decode_eq_some_iff {ds : List Char} {bs : Bytes} :
    decode ds = some bs ↔ ds = encode bs := by
  constructor
  · exact eq_encode_of_decode
  · rintro rfl
    exact decode_encode bs

end Base64

end SealedStream
