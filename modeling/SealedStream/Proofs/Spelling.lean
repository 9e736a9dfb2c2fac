import Mathlib.Logic.Function.Iterate
import SealedStream.Proofs.Flow

/-!
# The ways to spell a number

A number can have more than one varint, for a varint may end in empty groups.
The bytes that a form writes are still the shortest spelling of their number,
and among the spellings of that length they are the only one.  So a length on
the wire that has been tampered with and still reads as the same number has
become longer.

In the other direction, a proper beginning of a number is not yet a number:
where a source ends inside one, a reader can tell.
-/

namespace SealedStream

namespace Varint

/-- The byte with its top bit set, so that it announces another. -/
def announce (b : UInt8) : UInt8 :=
  .ofNat (b.toNat % 128 + 128)

/-- A varint with an empty group more: its last byte announces another, and that is zero. -/
def pad (bs : Bytes) : Bytes :=
  bs.map announce ++ [0]

theorem announce_of_le {b : UInt8} (h : 128 ≤ b.toNat) : announce b = b := by
  have hb : b.toNat < 256 := b.toNat_lt
  rw [announce, show b.toNat % 128 + 128 = b.toNat by omega, UInt8.ofNat_toNat]

@[simp] theorem length_pad (bs : Bytes) : (pad bs).length = bs.length + 1 := by
  simp [pad]

@[simp] theorem length_iterate_pad (extra : Nat) (bs : Bytes) :
    (pad^[extra] bs).length = bs.length + extra := by
  induction extra with
  | zero => rfl
  | succ extra ih => rw [Function.iterate_succ_apply', length_pad, ih, Nat.add_assoc]

/-- A byte that announces another is not touched. -/
theorem iterate_pad_cons {b : UInt8} (h : 128 ≤ b.toNat) (extra : Nat) (bs : Bytes) :
    pad^[extra] (b :: bs) = b :: pad^[extra] bs := by
  induction extra with
  | zero => rfl
  | succ extra ih =>
      rw [Function.iterate_succ_apply', ih, Function.iterate_succ_apply', pad, pad,
        List.map_cons, announce_of_le h, List.cons_append]

/-- What a byte that ends a varint has added to it. -/
theorem push_eq_done {p : Partial} {b : UInt8} {n : Nat} (h : p.push b = .done n) :
    p.count < maxWidth ∧ b.toNat < 128 ∧ n = p.value + b.toNat * 2 ^ (7 * p.count) := by
  unfold Partial.push at h
  split at h
  · simp at h
  · rename_i hroom
    split at h
    · rename_i hlast
      obtain rfl := Step.done.inj h
      refine ⟨by omega, hlast, ?_⟩
      rw [Nat.mod_eq_of_lt hlast, Nat.shiftLeft_eq]
    · simp at h

/-- What a byte that leaves a varint open has added to it. -/
theorem value_of_push_more {p q : Partial} {b : UInt8} (h : p.push b = .more q) :
    p.count < maxWidth ∧ 128 ≤ b.toNat ∧
      q = ⟨p.value + b.toNat % 128 * 2 ^ (7 * p.count), p.count + 1⟩ := by
  unfold Partial.push at h
  split at h
  · simp at h
  · rename_i hroom
    split at h
    · simp at h
    · rename_i hopen
      obtain rfl := Step.more.inj h
      exact ⟨by omega, by omega, by rw [Nat.shiftLeft_eq]⟩

/-- What a varint is read as, it is the groups of, padded or not.  The induction is on the
bytes; `k` is how many more of them a varint can have. -/
theorem padded_of_scanFrom {bs : Bytes} {p : Partial} {n k : Nat}
    (h : scanFrom p bs = .whole n (p.count + bs.length)) (hk : p.count + k = maxWidth) :
    ∃ m extra, n = p.value + m * 2 ^ (7 * p.count) ∧ bs = pad^[extra] (groups k m) := by
  induction bs generalizing p k with
  | nil => simp [scanFrom] at h
  | cons b bs ih =>
      have hb : b.toNat < 256 := b.toNat_lt
      cases hpush : p.push b with
      | malformed => simp [scanFrom, hpush] at h
      | done value =>
          obtain ⟨hcount, hlast, hvalue⟩ := push_eq_done hpush
          obtain ⟨rfl, hused⟩ : value = n ∧ p.count + 1 = p.count + (bs.length + 1) := by
            simpa [scanFrom, hpush] using h
          obtain rfl : bs = [] := List.eq_nil_of_length_eq_zero (by omega)
          obtain ⟨k, rfl⟩ := Nat.exists_eq_succ_of_ne_zero (show k ≠ 0 by omega)
          refine ⟨b.toNat, 0, hvalue, ?_⟩
          rw [groups, if_pos hlast, UInt8.ofNat_toNat]
          rfl
      | more q =>
          obtain ⟨hnext, hroom⟩ := push_eq_more hpush
          obtain ⟨hcount, hopen, rfl⟩ := value_of_push_more hpush
          obtain ⟨k, rfl⟩ := Nat.exists_eq_succ_of_ne_zero (show k ≠ 0 by omega)
          have hrest : scanFrom ⟨p.value + b.toNat % 128 * 2 ^ (7 * p.count), p.count + 1⟩ bs =
              .whole n (p.count + 1 + bs.length) := by
            simpa [scanFrom, hpush, Nat.add_assoc, Nat.add_comm 1] using h
          obtain ⟨m, extra, hvalue, heq⟩ := ih hrest (k := k) (by dsimp only; omega)
          have hplace : n =
              p.value + (b.toNat % 128 + 128 * m) * 2 ^ (7 * p.count) := by
            rw [hvalue]
            dsimp only
            ring
          by_cases hsmall : b.toNat % 128 + 128 * m < 128
          · -- The later groups are empty: all of them are padding.
            obtain rfl : m = 0 := by omega
            obtain ⟨k, rfl⟩ := Nat.exists_eq_succ_of_ne_zero (show k ≠ 0 by omega)
            have hlast : announce (.ofNat (b.toNat % 128 + 128 * 0)) = b := by
              rw [announce, toNat_ofNat_of_lt (by omega),
                show (b.toNat % 128 + 128 * 0) % 128 + 128 = b.toNat by omega, UInt8.ofNat_toNat]
            refine ⟨_, extra + 1, hplace, ?_⟩
            rw [groups, if_pos hsmall, Function.iterate_succ_apply, heq, groups,
              if_pos (by decide), ← iterate_pad_cons hopen, pad, List.map_singleton, hlast]
            rfl
          · have hlow : (b.toNat % 128 + 128 * m) % 128 + 128 = b.toNat := by omega
            have hhigh : (b.toNat % 128 + 128 * m) / 128 = m := by omega
            refine ⟨_, extra, hplace, ?_⟩
            rw [groups, if_neg hsmall, hlow, hhigh, UInt8.ofNat_toNat, iterate_pad_cons hopen,
              ← heq]

/-- A part of a varint that does not reach its end leaves it open. -/
theorem scanFrom_part {bs rest : Bytes} {p : Partial} {n used : Nat}
    (h : scanFrom p (bs ++ rest) = .whole n used) (hpart : p.count + bs.length < used) :
    scanFrom p bs = .incomplete := by
  induction bs generalizing p with
  | nil => rfl
  | cons b bs ih =>
      rw [List.length_cons] at hpart
      cases hpush : p.push b with
      | malformed => simp [scanFrom, hpush] at h
      | done value =>
          -- The varint ends here, before the part does.
          have hused : p.count + 1 = used := by
            simp only [List.cons_append, scanFrom, hpush, IntForm.Scan.whole.injEq] at h
            exact h.2
          omega
      | more q =>
          obtain ⟨hcount, -⟩ := push_eq_more hpush
          simp only [List.cons_append, scanFrom, hpush] at h ⊢
          exact ih h (by omega)

end Varint

namespace IntForm

/-- A byte string that is read as this number, and read to its end. -/
def Spells (f : IntForm) (bs : Bytes) (n : Nat) : Prop :=
  f.scan bs = .whole n bs.length

theorem spells_bytes {f : IntForm} {n : Nat} (h : n < f.capacity) : f.Spells (f.bytes n) n := by
  have hscan := scan_bytes_append h []
  rwa [List.append_nil] at hscan

/-- What a fixed width is read as, it is the digits of. -/
theorem eq_of_scanFixed {w n : Nat} {bs : Bytes} (h : scanFixed w bs = .whole n bs.length) :
    n < 256 ^ w ∧ bs = Bytes.ofNatBE w n := by
  unfold scanFixed at h
  split at h
  · simp at h
  · obtain ⟨rfl, rfl⟩ := Scan.whole.inj h
    rw [List.take_length, Bytes.ofNatBE_toNatBE]
    exact ⟨Bytes.toNatBE_lt bs, rfl⟩

/-- No spelling of a number is shorter than its bytes, and no other one is as
short. -/
theorem Spells.canonical {f : IntForm} {bs : Bytes} {n : Nat} (h : f.Spells bs n) :
    (f.bytes n).length ≤ bs.length ∧
      (bs.length ≤ (f.bytes n).length → bs = f.bytes n) := by
  cases f with
  | varint =>
      have hscan : Varint.scanFrom .start bs =
          .whole n (Varint.Partial.start.count + bs.length) := by
        simpa [Spells, scan, Varint.Partial.start] using h
      obtain ⟨m, extra, hvalue, heq⟩ := Varint.padded_of_scanFrom hscan
        (k := Varint.maxWidth) (by simp [Varint.Partial.start])
      obtain rfl : n = m := by simpa [Varint.Partial.start] using hvalue
      have hlength : bs.length = (bytes .varint n).length + extra := by
        rw [heq, Varint.length_iterate_pad]
        rfl
      refine ⟨by omega, fun hle => ?_⟩
      obtain rfl : extra = 0 := by omega
      exact heq
  | fixed1 | fixed2 | fixed4 | fixed8 =>
      obtain ⟨-, heq⟩ := eq_of_scanFixed h
      simp only [bytes]
      exact ⟨by rw [← heq], fun _ => heq⟩

/-- A proper beginning of the bytes of a number is no number. -/
theorem scan_part {f : IntForm} {n : Nat} (hn : n < f.capacity) {part : Bytes}
    (hpart : part <+: f.bytes n) (hne : part ≠ f.bytes n) : f.scan part = .incomplete := by
  have hshort : part.length < (f.bytes n).length :=
    lt_of_le_of_ne hpart.length_le fun heq => hne (hpart.eq_of_length heq)
  cases f with
  | varint =>
      obtain ⟨rest, hrest⟩ := hpart
      have hwhole := spells_bytes hn
      rw [Spells, ← hrest] at hwhole
      rw [← hrest] at hshort
      exact Varint.scanFrom_part hwhole (by simpa [Varint.Partial.start] using hshort)
  | fixed1 | fixed2 | fixed4 | fixed8 =>
      simp only [bytes, Bytes.length_ofNatBE] at hshort
      exact if_pos hshort

end IntForm

/-! ## Numbers from any source -/

/-- The bytes that a source has given up for a varint. -/
theorem Varint.bytes_of_fromSource {k : Nat} {p : Partial} {s s' : Source} {n : Nat}
    (h : fromSource k p s = (.ok (some n), s')) :
    ∃ head : Bytes, s.bytes = head ++ s'.bytes ∧
      scanFrom p head = .whole n (p.count + head.length) := by
  induction k generalizing p s with
  | zero => simp [fromSource] at h
  | succ k ih =>
      unfold fromSource at h
      cases hgather : s.gather 1 with
      | mk answer rest =>
          cases answer with
          | error e => simp [hgather] at h
          | ok bs =>
              cases bs with
              | nil =>
                  simp only [hgather, Prod.mk.injEq] at h
                  split at h <;> simp at h
              | cons b bs =>
                  have hlength := (Source.gather_ok hgather).1
                  obtain rfl : bs = [] :=
                    List.eq_nil_of_length_eq_zero (by simpa using hlength)
                  have hbytes := Source.bytes_of_gather hgather
                  simp only [hgather] at h
                  cases hpush : p.push b with
                  | malformed => simp [hpush] at h
                  | done value =>
                      simp only [hpush, Prod.mk.injEq, Except.ok.injEq, Option.some.injEq] at h
                      obtain ⟨rfl, rfl⟩ := h
                      exact ⟨[b], hbytes, by simp [scanFrom, hpush]⟩
                  | more q =>
                      obtain ⟨hcount, -⟩ := push_eq_more hpush
                      simp only [hpush] at h
                      obtain ⟨head, hhead, hscan⟩ := ih h
                      refine ⟨b :: head, by rw [hbytes, hhead]; rfl, ?_⟩
                      simp only [scanFrom, hpush, hscan, hcount, List.length_cons,
                        IntForm.Scan.whole.injEq, true_and]
                      omega

/-- Where a varint could not be read, the bytes that the source has given up for it
do not reach the end of one. -/
theorem Varint.part_of_fromSource {k : Nat} {p : Partial} {s s' : Source} {f : Failure}
    (h : fromSource k p s = (.error f, s')) :
    ∃ part : Bytes, s.bytes = part ++ s'.bytes ∧ ∀ n used, scanFrom p part ≠ .whole n used := by
  have unopened : ∀ n used, scanFrom p [] ≠ .whole n used := by simp [scanFrom]
  induction k generalizing p s with
  | zero =>
      obtain rfl := (Prod.mk.inj h).2
      exact ⟨[], rfl, unopened⟩
  | succ k ih =>
      unfold fromSource at h
      cases hgather : s.gather 1 with
      | mk answer rest =>
          cases answer with
          | error e =>
              simp only [hgather, Prod.mk.injEq] at h
              obtain ⟨-, rfl⟩ := h
              obtain ⟨lost, hbytes, hless⟩ := Source.bytes_of_gather_error hgather
              obtain rfl : lost = [] := List.eq_nil_of_length_eq_zero (by omega)
              exact ⟨[], hbytes, unopened⟩
          | ok bs =>
              have hbytes := Source.bytes_of_gather hgather
              cases bs with
              | nil =>
                  simp only [hgather, Prod.mk.injEq] at h
                  obtain ⟨-, rfl⟩ := h
                  exact ⟨[], hbytes, unopened⟩
              | cons b bs =>
                  have hlength := (Source.gather_ok hgather).1
                  obtain rfl : bs = [] :=
                    List.eq_nil_of_length_eq_zero (by simpa using hlength)
                  simp only [hgather] at h
                  cases hpush : p.push b with
                  | done value => simp [hpush] at h
                  | malformed =>
                      simp only [hpush, Prod.mk.injEq] at h
                      obtain ⟨-, rfl⟩ := h
                      exact ⟨[b], hbytes, by simp [scanFrom, hpush]⟩
                  | more q =>
                      simp only [hpush] at h
                      obtain ⟨part, hpart, hscan⟩ := ih h (by simp [scanFrom])
                      refine ⟨b :: part, by rw [hbytes, hpart]; rfl, ?_⟩
                      simpa [scanFrom, hpush] using hscan

/-- Where no varint was begun, nothing has been taken. -/
theorem Varint.bytes_of_fromSource_none {k : Nat} {p : Partial} {s s' : Source}
    (h : fromSource k p s = (.ok none, s')) : s.bytes = s'.bytes ∧ p.count = 0 := by
  induction k generalizing p s with
  | zero => simp [fromSource] at h
  | succ k ih =>
      unfold fromSource at h
      cases hgather : s.gather 1 with
      | mk answer rest =>
          cases answer with
          | error e => simp [hgather] at h
          | ok bs =>
              cases bs with
              | nil =>
                  simp only [hgather, Prod.mk.injEq] at h
                  obtain ⟨hnone, rfl⟩ := h
                  refine ⟨Source.bytes_of_gather hgather, ?_⟩
                  by_contra hopen
                  simp [hopen] at hnone
              | cons b bs =>
                  simp only [hgather] at h
                  cases hpush : p.push b with
                  | done value => simp [hpush] at h
                  | malformed => simp [hpush] at h
                  | more q =>
                      -- A varint that has been begun is cut, not missing.
                      obtain ⟨hcount, -⟩ := push_eq_more hpush
                      simp only [hpush] at h
                      have := (ih h).2
                      omega

/-- A number that has been read from a source was spelled by the bytes that the
source has given up. -/
theorem IntForm.spells_of_fromSource {f : IntForm} {s s' : Source} {n : Nat}
    (h : f.fromSource s = (.ok (some n), s')) :
    ∃ head : Bytes, s.bytes = head ++ s'.bytes ∧ f.Spells head n := by
  have fixed {w : Nat} (hread : fixedFromSource w s = (.ok (some n), s')) :
      ∃ head : Bytes, s.bytes = head ++ s'.bytes ∧ scanFixed w head = .whole n head.length := by
    unfold fixedFromSource at hread
    cases hgather : s.gather w with
    | mk answer rest =>
        cases answer with
        | error e => simp [hgather] at hread
        | ok bs =>
            have hlength := (Source.gather_ok hgather).1
            simp only [hgather] at hread
            split at hread
            · simp at hread
            · split at hread
              · simp at hread
              · rename_i hlong
                obtain ⟨hvalue, rfl⟩ := Prod.mk.inj hread
                obtain rfl : bs.length = w := by omega
                refine ⟨bs, Source.bytes_of_gather hgather, ?_⟩
                simpa [scanFixed] using hvalue
  cases f with
  | varint =>
      obtain ⟨head, hbytes, hscan⟩ := Varint.bytes_of_fromSource h
      exact ⟨head, hbytes, by simpa [Spells, scan, Varint.Partial.start] using hscan⟩
  | fixed1 | fixed2 | fixed4 | fixed8 => exact fixed h

/-- Where a number could not be read, the bytes that the source has given up for it
hold none. -/
theorem IntForm.part_of_fromSource {f : IntForm} {s s' : Source} {e : Failure}
    (h : f.fromSource s = (.error e, s')) :
    ∃ part : Bytes, s.bytes = part ++ s'.bytes ∧ ∀ n used, f.scan part ≠ .whole n used := by
  have fixed {w : Nat} (hread : fixedFromSource w s = (.error e, s')) :
      ∃ part : Bytes, s.bytes = part ++ s'.bytes ∧ ∀ n used, scanFixed w part ≠ .whole n used := by
    have short {part : Bytes} (hpart : part.length < w) (n used : Nat) :
        scanFixed w part ≠ .whole n used := by
      simp [scanFixed, hpart]
    unfold fixedFromSource at hread
    cases hgather : s.gather w with
    | mk answer rest =>
        cases answer with
        | error e =>
            simp only [hgather, Prod.mk.injEq] at hread
            obtain ⟨-, rfl⟩ := hread
            obtain ⟨lost, hbytes, hless⟩ := Source.bytes_of_gather_error hgather
            exact ⟨lost, hbytes, short hless⟩
        | ok bs =>
            simp only [hgather] at hread
            split at hread
            · simp at hread
            · split at hread
              · rename_i hcut
                obtain rfl := (Prod.mk.inj hread).2
                exact ⟨bs, Source.bytes_of_gather hgather, short hcut⟩
              · simp at hread
  cases f with
  | varint => exact Varint.part_of_fromSource h
  | fixed1 | fixed2 | fixed4 | fixed8 => exact fixed h

/-- Where no number was begun, nothing has been taken. -/
theorem IntForm.bytes_of_fromSource_none {f : IntForm} {s s' : Source}
    (h : f.fromSource s = (.ok none, s')) : s.bytes = s'.bytes := by
  have fixed {w : Nat} (hread : fixedFromSource w s = (.ok none, s')) : s.bytes = s'.bytes := by
    unfold fixedFromSource at hread
    cases hgather : s.gather w with
    | mk answer rest =>
        cases answer with
        | error e => simp [hgather] at hread
        | ok bs =>
            simp only [hgather] at hread
            split at hread
            · rename_i hempty
              obtain rfl := (Prod.mk.inj hread).2
              obtain rfl := List.isEmpty_iff.1 hempty
              exact Source.bytes_of_gather hgather
            · split at hread <;> simp at hread
  cases f with
  | varint => exact (Varint.bytes_of_fromSource_none h).1
  | fixed1 | fixed2 | fixed4 | fixed8 => exact fixed h

end SealedStream
