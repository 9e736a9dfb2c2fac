import Mathlib.Data.Nat.Log
import SealedStream.Proofs.Flow

/-!
# The width of an integer

How many bytes an integer takes is known before it is written: for a varint from the number
of its binary digits, seven of them to a byte.  What is written has that width, is put
behind whatever is there, and is found again in front of whatever follows, in a byte string
as well as in a source.  So no two numbers are written in such a way that one begins with the
other.
-/

namespace SealedStream

namespace Varint

theorem width_of_lt {n : Nat} (h : n < 128) : width n = 1 := by
  unfold width bitLength
  split
  · rfl
  · rename_i hne
    have hlog := (Nat.log2_lt hne).2 (show n < 2 ^ 7 from h)
    omega

/-- A group more takes seven binary digits more. -/
theorem width_of_le {n : Nat} (h : 128 ≤ n) : width n = width (n / 128) + 1 := by
  have hdiv : (n / 128).log2 = n.log2 - 7 := by
    rw [Nat.log2_eq_log_two, Nat.log2_eq_log_two]
    exact Nat.log_div_base_pow 2 n 7
  have hlog := (Nat.le_log2 (show n ≠ 0 by omega)).2 (show 2 ^ 7 ≤ n from h)
  simp only [width, bitLength, hdiv, if_neg (show n ≠ 0 by omega),
    if_neg (show n / 128 ≠ 0 by omega)]
  omega

/-- The groups of a number are as many as its binary digits ask for. -/
theorem length_groups (k : Nat) {n : Nat} (h : n < 128 ^ (k + 1)) :
    (groups (k + 1) n).length = width n := by
  induction k generalizing n with
  | zero =>
      have hlt : n < 128 := by simpa using h
      rw [groups, if_pos hlt, width_of_lt hlt, List.length_singleton]
  | succ k ih =>
      by_cases hlt : n < 128
      · rw [groups, if_pos hlt, width_of_lt hlt, List.length_singleton]
      · have hrest : n / 128 < 128 ^ (k + 1) := by
          apply Nat.div_lt_of_lt_mul
          rwa [← pow_succ']
        rw [groups, if_neg hlt, width_of_le (Nat.le_of_not_lt hlt), List.length_cons, ih hrest]

theorem length_encode {n : Nat} (h : n < intBound) : (encode n).length = width n := by
  refine length_groups 9 (Nat.lt_trans h ?_)
  decide

end Varint

/-! ## What comes behind in a source -/

namespace Source

/-- Where all that was asked for has come, nothing behind it makes a difference. -/
theorem gather_before {s s' : Source} {n : Nat} {bs : Bytes} (tail : Source)
    (h : s.gather n = (.ok bs, s')) (hn : bs.length = n) :
    (s ++ tail).gather n = (.ok bs, s' ++ tail) := by
  induction s generalizing n bs with
  | nil =>
      obtain ⟨rfl, rfl⟩ : [] = bs ∧ [] = s' := by simpa [gather] using h
      subst hn
      exact gather_zero tail
  | cons e s ih =>
      by_cases hzero : n = 0
      · subst hzero
        rw [gather_zero] at h ⊢
        obtain ⟨rfl, rfl⟩ : [] = bs ∧ e :: s = s' := by simpa using h
        rfl
      · cases e with
        | data piece =>
            simp only [gather, if_neg hzero] at h
            simp only [List.cons_append, gather, if_neg hzero]
            by_cases hlt : n < piece.length
            · rw [if_pos hlt] at h ⊢
              obtain ⟨rfl, rfl⟩ : piece.take n = bs ∧ .data (piece.drop n) :: s = s' := by
                simpa using h
              rfl
            · rw [if_neg hlt] at h ⊢
              rcases hmore : gather (n - piece.length) s with ⟨f | more, rest⟩
              · simp [hmore, Except.map] at h
              · obtain ⟨rfl, rfl⟩ : piece ++ more = bs ∧ rest = s' := by
                  simpa [hmore, Except.map] using h
                rw [List.length_append] at hn
                rw [ih hmore (by omega)]
                rfl
        | ended =>
            -- An end leaves the request unsatisfied.
            obtain ⟨rfl, rfl⟩ : [] = bs ∧ s = s' := by simpa [gather, hzero] using h
            exact (hzero hn.symm).elim
        | failure f =>
            simp only [gather, if_neg hzero] at h
            simp only [List.cons_append, gather, if_neg hzero]
            split
            · rename_i hagain
              rw [if_pos hagain] at h
              exact ih h hn
            · rename_i hfails
              simp [hfails] at h

end Source

/-- A varint that has been read does not depend on what comes behind it. -/
theorem Varint.fromSource_before {k : Nat} {p : Partial} {s s' : Source} {n : Nat}
    (tail : Source) (h : fromSource k p s = (.ok (some n), s')) :
    fromSource k p (s ++ tail) = (.ok (some n), s' ++ tail) := by
  induction k generalizing p s with
  | zero => simp [fromSource] at h
  | succ k ih =>
      unfold fromSource at h
      rcases hgather : s.gather 1 with ⟨e | bs, rest⟩
      · simp [hgather] at h
      · cases bs with
        | nil =>
            simp only [hgather, Prod.mk.injEq] at h
            split at h <;> simp at h
        | cons b bs =>
            have hlength := (Source.gather_ok hgather).1
            have hbefore := Source.gather_before tail hgather (by simpa using hlength)
            unfold fromSource
            simp only [hgather] at h
            simp only [hbefore]
            cases hpush : p.push b with
            | malformed => simp [hpush] at h
            | done value =>
                simp only [hpush, Prod.mk.injEq] at h ⊢
                exact ⟨h.1, by rw [h.2]⟩
            | more q =>
                simp only [hpush] at h ⊢
                exact ih h

/-- An integer that has been read does not depend on what comes behind it. -/
theorem IntForm.fromSource_before {f : IntForm} {s s' : Source} {n : Nat} (tail : Source)
    (h : f.fromSource s = (.ok (some n), s')) :
    f.fromSource (s ++ tail) = (.ok (some n), s' ++ tail) := by
  have fixed {w : Nat} (hread : fixedFromSource w s = (.ok (some n), s')) :
      fixedFromSource w (s ++ tail) = (.ok (some n), s' ++ tail) := by
    unfold fixedFromSource at hread
    rcases hgather : s.gather w with ⟨e | bs, rest⟩
    · simp [hgather] at hread
    · have hlength := (Source.gather_ok hgather).1
      simp only [hgather] at hread
      split at hread
      · simp at hread
      · rename_i hsome
        split at hread
        · simp at hread
        · rename_i hlong
          obtain ⟨hvalue, rfl⟩ := Prod.mk.inj hread
          have hbefore := Source.gather_before tail hgather (by omega)
          simp only [fixedFromSource, hbefore, if_neg hsome, if_neg hlong, hvalue]
  cases f with
  | varint => exact Varint.fromSource_before tail h
  | fixed1 | fixed2 | fixed4 | fixed8 => exact fixed h

/-! ## Integers in their surroundings -/

namespace IntForm

/-- The width that is known beforehand is the number of bytes that are written. -/
theorem width?_eq {f : IntForm} {n : Nat} :
    f.width? n = if n < f.capacity then some (f.bytes n).length else none := by
  unfold width?
  by_cases h : n < f.capacity
  · rw [if_pos h, if_pos h]
    cases f with
    | varint => exact congrArg some (Varint.length_encode h).symm
    | fixed1 | fixed2 | fixed4 | fixed8 => simp [bytes]
  · rw [if_neg h, if_neg h]

theorem width?_eq_some {f : IntForm} {n width : Nat} :
    f.width? n = some width ↔ n < f.capacity ∧ (f.bytes n).length = width := by
  rw [width?_eq]
  split <;> simp_all

/-- What is appended are the bytes that the form gives the number by itself. -/
theorem encodeOnto_eq (f : IntForm) (n : Nat) (out : Bytes) :
    f.encodeOnto n out =
      match f.encode n with
      | .ok bs => (.ok bs.length, out ++ bs)
      | .error e => (.error e, out) := by
  rw [encodeOnto, encode, width?_eq]
  by_cases h : n < f.capacity
  · rw [if_pos h]
  · rw [if_neg h]

/-- A number begins with the bytes of another only if it is the same number. -/
theorem eq_of_prefix_bytes {f : IntForm} {m n : Nat} (hm : m < f.capacity) (hn : n < f.capacity)
    (h : f.bytes m <+: f.bytes n) : m = n := by
  obtain ⟨rest, hrest⟩ := h
  have hfront := decode_bytes_append hm rest
  have hwhole := decode_bytes_append hn []
  rw [List.append_nil, ← hrest, hfront] at hwhole
  exact (Prod.mk.inj (Except.ok.inj hwhole)).1

/-- An integer is found again wherever it has been put.  If it has no width in the form, it
is refused and nothing is changed.  Otherwise its bytes are put behind whatever is there, as
many of them as the width says.  With anything behind them they are decoded as the number,
and so are they where a source begins with them, in pieces of any sizes and with any
interruptions, and whatever comes after those: the source is left behind the last of them.
The bytes of no other number begin with them. -/
theorem found_among_others (f : IntForm) (n : Nat) (out : Bytes) :
    match f.width? n with
    | none => f.encodeOnto n out = (.error (.intTooWide n f), out)
    | some width =>
        f.encodeOnto n out = (.ok width, out ++ f.bytes n) ∧
          (f.bytes n).length = width ∧ width ≤ f.maxWidth ∧
          (∀ rest, f.decode (f.bytes n ++ rest) = .ok (n, width)) ∧
          (∀ (front tail : Source) (rest : Bytes), front.Flows → front.bytes = f.bytes n ++ rest →
            ∃ front' : Source, f.fromSource (front ++ tail) = (.ok (some n), front' ++ tail) ∧
              front'.Flows ∧ front'.bytes = rest ∧ front.left = width + front'.left) ∧
          ∀ m, f.width? m ≠ none → m ≠ n →
            ¬ f.bytes n <+: f.bytes m ∧ ¬ f.bytes m <+: f.bytes n := by
  by_cases hn : n < f.capacity
  · have hwidth : f.width? n = some (f.bytes n).length := by rw [width?_eq, if_pos hn]
    rw [hwidth]
    refine ⟨?_, rfl, f.length_bytes_le n, decode_bytes_append hn, ?_, ?_⟩
    · rw [encodeOnto_eq, encode_of_lt hn]
    · intro front tail rest hflows hfront
      obtain ⟨front', hread, hflows', hrest⟩ := fromSource_bytes_append hflows hn hfront
      refine ⟨front', fromSource_before tail hread, hflows', hrest, ?_⟩
      rw [← Source.length_bytes, ← Source.length_bytes, hfront, hrest, List.length_append]
    · intro m hm hne
      have hm' : m < f.capacity := by
        by_contra hlarge
        exact hm (by rw [width?_eq, if_neg hlarge])
      exact ⟨fun h => hne (eq_of_prefix_bytes hn hm' h).symm,
        fun h => hne (eq_of_prefix_bytes hm' hn h)⟩
  · have hwidth : f.width? n = none := by rw [width?_eq, if_neg hn]
    rw [hwidth]
    show f.encodeOnto n out = _
    rw [encodeOnto, hwidth]

/-- Three hundred behind a seven: its two bytes are read from a source that is interrupted
between them, and the nine behind them stays. -/
theorem three_hundred_found :
    IntForm.varint.encodeOnto 300 [7] = (.ok 2, [7, 0xac, 2]) ∧
      IntForm.varint.decode [0xac, 2, 9] = .ok (300, 2) ∧
      ∃ front : Source,
        IntForm.varint.fromSource
            ([.data [0xac], .failure ⟨.interrupted, none⟩, .data [2, 9]] ++ [.ended]) =
          (.ok (some 300), front ++ [.ended]) ∧ front.bytes = [9] := by
  obtain ⟨hencode, -, -, hdecode, hread, -⟩ := found_among_others .varint 300 [7]
  have hflows :
      Source.Flows [.data [0xac], .failure ⟨.interrupted, none⟩, .data [2, 9]] := by
    simp [Source.Flows, Source.Event.Flows, IoError.isInterrupted]
  obtain ⟨front, hfront, -, hrest, -⟩ := hread _ [.ended] [9] hflows rfl
  exact ⟨hencode, hdecode [9], front, hfront, hrest⟩

end IntForm

end SealedStream
