import Mathlib.Data.List.TakeWhile
import SealedStream.Proofs.Widths

/-!
# Reading until enough is there

A single call to a source may bring less than it was asked for, or an interruption and nothing
at all.  `Source.gather` stands for a loop of such calls, each of them for what is still
missing.  `Source.Fills` is that loop with no bound on its rounds, and it comes to an end on
every source.

What the loop brings depends on the bytes that stand before the first end or the first error
other than an interruption.  How they are cut into pieces makes no difference, nor does an
interruption, and where they are enough, nothing that comes later is looked at.
-/

namespace SealedStream

namespace Source

variable {s s' front : Source} {n : Nat} {answer : Except IoError Bytes}

/-! ## Up to the first stop -/

/-- An event at which reading stops: an end, or an error other than an interruption. -/
def Event.stops : Event → Bool
  | .data _ => false
  | .ended => true
  | .failure e => !e.isInterrupted

/-- What comes before the first stop. -/
def ahead (s : Source) : Source :=
  s.takeWhile fun e => !e.stops

/-- The first stop and all that comes behind it. -/
def beyond (s : Source) : Source :=
  s.dropWhile fun e => !e.stops

theorem Event.flows_iff {e : Event} : e.Flows ↔ e.stops = false := by
  cases e with
  | data bs => simp [Flows, stops]
  | ended => simp [Flows, stops]
  | failure f => simp [Flows, stops]

theorem ahead_append_beyond (s : Source) : s.ahead ++ s.beyond = s :=
  List.takeWhile_append_dropWhile

theorem flows_ahead (s : Source) : s.ahead.Flows := by
  intro e he
  apply Event.flows_iff.2
  simpa using List.mem_takeWhile_imp he

/-- Beyond that there is nothing, or an end, or an error that stays. -/
theorem beyond_cases (s : Source) :
    s.beyond = [] ∨ (∃ t, s.beyond = .ended :: t) ∨
      ∃ e t, s.beyond = .failure e :: t ∧ e.isInterrupted = false := by
  cases hbeyond : s.beyond with
  | nil => exact .inl rfl
  | cons event t =>
      have hstops : event.stops = true := by
        have hhead := List.head?_dropWhile_not (fun e : Event => !e.stops) s
        rw [show s.dropWhile (fun e => !e.stops) = event :: t from hbeyond] at hhead
        simpa using hhead
      cases event with
      | data bs => simp [Event.stops] at hstops
      | ended => exact .inr (.inl ⟨t, rfl⟩)
      | failure e => exact .inr (.inr ⟨e, t, rfl, by simpa [Event.stops] using hstops⟩)

/-! ## What is brought -/

/-- What flows is enough: nothing that comes behind it makes a difference. -/
theorem gather_enough (hfront : front.Flows) (hn : n ≤ front.bytes.length) :
    ∃ rest : Source, rest.Flows ∧ rest.bytes = front.bytes.drop n ∧
      ∀ tail, (front ++ tail).gather n = (.ok (front.bytes.take n), rest ++ tail) := by
  obtain ⟨rest, hgather, hflows, hrest⟩ := gather_of_flows hfront n
  refine ⟨rest, hflows, hrest, fun tail => gather_before tail hgather ?_⟩
  rw [List.length_take, Nat.min_eq_left hn]

/-- What flows is not enough: it is taken whole, and what is missing is asked of what comes
behind. -/
theorem gather_past (hfront : front.Flows) (hn : front.bytes.length < n) (back : Source) :
    (front ++ back).gather n =
      ((back.gather (n - front.bytes.length)).1.map (front.bytes ++ ·),
        (back.gather (n - front.bytes.length)).2) := by
  induction front generalizing n with
  | nil =>
      rcases hback : back.gather n with ⟨e | bs, rest⟩
      · simp [bytes, hback, Except.map]
      · simp [bytes, hback, Except.map]
  | cons e front ih =>
      have htail : Flows front := fun e' he' => hfront e' (List.mem_cons_of_mem e he')
      have hzero : n ≠ 0 := by omega
      cases e with
      | data piece =>
          have hbytes : bytes (.data piece :: front) = piece ++ bytes front := by
            simp [bytes, Event.bytes]
          rw [hbytes, List.length_append] at hn
          have hmore := ih htail (n := n - piece.length) (by omega)
          have hmissing : n - piece.length - (bytes front).length =
              n - (piece ++ bytes front).length := by
            rw [List.length_append]
            omega
          rw [hmissing] at hmore
          rw [hbytes, List.cons_append, gather, if_neg hzero, if_neg (by omega), hmore]
          rcases back.gather (n - (piece ++ bytes front).length) with ⟨f | bs, rest⟩
          · rfl
          · simp [Except.map]
      | ended => exact (hfront .ended List.mem_cons_self).elim
      | failure f =>
          have hagain : f.isInterrupted = true := hfront (.failure f) List.mem_cons_self
          have hbytes : bytes (.failure f :: front) = bytes front := by
            simp [bytes, Event.bytes]
          rw [hbytes] at hn ⊢
          rw [List.cons_append, gather, if_neg hzero, if_pos hagain]
          exact ih htail hn

/-! ## Interruptions -/

/-- The error is an interruption. -/
def Event.interrupts : Event → Bool
  | .failure e => e.isInterrupted
  | .data _ | .ended => false

/-- The source without its interruptions. -/
def uninterrupted (s : Source) : Source :=
  s.filter fun e => !e.interrupts

/-- An interruption changes nothing, wherever it comes: the answer is the same without any. -/
theorem gather_uninterrupted (s : Source) (n : Nat) :
    s.uninterrupted.gather n = ((s.gather n).1, (s.gather n).2.uninterrupted) := by
  by_cases hzero : n = 0
  · subst hzero
    rw [gather_zero, gather_zero]
  · induction s generalizing n with
    | nil => rfl
    | cons e s ih =>
        cases e with
        | data piece =>
            have hkept : uninterrupted (.data piece :: s) = .data piece :: uninterrupted s := rfl
            rw [hkept, gather, gather, if_neg hzero, if_neg hzero]
            split
            · rfl
            · by_cases hfull : n - piece.length = 0
              · rw [hfull, gather_zero, gather_zero]
              · rw [ih _ hfull]
        | ended =>
            have hkept : uninterrupted (.ended :: s) = .ended :: uninterrupted s := rfl
            rw [hkept, gather, gather, if_neg hzero, if_neg hzero]
        | failure f =>
            cases hagain : f.isInterrupted with
            | true =>
                have hleft : uninterrupted (.failure f :: s) = uninterrupted s := by
                  simp [uninterrupted, Event.interrupts, hagain]
                rw [hleft, gather, if_neg hzero, if_pos hagain]
                exact ih n hzero
            | false =>
                have hkept : uninterrupted (.failure f :: s) = .failure f :: uninterrupted s := by
                  simp [uninterrupted, Event.interrupts, hagain]
                rw [hkept, gather, gather, if_neg hzero, if_neg hzero]
                simp [hagain]

/-! ## The loop -/

/-- So many calls, each for what is still missing, bring this answer and leave the source so:
`n` bytes are missing at first, and `got` is what is there. -/
inductive Fills : Nat → Nat → Source → Bytes → Except IoError Bytes → Source → Prop
  /-- Nothing is missing, and there is no further call. -/
  | full {s : Source} {got : Bytes} : Fills 0 0 s got (.ok got) s
  /-- A call that brings nothing is the end. -/
  | ended {n : Nat} {s s' : Source} {got : Bytes} :
      0 < n → s.read n = (.ok [], s') → Fills 1 n s got (.ok got) s'
  | more {k n : Nat} {s s' u : Source} {got bs : Bytes} {answer : Except IoError Bytes} :
      0 < n → s.read n = (.ok bs, s') → bs ≠ [] →
      Fills k (n - bs.length) s' (got ++ bs) answer u → Fills (k + 1) n s got answer u
  /-- An interrupted call is repeated. -/
  | again {k n : Nat} {s s' u : Source} {got : Bytes} {e : IoError}
      {answer : Except IoError Bytes} :
      0 < n → s.read n = (.error e, s') → e.isInterrupted = true →
      Fills k n s' got answer u → Fills (k + 1) n s got answer u
  | fails {n : Nat} {s s' : Source} {got : Bytes} {e : IoError} :
      0 < n → s.read n = (.error e, s') → e.isInterrupted = false →
      Fills 1 n s got (.error e) s'

/-- The first round of the loop. -/
theorem gather_round (s : Source) (hn : 0 < n) :
    s.gather n =
      match s.read n with
      | (.ok [], s') => (.ok [], s')
      | (.ok (b :: bs), s') =>
          ((s'.gather (n - (b :: bs).length)).1.map ((b :: bs) ++ ·),
            (s'.gather (n - (b :: bs).length)).2)
      | (.error e, s') => if e.isInterrupted then s'.gather n else (.error e, s') := by
  have hzero : n ≠ 0 := hn.ne'
  induction s with
  | nil => rfl
  | cons e s ih =>
      cases e with
      | data piece =>
          rw [gather, if_neg hzero, read, if_neg hzero]
          cases piece with
          | nil =>
              -- An empty piece is passed over.
              rw [List.isEmpty_nil, if_pos rfl, List.length_nil, if_neg (Nat.not_lt_zero n),
                Nat.sub_zero, ← ih]
              rcases gather n s with ⟨f | bs, rest⟩
              · rfl
              · simp [Except.map]
          | cons b bs =>
              rw [List.isEmpty_cons, if_neg Bool.false_ne_true]
              by_cases hlong : n < (b :: bs).length
              · obtain ⟨n, rfl⟩ := Nat.exists_eq_succ_of_ne_zero hzero
                rw [if_pos hlong, if_neg (Nat.not_le_of_lt hlong)]
                have hall : n + 1 - (b :: bs.take n).length = 0 := by
                  simp at hlong ⊢
                  omega
                simp only [List.take_succ_cons, hall, gather_zero, Except.map, List.append_nil]
              · rw [if_neg hlong, if_pos (Nat.le_of_not_lt hlong)]
      | ended => rw [gather, if_neg hzero, read, if_neg hzero]
      | failure f => rw [gather, if_neg hzero, read, if_neg hzero]

/-- A call takes an event away, or it brings nothing, or all that it was asked for. -/
theorem read_progress (h : s.read n = (answer, s')) (hn : 0 < n) :
    s'.length < s.length ∨ answer = .ok [] ∨ ∃ bs, answer = .ok bs ∧ bs.length = n := by
  have hzero : n ≠ 0 := hn.ne'
  induction s with
  | nil =>
      obtain ⟨rfl, -⟩ := Prod.mk.inj h
      exact .inr (.inl rfl)
  | cons e s ih =>
      rw [List.length_cons]
      cases e with
      | data piece =>
          rw [read, if_neg hzero] at h
          split at h
          · rcases ih h with hless | hrest
            · exact .inl (by omega)
            · exact .inr hrest
          · split at h
            · obtain ⟨-, rfl⟩ := Prod.mk.inj h
              exact .inl (Nat.lt_succ_self _)
            · rename_i hlong
              obtain ⟨rfl, -⟩ := Prod.mk.inj h
              refine .inr (.inr ⟨_, rfl, ?_⟩)
              rw [List.length_take, Nat.min_eq_left (by omega)]
      | ended =>
          rw [read, if_neg hzero] at h
          obtain ⟨-, rfl⟩ := Prod.mk.inj h
          exact .inl (Nat.lt_succ_self _)
      | failure f =>
          rw [read, if_neg hzero] at h
          obtain ⟨-, rfl⟩ := Prod.mk.inj h
          exact .inl (Nat.lt_succ_self _)

/-- What is put in front twice is put in front at once. -/
theorem map_append_map (answer : Except IoError Bytes) (got bs : Bytes) :
    (answer.map (bs ++ ·)).map (got ++ ·) = answer.map (got ++ bs ++ ·) := by
  cases answer with
  | error e => rfl
  | ok more => simp [Except.map]

/-- The loop comes to its end after one call for every event and one more at most.  The
induction is on the events: a call that leaves them all there has brought all that was
missing. -/
theorem exists_fills (s : Source) (n : Nat) (got : Bytes) :
    ∃ k ≤ s.length + 1,
      Fills k n s got ((s.gather n).1.map (got ++ ·)) (s.gather n).2 := by
  induction hlength : s.length using Nat.strong_induction_on generalizing s n got with
  | _ events ih =>
    subst hlength
    have hfull (u : Source) (got : Bytes) :
        Fills 0 0 u got ((u.gather 0).1.map (got ++ ·)) (u.gather 0).2 := by
      rw [gather_zero]
      simpa [Except.map] using @Fills.full u got
    rcases Nat.eq_zero_or_pos n with rfl | hn
    · exact ⟨0, Nat.zero_le _, hfull s got⟩
    · have hround := gather_round s hn
      rcases hread : s.read n with ⟨e | bs, s'⟩
      · have hless : s'.length < s.length := by simpa using read_progress hread hn
        rw [hread] at hround
        cases hagain : e.isInterrupted with
        | true =>
            obtain ⟨k, hk, hfills⟩ := ih _ hless s' n got rfl
            rw [hround]
            simp only [hagain, if_true]
            exact ⟨k + 1, by omega, .again hn hread hagain hfills⟩
        | false =>
            rw [hround]
            simp only [hagain, Bool.false_eq_true, if_false]
            exact ⟨1, by omega, .fails hn hread hagain⟩
      · rw [hread] at hround
        cases bs with
        | nil =>
            rw [hround]
            have hended : Fills 1 n s got (.ok got) s' := .ended hn hread
            exact ⟨1, by omega, by simpa [Except.map] using hended⟩
        | cons b bs =>
            have hmore : ∃ k ≤ s.length, Fills k (n - (b :: bs).length) s' (got ++ b :: bs)
                ((s'.gather (n - (b :: bs).length)).1.map (got ++ b :: bs ++ ·))
                (s'.gather (n - (b :: bs).length)).2 := by
              rcases read_progress hread hn with hless | hnone | ⟨all, hall, henough⟩
              · obtain ⟨k, hk, hfills⟩ :=
                  ih _ hless s' (n - (b :: bs).length) (got ++ b :: bs) rfl
                exact ⟨k, by omega, hfills⟩
              · simp at hnone
              · obtain rfl := Except.ok.inj hall
                rw [henough, Nat.sub_self]
                exact ⟨0, Nat.zero_le _, hfull s' _⟩
            obtain ⟨k, hk, hfills⟩ := hmore
            rw [hround]
            dsimp only
            rw [map_append_map]
            exact ⟨k + 1, by omega, .more hn hread (List.cons_ne_nil b bs) hfills⟩

/-- Whatever the loop comes to, it is what `gather` says. -/
theorem Fills.eq_gather {k : Nat} {u : Source} {got : Bytes} (h : Fills k n s got answer u) :
    answer = (s.gather n).1.map (got ++ ·) ∧ u = (s.gather n).2 := by
  induction h with
  | full => simp [gather_zero, Except.map]
  | ended hn hread =>
      rw [gather_round _ hn, hread]
      simp [Except.map]
  | more hn hread hbs _ ih =>
      obtain ⟨b, bs, rfl⟩ := List.exists_cons_of_ne_nil hbs
      rw [gather_round _ hn, hread]
      dsimp only
      rwa [map_append_map]
  | again hn hread hagain _ ih =>
      rw [gather_round _ hn, hread]
      simpa [hagain] using ih
  | fails hn hread hstays =>
      rw [gather_round _ hn, hread]
      simp [hstays, Except.map]

/-! ## An exact read -/

/-- What comes of asking a source for so many bytes.  If as many stand before its first end or
lasting error, they are the answer, the source is left right behind them, and nothing that
follows is looked at: any beginning that has enough of them can be followed by anything.  If
they are fewer, they are the answer where the source ends, and an error that comes before the
end is the answer instead.  Interruptions change none of this.

The same comes of the calls that are made one after the other, each for what is still missing,
and after as many of them as the source has events, and one more, that is done. -/
theorem gather_exact (s : Source) (n : Nat) :
    (n ≤ s.ahead.bytes.length → ∃ rest : Source, rest.bytes = s.ahead.bytes.drop n ∧
      rest.Flows ∧ s.gather n = (.ok (s.ahead.bytes.take n), rest ++ s.beyond)) ∧
    (∀ before : Source, before <+: s.ahead → n ≤ before.bytes.length → ∃ rest : Source,
      rest.bytes = before.bytes.drop n ∧
        ∀ tail, (before ++ tail).gather n = (.ok (s.ahead.bytes.take n), rest ++ tail)) ∧
    (s.ahead.bytes.length < n →
      (s.beyond = [] ∧ s.gather n = (.ok s.ahead.bytes, [])) ∨
      (∃ tail, s.beyond = .ended :: tail ∧ s.gather n = (.ok s.ahead.bytes, tail)) ∨
      ∃ e tail, s.beyond = .failure e :: tail ∧ e.isInterrupted = false ∧
        s.gather n = (.error e, tail)) ∧
    s.uninterrupted.gather n = ((s.gather n).1, (s.gather n).2.uninterrupted) ∧
    (∃ k ≤ s.length + 1, Fills k n s [] (s.gather n).1 (s.gather n).2) ∧
    ∀ k answer u, Fills k n s [] answer u → (answer, u) = s.gather n := by
  refine ⟨fun hn => ?_, fun before hbefore hn => ?_, fun hn => ?_, gather_uninterrupted s n, ?_,
    fun k answer u h => ?_⟩
  · obtain ⟨rest, hflows, hrest, hgather⟩ := gather_enough (flows_ahead s) hn
    have hwhole := hgather s.beyond
    rw [ahead_append_beyond] at hwhole
    exact ⟨rest, hrest, hflows, hwhole⟩
  · obtain ⟨after, hafter⟩ := hbefore
    have hflows : before.Flows := fun e he =>
      flows_ahead s e (hafter ▸ List.mem_append_left after he)
    obtain ⟨rest, -, hrest, hgather⟩ := gather_enough hflows hn
    have hbytes : s.ahead.bytes = before.bytes ++ bytes after := by
      rw [← hafter]
      simp [bytes]
    refine ⟨rest, hrest, fun tail => ?_⟩
    rw [hgather, hbytes, List.take_append_of_le_length hn]
  · have hpast := gather_past (flows_ahead s) hn s.beyond
    rw [ahead_append_beyond] at hpast
    have hmissing : n - s.ahead.bytes.length ≠ 0 := by omega
    rcases beyond_cases s with hnone | ⟨tail, hended⟩ | ⟨e, tail, hfails, hstays⟩
    · rw [hnone] at hpast
      exact .inl ⟨hnone, by simpa [gather, Except.map] using hpast⟩
    · rw [hended, gather, if_neg hmissing] at hpast
      exact .inr (.inl ⟨tail, hended, by simpa [Except.map] using hpast⟩)
    · rw [hfails, gather, if_neg hmissing, if_neg (by simp [hstays])] at hpast
      exact .inr (.inr ⟨e, tail, hfails, hstays, hpast⟩)
  · obtain ⟨k, hk, hfills⟩ := exists_fills s n []
    refine ⟨k, hk, ?_⟩
    rcases hgather : s.gather n with ⟨e | bs, u⟩
    · simpa [hgather, Except.map] using hfills
    · simpa [hgather, Except.map] using hfills
  · obtain ⟨rfl, rfl⟩ := h.eq_gather
    rcases s.gather n with ⟨e | bs, u⟩
    · rfl
    · rfl

/-- Three bytes in two pieces with an interruption between them, and then an error. -/
def threeBytes : Source :=
  [.data [1], .failure ⟨.interrupted, none⟩, .data [2, 3], .failure ⟨.timedOut, none⟩]

/-- Two of the three can be had, in three calls and whatever comes behind them, and where five
are wanted the error is met. -/
theorem two_of_three_bytes :
    threeBytes.gather 2 = (.ok [1, 2], [.data [3], .failure ⟨.timedOut, none⟩]) ∧
      (∃ rest : Source, rest.bytes = [3] ∧
        threeBytes.gather 2 = (.ok [1, 2], rest ++ [.failure ⟨.timedOut, none⟩])) ∧
      (∃ rest : Source, rest.bytes = [3] ∧ ∀ tail,
        (threeBytes.ahead ++ tail).gather 2 = (.ok [1, 2], rest ++ tail)) ∧
      threeBytes.gather 5 = (.error ⟨.timedOut, none⟩, []) := by
  obtain ⟨hfirst, hany, -, -, -, hloop⟩ := gather_exact threeBytes 2
  obtain ⟨-, -, hpast, -⟩ := gather_exact threeBytes 5
  have hbeyond : threeBytes.beyond = [.failure ⟨.timedOut, none⟩] := by decide
  have hcalls : Fills 3 2 threeBytes [] (.ok [1, 2])
      [.data [3], .failure ⟨.timedOut, none⟩] :=
    .more (by decide) rfl (by decide)
      (.again (by decide) rfl rfl (.more (by decide) rfl (by decide) .full))
  refine ⟨(hloop 3 _ _ hcalls).symm, ?_, ?_, ?_⟩
  · obtain ⟨rest, hrest, -, hgather⟩ := hfirst (by decide)
    exact ⟨rest, hrest, hgather⟩
  · exact hany _ (List.prefix_refl _) (by decide)
  · rw [hbeyond] at hpast
    rcases hpast (by decide) with ⟨hnone, -⟩ | ⟨tail, hended, -⟩ | ⟨e, tail, hfails, -, hgather⟩
    · simp at hnone
    · simp at hended
    · obtain ⟨hcause, rfl⟩ := List.cons.inj hfails
      obtain rfl := Event.failure.inj hcause
      exact hgather

end Source

end SealedStream
