import SealedStream.IntForm.FromSource
import SealedStream.Proofs.Integers

/-!
# Reading from a source

Two kinds of facts about `Source.gather` and the readers built on it.

For any source, an answer takes exactly its own bytes: what is left shrinks by
the length of the answer.  This is the measure by which reading ends.

A source that flows only hands out bytes, in pieces of any size, and may be
interrupted in between.  Reading from it depends on its bytes alone, so the
sizes of the pieces do not matter.  A source that reports its end early, or
fails, does not flow.  One that ends after some bytes can be spoken of too, with
what comes behind the end.  `Source.Delivers` is what integers are read by in
both cases, so that they agree with the scan of the bytes.
-/

namespace SealedStream

namespace Source

/-- An event that neither ends the source nor fails for good. -/
def Event.Flows : Event → Prop
  | .data _ => True
  | .ended => False
  | .failure e => e.isInterrupted

/-- A source that only hands out bytes, with interruptions in between. -/
def Flows (s : Source) : Prop :=
  ∀ e ∈ s, e.Flows

theorem flows_ofBytes (bs : Bytes) : (ofBytes bs).Flows := by
  intro e he
  rw [ofBytes, List.mem_singleton] at he
  subst he
  exact trivial

@[simp] theorem bytes_ofBytes (bs : Bytes) : (ofBytes bs).bytes = bs := by
  simp [ofBytes, bytes, Event.bytes]

theorem length_bytes (s : Source) : s.bytes.length = s.left := by
  induction s with
  | nil => rfl
  | cons e s ih =>
      have hcons : bytes (e :: s) = e.bytes ++ bytes s := by simp [bytes]
      rw [hcons, List.length_append, ih, left]

/-- Asked for none, `gather` touches nothing. -/
theorem gather_zero (s : Source) : s.gather 0 = (.ok [], s) := by
  cases s with
  | nil => rfl
  | cons e s => cases e <;> rfl

/-- An answer has at most the length asked for and takes exactly its bytes. -/
theorem gather_ok {s s' : Source} {n : Nat} {bs : Bytes}
    (h : s.gather n = (.ok bs, s')) :
    bs.length ≤ n ∧ s'.left + bs.length = s.left := by
  induction s generalizing n bs with
  | nil =>
      obtain ⟨rfl, rfl⟩ : [] = bs ∧ [] = s' := by simpa [gather] using h
      simp
  | cons e s ih =>
      cases e with
      | data piece =>
          simp only [gather] at h
          split at h
          · obtain ⟨rfl, rfl⟩ : [] = bs ∧ _ = s' := by simpa using h
            simp
          · split at h
            · obtain ⟨rfl, rfl⟩ : piece.take n = bs ∧ _ = s' := by simpa using h
              simp [left, Event.bytes]
              omega
            · -- The piece is taken whole, and the rest comes from what follows.
              cases hmore : gather (n - piece.length) s with
              | mk more rest =>
                  cases more with
                  | error f => simp [hmore, Except.map] at h
                  | ok more =>
                      obtain ⟨rfl, rfl⟩ : piece ++ more = bs ∧ rest = s' := by
                        simpa [hmore, Except.map] using h
                      have := ih hmore
                      simp only [List.length_append, left, Event.bytes]
                      omega
      | ended =>
          simp only [gather] at h
          split at h
          · obtain ⟨rfl, rfl⟩ : [] = bs ∧ _ = s' := by simpa using h
            simp
          · obtain ⟨rfl, rfl⟩ : [] = bs ∧ s = s' := by simpa using h
            simp [left, Event.bytes]
      | failure e =>
          simp only [gather] at h
          split at h
          · obtain ⟨rfl, rfl⟩ : [] = bs ∧ _ = s' := by simpa using h
            simp
          · split at h
            · simpa [left, Event.bytes] using ih h
            · simp at h

/-- An answer is what stood next in the source, also where the source is
interrupted or reports an end. -/
theorem bytes_of_gather {s s' : Source} {n : Nat} {bs : Bytes}
    (h : s.gather n = (.ok bs, s')) : s.bytes = bs ++ s'.bytes := by
  induction s generalizing n bs with
  | nil =>
      obtain ⟨rfl, rfl⟩ : [] = bs ∧ [] = s' := by simpa [gather] using h
      rfl
  | cons e s ih =>
      -- Asked for none, `gather` touches nothing.
      by_cases hn : n = 0
      · obtain ⟨rfl, rfl⟩ : [] = bs ∧ e :: s = s' := by
          cases e <;> simpa [gather, hn] using h
        rfl
      · cases e with
        | data piece =>
            simp only [gather, if_neg hn] at h
            split at h
            · obtain ⟨rfl, rfl⟩ : piece.take n = bs ∧ _ = s' := by simpa using h
              simp [bytes, Event.bytes, ← List.append_assoc]
            · cases hmore : gather (n - piece.length) s with
              | mk more rest =>
                  cases more with
                  | error f => simp [hmore, Except.map] at h
                  | ok more =>
                      obtain ⟨rfl, rfl⟩ : piece ++ more = bs ∧ rest = s' := by
                        simpa [hmore, Except.map] using h
                      have hrest := ih hmore
                      simpa [bytes, Event.bytes] using hrest
        | ended =>
            simp only [gather, if_neg hn, Prod.mk.injEq, Except.ok.injEq] at h
            obtain ⟨rfl, rfl⟩ := h
            simp [bytes, Event.bytes]
        | failure e =>
            simp only [gather, if_neg hn] at h
            split at h
            · simpa [bytes, Event.bytes] using ih h
            · simp at h

/-- What is lost with an error stood next in the source, and it was less than had
been asked for. -/
theorem bytes_of_gather_error {s s' : Source} {n : Nat} {e : IoError}
    (h : s.gather n = (.error e, s')) :
    ∃ lost : Bytes, s.bytes = lost ++ s'.bytes ∧ lost.length < n := by
  induction s generalizing n with
  | nil => simp [gather] at h
  | cons event s ih =>
      by_cases hn : n = 0
      · cases event <;> simp [gather, hn] at h
      · cases event with
        | data piece =>
            simp only [gather, if_neg hn] at h
            split at h
            · simp at h
            · rename_i hlong
              cases hmore : gather (n - piece.length) s with
              | mk more rest =>
                  cases more with
                  | ok more => simp [hmore, Except.map] at h
                  | error f =>
                      obtain ⟨rfl, rfl⟩ : f = e ∧ rest = s' := by
                        simpa [hmore, Except.map] using h
                      obtain ⟨lost, hbytes, hless⟩ := ih hmore
                      refine ⟨piece ++ lost, ?_, by rw [List.length_append]; omega⟩
                      simpa [bytes, Event.bytes] using hbytes
        | ended => simp [gather, hn] at h
        | failure f =>
            simp only [gather, if_neg hn] at h
            split at h
            · obtain ⟨lost, hbytes, hless⟩ := ih h
              exact ⟨lost, by simpa [bytes, Event.bytes] using hbytes, hless⟩
            · obtain ⟨rfl, rfl⟩ : f = e ∧ s = s' := by simpa using h
              exact ⟨[], by simp [bytes, Event.bytes], Nat.pos_of_ne_zero hn⟩

/-- The source hands out these bytes and then ends without an error; the second
source is what comes behind the end. -/
inductive EndsAfter : Source → Bytes → Source → Prop
  /-- Nothing is left. -/
  | out : EndsAfter [] [] []
  /-- An end is reported, whatever comes behind it. -/
  | ended {s : Source} : EndsAfter (.ended :: s) [] s
  | data {s s' : Source} {piece bs : Bytes} :
      EndsAfter s bs s' → EndsAfter (.data piece :: s) (piece ++ bs) s'
  | interrupted {s s' : Source} {bs : Bytes} {e : IoError} :
      e.isInterrupted = true → EndsAfter s bs s' → EndsAfter (.failure e :: s) bs s'

/-- Asked for more than comes before its end, a source hands out what does. -/
theorem EndsAfter.gather {s s' : Source} {bs : Bytes} (h : s.EndsAfter bs s') {n : Nat}
    (hn : bs.length < n) : s.gather n = (.ok bs, s') := by
  induction h generalizing n with
  | out => rfl
  | ended => simp [Source.gather, (Nat.zero_lt_of_lt hn).ne']
  | @data s s' piece bs _ ih =>
      rw [List.length_append] at hn
      have hmore := ih (n := n - piece.length) (by omega)
      simp [Source.gather, show n ≠ 0 by omega, show ¬ n < piece.length by omega, hmore,
        Except.map]
  | interrupted hagain _ ih =>
      simp [Source.gather, (Nat.zero_lt_of_lt hn).ne', hagain, ih hn]

/-- Asked for no more than comes before its end, a source hands out what was asked for,
and the rest is still to come. -/
theorem EndsAfter.gather_front {s s' : Source} {bs : Bytes} (h : s.EndsAfter bs s') {n : Nat}
    (hn : n ≤ bs.length) :
    ∃ rest : Source, s.gather n = (.ok (bs.take n), rest) ∧ rest.EndsAfter (bs.drop n) s' := by
  induction h generalizing n with
  | out =>
      obtain rfl := Nat.le_zero.1 hn
      exact ⟨[], rfl, .out⟩
  | @ended s =>
      obtain rfl := Nat.le_zero.1 hn
      exact ⟨.ended :: s, rfl, .ended⟩
  | @data s s' piece bs htail ih =>
      by_cases hzero : n = 0
      · subst hzero
        exact ⟨.data piece :: s, rfl, htail.data⟩
      · by_cases hlt : n < piece.length
        · refine ⟨.data (piece.drop n) :: s, ?_, ?_⟩
          · simp [Source.gather, hzero, hlt, List.take_append_of_le_length hlt.le]
          · rw [List.drop_append_of_le_length hlt.le]
            exact htail.data
        · rw [List.length_append] at hn
          obtain ⟨rest, hmore, hrest⟩ := ih (n := n - piece.length) (by omega)
          refine ⟨rest, ?_, ?_⟩
          · simp [Source.gather, hzero, hlt, hmore, Except.map, List.take_append,
              List.take_of_length_le (Nat.le_of_not_lt hlt)]
          · rwa [List.drop_append, List.drop_eq_nil_of_le (Nat.le_of_not_lt hlt),
              List.nil_append]
  | @interrupted s s' bs e hagain htail ih =>
      by_cases hzero : n = 0
      · subst hzero
        exact ⟨.failure e :: s, rfl, htail.interrupted hagain⟩
      · obtain ⟨rest, hgather, hrest⟩ := ih hn
        exact ⟨rest, by simp [Source.gather, hzero, hagain, hgather], hrest⟩

/-- Reading from a source that flows takes the next bytes, however they are
cut up. -/
theorem gather_of_flows {s : Source} (hs : s.Flows) (n : Nat) :
    ∃ s' : Source, s.gather n = (.ok (s.bytes.take n), s') ∧ s'.Flows ∧
      s'.bytes = s.bytes.drop n := by
  induction s generalizing n with
  | nil => exact ⟨[], by simp [gather, bytes], by simp [Flows], by simp [bytes]⟩
  | cons e s ih =>
      have htail : Flows s := fun e' he' => hs e' (List.mem_cons_of_mem e he')
      by_cases hn : n = 0
      · subst hn
        refine ⟨e :: s, ?_, hs, by simp⟩
        cases e <;> simp [gather]
      · -- Asked for none, `gather` touches nothing; that was the case above.
        cases e with
        | data piece =>
            have hbytes : bytes (.data piece :: s) = piece ++ bytes s := by
              simp [bytes, Event.bytes]
            by_cases hlt : n < piece.length
            · refine ⟨.data (piece.drop n) :: s, ?_, ?_, ?_⟩
              · simp [gather, hn, hlt, hbytes, List.take_append_of_le_length hlt.le]
              · intro e' he'
                rcases List.mem_cons.1 he' with rfl | hmem
                · exact trivial
                · exact htail e' hmem
              · rw [hbytes, List.drop_append_of_le_length hlt.le]
                simp [bytes, Event.bytes]
            · obtain ⟨s', hgather, hflows, hrest⟩ := ih htail (n - piece.length)
              refine ⟨s', ?_, hflows, ?_⟩
              · simp [gather, hn, hlt, hgather, Except.map, hbytes,
                  List.take_append, List.take_of_length_le (Nat.le_of_not_lt hlt)]
              · rw [hrest, hbytes, List.drop_append,
                  List.drop_eq_nil_of_le (Nat.le_of_not_lt hlt), List.nil_append]
        | ended => exact (hs .ended List.mem_cons_self).elim
        | failure e =>
            have hint : e.isInterrupted = true := hs (.failure e) List.mem_cons_self
            obtain ⟨s', hgather, hflows, hrest⟩ := ih htail n
            refine ⟨s', ?_, hflows, ?_⟩
            · simpa [gather, hn, hint, bytes, Event.bytes] using hgather
            · simpa [bytes, Event.bytes] using hrest

/-- Reading from a source that flows takes a front part that is long enough
whole and leaves the rest. -/
theorem gather_append {s : Source} (hs : s.Flows) {front rest : Bytes}
    (hbytes : s.bytes = front ++ rest) :
    ∃ s' : Source, s.gather front.length = (.ok front, s') ∧ s'.Flows ∧
      s'.bytes = rest := by
  obtain ⟨s', hgather, hflows, hrest⟩ := gather_of_flows hs front.length
  refine ⟨s', ?_, hflows, ?_⟩
  · rw [hgather, hbytes, List.take_left]
  · rw [hrest, hbytes, List.drop_left]

/-- A way of saying which bytes a source hands out and what is left of it at their end, true
to what comes of asking for some of them: `P` is said of a source and those bytes, and `E` of
what is left. -/
structure Delivers (P : Source → Bytes → Prop) (E : Source → Prop) : Prop where
  front {s : Source} {bs : Bytes} {n : Nat} : P s bs → n ≤ bs.length →
    ∃ t : Source, s.gather n = (.ok (bs.take n), t) ∧ P t (bs.drop n)
  short {s : Source} {bs : Bytes} {n : Nat} : P s bs → bs.length < n →
    ∃ t : Source, s.gather n = (.ok bs, t) ∧ E t

theorem delivers_flows : Delivers (fun s bs => s.Flows ∧ s.bytes = bs) Flows where
  front := by
    rintro s bs n ⟨hs, rfl⟩ -
    exact gather_of_flows hs n
  short := by
    rintro s bs n ⟨hs, rfl⟩ hn
    obtain ⟨t, hgather, hflows, -⟩ := gather_of_flows hs n
    rw [List.take_of_length_le hn.le] at hgather
    exact ⟨t, hgather, hflows⟩

theorem delivers_endsAfter (tail : Source) :
    Delivers (fun s bs => s.EndsAfter bs tail) (· = tail) where
  front h hn := h.gather_front hn
  short h hn := ⟨tail, h.gather hn, rfl⟩

end Source

namespace Varint

/-- A number that has been read has taken at least one byte. -/
theorem fromSource_left {k : Nat} {p : Partial} {s s' : Source} {n : Nat}
    (h : fromSource k p s = (.ok (some n), s')) : s'.left < s.left := by
  induction k generalizing p s with
  | zero => simp [fromSource] at h
  | succ k ih =>
      unfold fromSource at h
      cases hgather : s.gather 1 with
      | mk answer rest =>
          cases answer with
          | error e => simp [hgather] at h
          | ok bs =>
              have hleft := (Source.gather_ok hgather).2
              cases bs with
              | nil =>
                  simp only [hgather, Prod.mk.injEq] at h
                  split at h <;> simp at h
              | cons b bs =>
                  simp only [hgather] at h
                  simp only [List.length_cons] at hleft
                  cases hpush : p.push b with
                  | more q =>
                      simp only [hpush] at h
                      have := ih h
                      omega
                  | done value =>
                      simp only [hpush, Prod.mk.injEq] at h
                      obtain ⟨-, rfl⟩ := h
                      omega
                  | malformed => simp [hpush] at h

/-- A varint that is still open has one byte more and is not yet as long as a
varint can be, for the tenth byte always ends it. -/
theorem push_eq_more {p q : Partial} {b : UInt8} (h : p.push b = .more q) :
    q.count = p.count + 1 ∧ q.count < maxWidth := by
  unfold Partial.push at h
  split at h
  · simp at h
  · rename_i hroom
    split at h
    · simp at h
    · rename_i hopen
      obtain rfl := Step.more.inj h
      refine ⟨rfl, ?_⟩
      show p.count + 1 < maxWidth
      omega

/-- Reading a varint from a source agrees with scanning the bytes that it hands out, after
those that `p` has taken in. -/
theorem fromSource_of_delivers {P : Source → Bytes → Prop} {E : Source → Prop}
    (hP : Source.Delivers P E) {k : Nat} {p : Partial} {s : Source} {bs : Bytes} (hs : P s bs)
    (hcount : p.count + k = maxWidth) (hopen : p.count < maxWidth) :
    match scanFrom p bs with
    | .whole value used =>
        p.count < used ∧ used ≤ p.count + bs.length ∧
          ∃ t : Source, fromSource k p s = (.ok (some value), t) ∧
            P t (bs.drop (used - p.count))
    | .malformed =>
        ∃ t rest, fromSource k p s = (.error .ciphertextInvalid, t) ∧ P t rest
    | .incomplete =>
        ∃ t, fromSource k p s =
          (if bs = [] ∧ p.count = 0 then .ok none else .error .streamTruncated, t) ∧ E t := by
  induction bs generalizing k p s with
  | nil =>
      obtain ⟨k, rfl⟩ := Nat.exists_eq_succ_of_ne_zero (show k ≠ 0 by omega)
      obtain ⟨t, hgather, hend⟩ := hP.short (n := 1) hs Nat.one_pos
      simp only [scanFrom, fromSource, hgather]
      exact ⟨t, by simp, hend⟩
  | cons b bs ih =>
      obtain ⟨k, rfl⟩ := Nat.exists_eq_succ_of_ne_zero (show k ≠ 0 by omega)
      obtain ⟨t, hgather, hrest⟩ := hP.front (n := 1) hs (by simp)
      simp only [List.take_succ_cons, List.take_zero, List.drop_succ_cons, List.drop_zero]
        at hgather hrest
      simp only [scanFrom, fromSource, hgather]
      cases hpush : p.push b with
      | malformed => exact ⟨t, bs, rfl, hrest⟩
      | done value => exact ⟨by omega, by simp, t, rfl, by simpa using hrest⟩
      | more q =>
          obtain ⟨hq, hq'⟩ := push_eq_more hpush
          have hagree := ih hrest (k := k) (p := q) (by omega) hq'
          dsimp only
          cases hscan : scanFrom q bs with
          | malformed => simpa [hscan] using hagree
          | incomplete => simpa [hscan, hq] using hagree
          | whole value used =>
              rw [hscan] at hagree
              obtain ⟨hused, hle, t', hread, hleft⟩ := hagree
              have hdrop : used - p.count = used - q.count + 1 := by omega
              refine ⟨by omega, by rw [List.length_cons]; omega, t', hread, ?_⟩
              rwa [hdrop, List.drop_succ_cons]

end Varint

namespace IntForm

theorem fixedFromSource_left {width : Nat} {s s' : Source} {n : Nat}
    (h : fixedFromSource width s = (.ok (some n), s')) : s'.left < s.left := by
  unfold fixedFromSource at h
  cases hgather : s.gather width with
  | mk answer rest =>
      cases answer with
      | error e => simp [hgather] at h
      | ok bs =>
          have hleft := (Source.gather_ok hgather).2
          cases bs with
          | nil => simp [hgather] at h
          | cons b bs =>
              simp only [hgather, List.isEmpty_cons, Bool.false_eq_true, if_false] at h
              split at h
              · simp at h
              · obtain ⟨-, rfl⟩ := Prod.mk.inj h
                simp only [List.length_cons] at hleft
                omega

/-- A number that has been read has taken at least one byte. -/
theorem fromSource_left {f : IntForm} {s s' : Source} {n : Nat}
    (h : f.fromSource s = (.ok (some n), s')) : s'.left < s.left := by
  cases f with
  | varint => exact Varint.fromSource_left h
  | fixed1 | fixed2 | fixed4 | fixed8 => exact fixedFromSource_left h

theorem fixedFromSource_of_delivers {P : Source → Bytes → Prop} {E : Source → Prop}
    (hP : Source.Delivers P E) {width : Nat} (hwidth : 0 < width) {s : Source} {bs : Bytes}
    (hs : P s bs) :
    match scanFixed width bs with
    | .whole value used =>
        used ≤ bs.length ∧ ∃ t : Source, fixedFromSource width s = (.ok (some value), t) ∧
          P t (bs.drop used)
    | .malformed =>
        ∃ t rest, fixedFromSource width s = (.error .ciphertextInvalid, t) ∧ P t rest
    | .incomplete =>
        ∃ t, fixedFromSource width s =
          (if bs = [] then .ok none else .error .streamTruncated, t) ∧ E t := by
  by_cases hshort : bs.length < width
  · obtain ⟨t, hgather, hend⟩ := hP.short hs hshort
    simp only [scanFixed, if_pos hshort, fixedFromSource, hgather, List.isEmpty_iff]
    refine ⟨t, ?_, hend⟩
    split <;> rfl
  · obtain ⟨t, hgather, hrest⟩ := hP.front hs (Nat.le_of_not_lt hshort)
    have hlength : (bs.take width).length = width := by
      rw [List.length_take]
      omega
    have hne : bs.take width ≠ [] := List.ne_nil_of_length_pos (by omega)
    simp only [scanFixed, if_neg hshort, fixedFromSource, hgather, List.isEmpty_iff, hne,
      if_false, hlength, lt_irrefl]
    exact ⟨Nat.le_of_not_lt hshort, t, rfl, hrest⟩

/-- Reading an integer from a source agrees with scanning the bytes that it hands out. -/
theorem fromSource_of_delivers (f : IntForm) {P : Source → Bytes → Prop} {E : Source → Prop}
    (hP : Source.Delivers P E) {s : Source} {bs : Bytes} (hs : P s bs) :
    match f.scan bs with
    | .whole value used =>
        used ≤ bs.length ∧ ∃ t : Source, f.fromSource s = (.ok (some value), t) ∧
          P t (bs.drop used)
    | .malformed => ∃ t rest, f.fromSource s = (.error .ciphertextInvalid, t) ∧ P t rest
    | .incomplete =>
        ∃ t, f.fromSource s =
          (if bs = [] then .ok none else .error .streamTruncated, t) ∧ E t := by
  cases f with
  | varint =>
      have hagree := Varint.fromSource_of_delivers hP (k := Varint.maxWidth) (p := .start) hs
        (by decide) (by decide)
      simp only [scan, fromSource]
      cases hscan : Varint.scanFrom .start bs with
      | whole value used =>
          rw [hscan] at hagree
          simpa [Varint.Partial.start] using hagree.2
      | malformed =>
          rw [hscan] at hagree
          exact hagree
      | incomplete =>
          rw [hscan] at hagree
          simpa [Varint.Partial.start] using hagree
  | fixed1 | fixed2 | fixed4 | fixed8 => exact fixedFromSource_of_delivers hP (by decide) hs

/-- Reading an integer from a source that flows agrees with scanning its
bytes. -/
theorem fromSource_of_flows (f : IntForm) {s : Source} (hs : s.Flows) :
    ∃ s' : Source, s'.Flows ∧
      match f.scan s.bytes with
      | .whole value used =>
          f.fromSource s = (.ok (some value), s') ∧
            s'.bytes = s.bytes.drop used
      | .malformed => f.fromSource s = (.error .ciphertextInvalid, s')
      | .incomplete =>
          f.fromSource s =
            (if s.bytes = [] then .ok none else .error .streamTruncated, s') := by
  have hagree := f.fromSource_of_delivers Source.delivers_flows ⟨hs, rfl⟩
  cases hscan : f.scan s.bytes with
  | whole value used =>
      rw [hscan] at hagree
      obtain ⟨-, s', hread, hflows, hrest⟩ := hagree
      exact ⟨s', hflows, hread, hrest⟩
  | malformed =>
      rw [hscan] at hagree
      obtain ⟨s', -, hread, hflows, -⟩ := hagree
      exact ⟨s', hflows, hread⟩
  | incomplete =>
      rw [hscan] at hagree
      obtain ⟨s', hread, hflows⟩ := hagree
      exact ⟨s', hflows, hread⟩

/-- The bytes of a number at the front of a source that flows are read as that
number, and nothing behind them is touched. -/
theorem fromSource_bytes_append {f : IntForm} {s : Source} (hs : s.Flows) {n : Nat}
    (hn : n < f.capacity) {rest : Bytes} (hbytes : s.bytes = f.bytes n ++ rest) :
    ∃ s' : Source, f.fromSource s = (.ok (some n), s') ∧ s'.Flows ∧
      s'.bytes = rest := by
  obtain ⟨s', hflows, hagree⟩ := f.fromSource_of_flows hs
  rw [hbytes, scan_bytes_append hn rest] at hagree
  obtain ⟨hread, hleft⟩ := hagree
  exact ⟨s', hread, hflows, by rw [hleft, List.drop_left]⟩

end IntForm

end SealedStream
