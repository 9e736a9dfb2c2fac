import SealedStream.Proofs.Pulling

/-!
# What reading brings

Reads of any sizes cut the plaintext of a stream into pieces, and a read takes
its bytes from one chunk or from several.  `Reader.Yields` leaves the sizes out:
it says which bytes a reader still has to hand out, and how the stream ends
behind them.  Every reader in a sound layout yields something, for each pull
takes a part of the source.

`Reader.Brings` is the same seen from outside, in terms of the answers to any
sequence of reads and of `close`; a reader that yields bytes brings them.
-/

namespace SealedStream

namespace Reader

variable {σ : Type}

theorem start_ok {l : Layout} {opener : Opener σ} {t : σ} {source : Source}
    {r : Reader σ} (h : start source opener t l = .ok r) :
    l.check = .ok () ∧ r = ⟨l, opener, t, source, [], 1, .reading⟩ := by
  unfold start at h
  cases hcheck : l.check with
  | error f => simp [hcheck] at h
  | ok u =>
      simp only [hcheck] at h
      exact ⟨rfl, (Except.ok.inj h).symm⟩

theorem start_of_sound {l : Layout} (hl : l.check = .ok ()) (source : Source)
    (opener : Opener σ) (t : σ) :
    start source opener t l = .ok ⟨l, opener, t, source, [], 1, .reading⟩ := by
  simp [start, hl]

/-- Unless chunks of a fixed size go past a machine word, sizes in words are the sizes. -/
theorem startInWords_eq_start {l : Layout} {opener : Opener σ}
    (h : l.lengthPrefix = false → l.bufferSize + opener.overhead < intBound)
    (source : Source) (t : σ) :
    startInWords source opener t l = start source opener t l := by
  have hfits : l.lengthPrefix = true ∨ l.bufferSize + opener.overhead < intBound := by
    cases hframed : l.lengthPrefix with
    | true => exact .inl rfl
    | false => exact .inr (h hframed)
  unfold startInWords
  cases start source opener t l with
  | error f => rfl
  | ok r => exact if_pos hfits

/-! ## Reads one after the other -/

/-- The answers to reads with buffers of these sizes. -/
def reads : Reader σ → List Nat → List (Except Failure Bytes) × Reader σ
  | r, [] => ([], r)
  | r, n :: ns =>
      let (answer, r') := r.read n
      let (answers, r'') := reads r' ns
      (answer :: answers, r'')

/-- The bytes that answers have handed out. -/
def delivered : List (Except Failure Bytes) → Bytes
  | [] => []
  | .ok bs :: answers => bs ++ delivered answers
  | .error _ :: answers => delivered answers

/-- Reading brings these bytes, whatever buffers are used, and then reports this
ending; `close` confirms it, and never reports success for another one. -/
structure Brings (r : Reader σ) (bytes : Bytes) (ending : Except Failure Unit) :
    Prop where
  /-- A non-empty buffer is answered with the next bytes as long as there are
  any, and with the ending after that. -/
  answer (ns : List Nat) {n : Nat} : 0 < n →
    ((r.reads ns).2.read n).1 =
      if ns.sum < bytes.length then .ok ((bytes.drop ns.sum).take n)
      else ending.map fun _ => []
  delivered (ns : List Nat) : delivered (r.reads ns).1 = bytes.take ns.sum
  /-- When the ending has been reported, closing gives the same verdict. -/
  close (ns : List Nat) {n : Nat} : 0 < n → bytes.length ≤ ns.sum →
    ((r.reads ns).2.read n).2.close.1 = ending
  close_ok (ns : List Nat) : (r.reads ns).2.close.1 = .ok () → ending = .ok ()

/-! ## What is still to come -/

/-- The bytes that a reader has still to hand out, and how the stream ends
behind them. -/
inductive Yields : Reader σ → Bytes → Except Failure Unit → Prop
  | terminated {r : Reader σ} :
      r.phase = .terminated → Yields r r.pending (.ok ())
  | closed {r : Reader σ} :
      r.phase = .closed → Yields r [] (.error .streamClosed)
  | failed {r : Reader σ} {f : Failure} :
      r.phase = .failed f → Yields r [] (.error f)
  /-- The next pull fails. -/
  | cut {r r' : Reader σ} {f : Failure} :
      r.phase = .reading → pull { r with pending := [] } = (.error f, r') →
      Yields r r.pending (.error f)
  /-- The next pull succeeds; it ends the stream or takes a part of the source. -/
  | more {r r' : Reader σ} {bytes : Bytes} {ending : Except Failure Unit} :
      r.phase = .reading → pull { r with pending := [] } = (.ok (), r') →
      (r'.phase = .terminated ∨
        r'.phase = .reading ∧ r'.source.left < r.source.left) →
      Yields r' bytes ending → Yields r (r.pending ++ bytes) ending

/-- A reader at the end of its stream has only the payload at hand. -/
theorem Yields.at_end {r : Reader σ} {bytes : Bytes} {ending : Except Failure Unit}
    (h : Yields r bytes ending) (hphase : r.phase = .terminated) :
    bytes = r.pending ∧ ending = .ok () := by
  cases h with
  | terminated => exact ⟨rfl, rfl⟩
  | closed hother | failed hother | cut hother | more hother => simp [hphase] at hother

/-- What is yielded after a pull in a sound layout. -/
theorem Yields.of_pull {r r' : Reader σ} {bytes : Bytes} {ending : Except Failure Unit}
    (hl : r.layout.check = .ok ()) (hphase : r.phase = .reading)
    (hpull : pull { r with pending := [] } = (.ok (), r')) (h : Yields r' bytes ending) :
    Yields r (r.pending ++ bytes) ending :=
  .more hphase hpull
    ((pull_ok (r := { r with pending := [] }) hl hpull).progress hphase).2.2 h

/-- Every reader in a sound layout yields something. -/
theorem exists_yields (r : Reader σ) (hl : r.layout.check = .ok ()) :
    ∃ (bytes : Bytes) (ending : Except Failure Unit), Yields r bytes ending := by
  induction hn : r.source.left using Nat.strongRecOn generalizing r with
  | ind n ih =>
      cases hphase : r.phase with
      | terminated => exact ⟨_, _, .terminated hphase⟩
      | closed => exact ⟨_, _, .closed hphase⟩
      | failed f => exact ⟨_, _, .failed hphase⟩
      | reading =>
          cases hpull : pull { r with pending := [] } with
          | mk answer r' =>
              cases answer with
              | error f => exact ⟨_, _, .cut hphase hpull⟩
              | ok u =>
                  obtain ⟨hlayout, -, hend | ⟨-, hleft⟩⟩ :=
                    (pull_ok (r := { r with pending := [] }) hl hpull).progress hphase
                  · exact ⟨_, _, .of_pull hl hphase hpull (.terminated hend)⟩
                  · obtain ⟨bytes, ending, hrest⟩ :=
                      ih r'.source.left (hn ▸ hleft) r' (by rw [hlayout]; exact hl) rfl
                    exact ⟨_, _, .of_pull hl hphase hpull hrest⟩

/-- If there is enough payload at hand, or no more to come, nothing is pulled. -/
theorem supply_at_hand {r : Reader σ} {want : Nat}
    (h : want ≤ r.pending.length ∨ r.phase = .terminated) (k : Nat) (got : Bytes) :
    supply k want got r =
      (.ok (got ++ r.pending.take want), { r with pending := r.pending.drop want }) := by
  cases k with
  | zero => rfl
  | succ k =>
      have hstop : (r.pending.take want).length = want ∨ r.phase = .terminated := by
        rcases h with hle | hphase
        · exact .inl (List.length_take_of_le hle)
        · exact .inr hphase
      simp only [supply, Reader.deliver]
      exact if_pos hstop

/-- Otherwise all of the payload at hand is taken, and the next frame is pulled;
if that succeeds, the rest comes from there. -/
theorem supply_pull_ok {r r' : Reader σ} {want : Nat} (hphase : r.phase = .reading)
    (hshort : r.pending.length < want)
    (hpull : pull { r with pending := [] } = (.ok (), r')) (k : Nat) (got : Bytes) :
    supply (k + 1) want got r =
      supply k (want - r.pending.length) (got ++ r.pending) r' := by
  have hstop : ¬ (r.pending.length = want ∨ r.phase = .terminated) := by
    simp [hphase, hshort.ne]
  simp only [supply, Reader.deliver, List.take_of_length_le hshort.le,
    List.drop_eq_nil_of_le hshort.le]
  rw [if_neg hstop, hpull]

/-- If the pull fails, the failure is kept, and reported unless there was
payload before it. -/
theorem supply_pull_error {r r' : Reader σ} {f : Failure} {want : Nat}
    (hphase : r.phase = .reading) (hshort : r.pending.length < want)
    (hpull : pull { r with pending := [] } = (.error f, r')) (k : Nat) (got : Bytes) :
    supply (k + 1) want got r =
      (if (got ++ r.pending).isEmpty then .error f else .ok (got ++ r.pending),
        r'.fail f) := by
  have hstop : ¬ (r.pending.length = want ∨ r.phase = .terminated) := by
    simp [hphase, hshort.ne]
  simp only [supply, Reader.deliver, List.take_of_length_le hshort.le,
    List.drop_eq_nil_of_le hshort.le]
  rw [if_neg hstop, hpull]

/-- A buffer that can be filled is answered with something, unless it is empty. -/
theorem answered {want : Nat} {bytes : Bytes} (h : want ≤ bytes.length) (got : Bytes) :
    want = 0 ∨ got ++ bytes.take want ≠ [] := by
  by_cases hwant : want = 0
  · exact .inl hwant
  · right
    intro hnil
    rcases List.take_eq_nil_iff.1 (List.append_eq_nil_iff.1 hnil).2 with hzero | hnone
    · exact hwant hzero
    · rw [hnone, List.length_nil] at h
      omega

/-- Supplying bytes hands out the front of what is still to come.  The induction
is on what is yielded; a pull that goes on takes a part of the source, so there
are enough rounds if they are more than the bytes left in it. -/
theorem Yields.supply {r : Reader σ} {bytes : Bytes} {ending : Except Failure Unit}
    (h : Yields r bytes ending) (hlive : r.phase = .reading ∨ r.phase = .terminated) {k : Nat}
    (hk : r.phase = .reading → r.source.left < k) (want : Nat) (got : Bytes) :
    Yields (supply k want got r).2 (bytes.drop want) ending ∧
      (supply k want got r).1 =
        (if want = 0 ∨ got ++ bytes.take want ≠ [] then .ok (got ++ bytes.take want)
        else ending.map fun _ => []) ∧
      (bytes.length < want → (supply k want got r).2.close.1 = ending) := by
  induction h generalizing k want got with
  | @terminated r hphase =>
      rw [supply_at_hand (.inr hphase)]
      refine ⟨.terminated hphase, ?_, fun _ => by simp [Reader.close, hphase]⟩
      split
      · rfl
      · rename_i hnone
        obtain ⟨-, hnil⟩ := not_or.1 hnone
        rw [not_not.1 hnil]
        rfl
  | closed hphase => simp [hphase] at hlive
  | failed hphase => simp [hphase] at hlive
  | @cut r r' f hphase hpull =>
      by_cases henough : want ≤ r.pending.length
      · rw [supply_at_hand (.inl henough)]
        exact ⟨.cut hphase hpull, (if_pos (answered henough got)).symm,
          fun hlt => by omega⟩
      · obtain ⟨k, rfl⟩ := Nat.exists_eq_succ_of_ne_zero (Nat.ne_zero_of_lt (hk hphase))
        have hshort := Nat.lt_of_not_le henough
        -- The failure is kept, and reported now only if nothing came before it.
        rw [supply_pull_error hphase hshort hpull]
        dsimp only
        rw [List.drop_eq_nil_of_le hshort.le, List.take_of_length_le hshort.le]
        refine ⟨.failed rfl, ?_, fun _ => by simp [Reader.close, fail]⟩
        by_cases hnil : got ++ r.pending = []
        · simp [hnil, show want ≠ 0 by omega, Except.map]
        · simp [hnil]
  | @more r r' bytes ending hphase hpull hnext hrest ih =>
      by_cases henough : want ≤ r.pending.length
      · rw [supply_at_hand (.inl henough), List.drop_append_of_le_length henough,
          List.take_append_of_le_length henough]
        refine ⟨.more hphase hpull hnext hrest, (if_pos (answered henough got)).symm, ?_⟩
        intro hlt
        rw [List.length_append] at hlt
        omega
      · obtain ⟨k, rfl⟩ := Nat.exists_eq_succ_of_ne_zero (Nat.ne_zero_of_lt (hk hphase))
        have hshort := Nat.lt_of_not_le henough
        have hlive' : r'.phase = .reading ∨ r'.phase = .terminated := by
          rcases hnext with hend | ⟨hgoes, -⟩
          · exact .inr hend
          · exact .inl hgoes
        -- The source has become shorter, so there are rounds left for it.
        have hk' : r'.phase = .reading → r'.source.left < k := by
          intro hgoes
          rcases hnext with hend | ⟨-, hleft⟩
          · simp [hend] at hgoes
          · have := hk hphase
            omega
        obtain ⟨hyields, hanswer, hclose⟩ :=
          ih hlive' hk' (want - r.pending.length) (got ++ r.pending)
        rw [supply_pull_ok hphase hshort hpull, List.drop_append, List.take_append,
          List.drop_eq_nil_of_le hshort.le, List.take_of_length_le hshort.le,
          List.nil_append]
        refine ⟨hyields, ?_, ?_⟩
        · rw [hanswer, List.append_assoc]
          simp only [show want - r.pending.length ≠ 0 by omega,
            show want ≠ 0 by omega, false_or]
        · intro hlt
          rw [List.length_append] at hlt
          exact hclose (by omega)

/-- A read hands out the front of what is still to come, or reports the ending
if nothing is. -/
theorem Yields.read {r : Reader σ} {bytes : Bytes} {ending : Except Failure Unit}
    (h : Yields r bytes ending) (n : Nat) :
    Yields (r.read n).2 (bytes.drop n) ending ∧
      delivered [(r.read n).1] = bytes.take n ∧
      (0 < n → (r.read n).1 =
        if bytes ≠ [] then .ok (bytes.take n) else ending.map fun _ => []) ∧
      (bytes.length < n → (r.read n).2.close.1 = ending) := by
  by_cases hlive : r.phase = .reading ∨ r.phase = .terminated
  · obtain ⟨hyields, hanswer, hclose⟩ :=
      h.supply hlive (k := weight r.source) (fun _ => by unfold weight; omega) n []
    have hread : r.read n = Reader.supply (weight r.source) n [] r := by
      rcases hlive with hphase | hphase <;> simp [Reader.read, hphase]
    rw [hread]
    refine ⟨hyields, ?_, ?_, hclose⟩
    · rw [hanswer, List.nil_append]
      split
      · simp [delivered]
      · rename_i hnone
        rw [not_not.1 (not_or.1 hnone).2]
        cases ending <;> rfl
    · intro hn
      rw [hanswer, List.nil_append]
      by_cases hbytes : bytes = []
      · simp [hbytes, hn.ne']
      · simp [hbytes]
  · -- A reader that is closed or has failed answers every call in the same way.
    obtain ⟨f, hread, hbytes, hending, hclose⟩ : ∃ f, r.read n = (.error f, r) ∧
        bytes = [] ∧ ending = .error f ∧ r.close.1 = .error f := by
      cases h with
      | terminated hphase => exact (hlive (.inr hphase)).elim
      | cut hphase => exact (hlive (.inl hphase)).elim
      | more hphase => exact (hlive (.inl hphase)).elim
      | closed hphase =>
          exact ⟨.streamClosed, by simp [Reader.read, hphase], rfl, rfl,
            by simp [Reader.close, hphase]⟩
      | @failed _ f hphase =>
          exact ⟨f, by simp [Reader.read, hphase], rfl, rfl,
            by simp [Reader.close, hphase]⟩
    rw [hread]
    subst hbytes hending
    exact ⟨by simpa using h, by simp [delivered], fun _ => by simp [Except.map],
      fun _ => hclose⟩

theorem delivered_cons (answer : Except Failure Bytes)
    (answers : List (Except Failure Bytes)) :
    delivered (answer :: answers) = delivered [answer] ++ delivered answers := by
  cases answer <;> simp [delivered]

/-- Reads of any sizes hand out the front of what is still to come. -/
theorem Yields.reads {r : Reader σ} {bytes : Bytes} {ending : Except Failure Unit}
    (h : Yields r bytes ending) (ns : List Nat) :
    Yields (r.reads ns).2 (bytes.drop ns.sum) ending ∧
      delivered (r.reads ns).1 = bytes.take ns.sum := by
  induction ns generalizing r bytes with
  | nil => exact ⟨h, rfl⟩
  | cons n ns ih =>
      obtain ⟨hfirst, htaken, -, -⟩ := h.read n
      obtain ⟨hrest, hdelivered⟩ := ih hfirst
      simp only [Reader.reads, List.sum_cons]
      refine ⟨?_, ?_⟩
      · rw [← List.drop_drop]
        exact hrest
      · rw [delivered_cons, htaken, hdelivered, List.take_add]

theorem close_ok_iff {r : Reader σ} : r.close.1 = .ok () ↔ r.phase = .terminated := by
  cases hphase : r.phase <;> simp [Reader.close, hphase]

/-- Only a reader that has seen the end of its stream can be closed with
success. -/
theorem Yields.close_ok {r : Reader σ} {bytes : Bytes} {ending : Except Failure Unit}
    (h : Yields r bytes ending) (hclose : r.close.1 = .ok ()) : ending = .ok () := by
  cases h with
  | terminated => rfl
  | closed hphase | failed hphase | cut hphase | more hphase =>
      simp [Reader.close, hphase] at hclose

/-- What a reader yields is what reading brings. -/
theorem Yields.brings {r : Reader σ} {bytes : Bytes} {ending : Except Failure Unit}
    (h : Yields r bytes ending) : r.Brings bytes ending where
  answer ns n hn := by
    obtain ⟨hrest, -⟩ := h.reads ns
    obtain ⟨-, -, hanswer, -⟩ := hrest.read n
    rw [hanswer hn]
    by_cases hlt : ns.sum < bytes.length
    · simp [hlt]
    · simp [hlt, List.drop_eq_nil_of_le (Nat.le_of_not_lt hlt)]
  delivered ns := (h.reads ns).2
  close ns n hn hle := by
    obtain ⟨hrest, -⟩ := h.reads ns
    obtain ⟨-, -, -, hclose⟩ := hrest.read n
    exact hclose (by rw [List.drop_eq_nil_of_le hle]; exact hn)
  close_ok ns hclose := (h.reads ns).1.close_ok hclose

/-- Reading brings nothing else than what it brings. -/
theorem Brings.unique {r : Reader σ} {bytes bytes' : Bytes} {ending ending' : Except Failure Unit}
    (h : r.Brings bytes ending) (h' : r.Brings bytes' ending') :
    bytes = bytes' ∧ ending = ending' := by
  have hboth : bytes.length + bytes'.length ≤ [bytes.length + bytes'.length].sum := by simp
  have hall := h.delivered [bytes.length + bytes'.length]
  rw [h'.delivered, List.take_of_length_le (by omega), List.take_of_length_le (by omega)] at hall
  refine ⟨hall.symm, ?_⟩
  rw [← h.close [bytes.length + bytes'.length] Nat.one_pos (by omega)]
  exact h'.close [bytes.length + bytes'.length] Nat.one_pos (by omega)

/-- An empty answer to a non-empty buffer means that the stream has ended well
and that everything has been delivered. -/
theorem Brings.whole_of_empty {r : Reader σ} {bytes : Bytes}
    {ending : Except Failure Unit} (h : r.Brings bytes ending) {ns : List Nat} {n : Nat}
    (hn : 0 < n) (hempty : ((r.reads ns).2.read n).1 = .ok []) :
    ending = .ok () ∧ Reader.delivered (r.reads ns).1 = bytes := by
  rw [h.answer ns hn] at hempty
  split at hempty
  · rename_i hlt
    rcases List.take_eq_nil_iff.1 (Except.ok.inj hempty) with hzero | hnone
    · omega
    · rw [List.drop_eq_nil_iff] at hnone
      omega
  · rename_i hall
    refine ⟨?_, ?_⟩
    · cases ending with
      | error f => simp [Except.map] at hempty
      | ok u => rfl
    · rw [h.delivered, List.take_of_length_le (Nat.le_of_not_lt hall)]

/-- A stream that ends in a failure is never reported to have ended well. -/
theorem Brings.no_good_end {r : Reader σ} {bytes : Bytes} {f : Failure}
    (h : r.Brings bytes (.error f)) (ns : List Nat) :
    (r.reads ns).2.close.1 ≠ .ok () ∧
      ∀ n, 0 < n → ((r.reads ns).2.read n).1 ≠ .ok [] := by
  refine ⟨fun hclose => ?_, fun n hn hempty => ?_⟩
  · simpa using h.close_ok ns hclose
  · simpa using (h.whole_of_empty hn hempty).1

end Reader

end SealedStream
