import SealedStream.Proofs.ChunkCalls
import SealedStream.Proofs.Digits
import SealedStream.Proofs.Nonces

/-!
# The supply of counted nonces

A counter of a width has so many values from its own up to the one whose bytes are
all `0xff`.  A counted sealer goes through them one by one.  A call that seals a
chunk takes the next of them, a call that fails takes none, and the last one is used
too.  The counter cannot tell whether its last value has been used: that the codec is
exhausted has to be known besides, and `Counted.left` counts what is left from both.

A sealer may be called on after a call that has failed, so a run is a list of calls
with their answers, not a record of chunks.
-/

namespace SealedStream

namespace NonceCounter

/-- The value so many steps after this one. -/
def after (c : NonceCounter) (k : Nat) : NonceCounter :=
  Bytes.ofNatLE c.length (Bytes.toNatLE c + k)

/-- How many values there are from this one to the last, both of them counted. -/
def left (c : NonceCounter) : Nat :=
  256 ^ c.length - Bytes.toNatLE c

theorem left_pos (c : NonceCounter) : 0 < c.left :=
  Nat.sub_pos_of_lt (Bytes.toNatLE_lt c)

theorem toNatLE_after {c : NonceCounter} {k : Nat} (h : k < c.left) :
    Bytes.toNatLE (c.after k) = Bytes.toNatLE c + k := by
  unfold left at h
  rw [after, Bytes.toNatLE_ofNatLE, Nat.mod_eq_of_lt (by omega)]

/-- A byte string of this width that stands for the value is the value. -/
theorem eq_after {c d : NonceCounter} {k : Nat} (hlength : d.length = c.length)
    (hvalue : Bytes.toNatLE d = Bytes.toNatLE c + k) : d = c.after k := by
  rw [after, ← hlength, ← hvalue, Bytes.ofNatLE_toNatLE]

/-- Of the values of a width the last one has all its bytes at their highest. -/
theorem toNatLE_replicate (w : Nat) :
    Bytes.toNatLE (List.replicate w 0xff) = 256 ^ w - 1 := by
  induction w with
  | zero => rfl
  | succ w ih =>
      have hpos : 0 < 256 ^ w := Nat.pow_pos (by omega)
      have hbyte : (0xff : UInt8).toNat = 255 := rfl
      rw [List.replicate_succ, Bytes.toNatLE, ih, hbyte, pow_succ]
      omega

theorem replicate_eq_after (c : NonceCounter) :
    List.replicate c.length 0xff = c.after (c.left - 1) := by
  have hlt := Bytes.toNatLE_lt c
  apply eq_after
  · exact List.length_replicate
  · rw [toNatLE_replicate, left]
    omega

/-- The last value is the one after which nothing is left. -/
theorem left_of_isLast {c : NonceCounter} (h : c.isLast = true) : c.left = 1 := by
  have hbytes : c = List.replicate c.length 0xff :=
    List.eq_replicate_of_mem (by simpa [isLast] using h)
  have hvalue : Bytes.toNatLE c = 256 ^ c.length - 1 := by
    rw [← toNatLE_replicate, ← hbytes]
  have hpos : 0 < 256 ^ c.length := Nat.pow_pos (by omega)
  rw [left, hvalue]
  omega

theorem left_carry {c : NonceCounter} (h : c.isLast = false) :
    left (carry c) + 1 = c.left := by
  have hlt := Bytes.toNatLE_lt (carry c)
  have hvalue := toNatLE_carry h
  rw [length_carry] at hlt
  unfold left
  rw [length_carry]
  omega

end NonceCounter

namespace Chunk

namespace Counted

/-- How many nonces a codec has left. -/
def left (s : Counted) : Nat :=
  if s.exhausted then 0 else s.counter.left

theorem left_eq_zero_iff (s : Counted) : s.left = 0 ↔ s.exhausted = true := by
  have hpos := s.counter.left_pos
  unfold left
  split
  · simp [*]
  · simp [*]
    omega

/-- The step: moving on leaves one nonce less.  From the last value the counter does
not move, and the codec is exhausted instead. -/
theorem left_advance {s : Counted} (h : s.exhausted = false) :
    s.advance.left + 1 = s.left := by
  cases hlast : s.counter.isLast with
  | true => simp [advance, NonceCounter.next, left, hlast, h, NonceCounter.left_of_isLast]
  | false =>
      have hcarry := NonceCounter.left_carry hlast
      simpa [advance, NonceCounter.next, left, hlast, h] using hcarry

/-- The run: so many steps leave so many nonces less. -/
theorem left_iterate {s : Counted} {k : Nat} (h : k ≤ s.left) :
    (advance^[k] s).left + k = s.left := by
  induction k with
  | zero => rfl
  | succ k ih =>
      have hbefore := ih (by omega)
      have hlive : (advance^[k] s).exhausted = false := by
        apply Bool.eq_false_iff.2
        intro hexhausted
        have := (left_eq_zero_iff _).2 hexhausted
        omega
      have hstep := left_advance hlive
      rw [Function.iterate_succ_apply']
      omega

theorem exhausted_iterate {s : Counted} {k : Nat} (h : k ≤ s.left) :
    (advance^[k] s).exhausted = true ↔ k = s.left := by
  have hleft := left_iterate h
  rw [← left_eq_zero_iff]
  omega

/-- While nonces are left, the next one is as many steps on as have been made. -/
theorem counter_after {s : Counted} {k : Nat} (h : k < s.left) :
    (advance^[k] s).counter = s.counter.after k := by
  apply NonceCounter.eq_after
  · exact length_iterate s k
  · apply toNatLE_iterate
    apply Bool.eq_false_iff.2
    rw [Ne, exhausted_iterate (Nat.le_of_lt h)]
    omega

theorem left_of_start {a : Aead} {c : NonceCounter} {s : Counted}
    (h : start a c = .ok s) :
    c.length = a.nonceSize ∧ s.counter = c ∧ s.left = c.left := by
  unfold start at h
  split at h
  · rename_i hlength
    obtain rfl := Except.ok.inj h
    exact ⟨hlength, rfl, rfl⟩
  · simp at h

end Counted

/-! ## Calls of the counted sealer -/

variable {a : Aead}

/-- One call: the cipher is asked under the counter if the codec is not exhausted,
and only a chunk that is sealed moves the codec on. -/
theorem counted_call (a : Aead) (s : Counted) (text : Bytes) :
    (countedSealer a).sealChunk s text =
      if s.exhausted then (.error .nonceExhausted, s)
      else (a.answer s.counter text,
        if (a.answer s.counter text).isOk then s.advance else s) := by
  cases hseal : a.sealText s.counter text with
  | none => simp [countedSealer, Aead.answer, hseal, Except.isOk, Except.toBool]
  | some chunk => simp [countedSealer, Aead.answer, hseal, Except.isOk, Except.toBool]

/-- After a call the codec has made a step if the chunk was sealed. -/
theorem counted_call_state (a : Aead) (s : Counted) (text : Bytes) :
    ((countedSealer a).sealChunk s text).2 =
      Counted.advance^[if ((countedSealer a).sealChunk s text).1.isOk then 1 else 0] s := by
  rw [counted_call]
  split
  · rfl
  · dsimp only
    split <;> rfl

/-- The answer of a codec that has made so many steps.  Which nonces are left is all
that it depends on besides the cipher. -/
theorem counted_answer (a : Aead) {s : Counted} {k : Nat} (h : k ≤ s.left) (text : Bytes) :
    ((countedSealer a).sealChunk (Counted.advance^[k] s) text).1 =
      if k < s.left then a.answer (s.counter.after k) text else .error .nonceExhausted := by
  rw [counted_call]
  by_cases hk : k < s.left
  · have hlive : (Counted.advance^[k] s).exhausted = false := by
      apply Bool.eq_false_iff.2
      rw [Ne, Counted.exhausted_iterate h]
      omega
    simp [hlive, hk, Counted.counter_after hk]
  · have hexhausted : (Counted.advance^[k] s).exhausted = true :=
      (Counted.exhausted_iterate h).2 (by omega)
    simp [hexhausted, hk]

/-- The run: before the `i`th call the codec has made a step for every call that has
sealed its chunk.  The induction is on the texts, with the first state left open. -/
theorem counted_callAll (a : Aead) (s : Counted) (texts : List Bytes) :
    ((countedSealer a).callAll s texts).2 =
        Counted.advance^[sealedBefore ((countedSealer a).callAll s texts).1 texts.length] s ∧
      ∀ i text, texts[i]? = some text →
        ((countedSealer a).callAll s texts).1[i]? = some ((countedSealer a).sealChunk
          (Counted.advance^[sealedBefore ((countedSealer a).callAll s texts).1 i] s) text).1 := by
  induction texts generalizing s with
  | nil => simp [Sealer.callAll, sealedBefore]
  | cons first texts ih =>
      have hstate := counted_call_state a s first
      obtain ⟨hlast, hanswers⟩ := ih ((countedSealer a).sealChunk s first).2
      simp only [Sealer.callAll, List.length_cons, sealedBefore_cons]
      constructor
      · rw [hlast, Function.iterate_add_apply, ← hstate]
      · intro i text hi
        cases i with
        | zero =>
            obtain rfl := Option.some.inj hi
            rfl
        | succ i =>
            rw [sealedBefore_cons, Function.iterate_add_apply, ← hstate]
            exact hanswers i text hi

section Run

variable {s : Counted} {texts : List Bytes}

/-- No more chunks are sealed than there were nonces. -/
theorem sealedBefore_le_left (a : Aead) (s : Counted) (texts : List Bytes) (i : Nat) :
    sealedBefore ((countedSealer a).callAll s texts).1 i ≤ s.left := by
  induction i with
  | zero => simp [sealedBefore]
  | succ i ih =>
      cases hi : ((countedSealer a).callAll s texts).1[i]? with
      | none => simpa [sealedBefore_succ, hi] using ih
      | some answer =>
          cases answer with
          | error f => simpa [sealedBefore_succ, hi, Except.isOk, Except.toBool] using ih
          | ok chunk =>
              have hlt : i < texts.length := by
                rw [← Sealer.length_callAll (countedSealer a) s texts]
                exact (List.getElem?_eq_some_iff.1 hi).1
              have hanswer := (counted_callAll a s texts).2 i _ (List.getElem?_eq_getElem hlt)
              rw [hi, counted_answer a ih] at hanswer
              -- A chunk was sealed, so there was a nonce for it.
              have hleft : sealedBefore ((countedSealer a).callAll s texts).1 i < s.left := by
                by_contra hnone
                simp [hnone] at hanswer
              rw [sealedBefore_succ_of_ok hi]
              omega

theorem callAll_answer (a : Aead) (s : Counted) {i : Nat} {text : Bytes}
    (hi : texts[i]? = some text) :
    ((countedSealer a).callAll s texts).1[i]? = some
      (if sealedBefore ((countedSealer a).callAll s texts).1 i < s.left then
        a.answer (s.counter.after (sealedBefore ((countedSealer a).callAll s texts).1 i)) text
      else .error .nonceExhausted) := by
  rw [(counted_callAll a s texts).2 i text hi,
    counted_answer a (sealedBefore_le_left a s texts i)]

/-- A call that has sealed its chunk had a nonce, and used the next one. -/
theorem callAll_ok {i : Nat} {chunk : Bytes}
    (h : ((countedSealer a).callAll s texts).1[i]? = some (.ok chunk)) :
    ∃ text, texts[i]? = some text ∧
      sealedBefore ((countedSealer a).callAll s texts).1 i < s.left ∧
      a.sealText (s.counter.after (sealedBefore ((countedSealer a).callAll s texts).1 i)) text =
        some chunk := by
  have hlt : i < texts.length := by
    rw [← Sealer.length_callAll (countedSealer a) s texts]
    exact (List.getElem?_eq_some_iff.1 h).1
  have hanswer := callAll_answer a s (List.getElem?_eq_getElem hlt)
  rw [h] at hanswer
  refine ⟨texts[i], List.getElem?_eq_getElem hlt, ?_⟩
  split at hanswer
  · rename_i hleft
    exact ⟨hleft, Aead.sealText_of_answer (Option.some.inj hanswer).symm⟩
  · simp at hanswer

/-- If the cipher never fails, as many chunks are sealed as there are calls, until the
nonces have come to their end. -/
theorem sealedBefore_eq_min
    (h : ∀ answer ∈ ((countedSealer a).callAll s texts).1, answer ≠ .error .encryptionFailed)
    {i : Nat} (hi : i ≤ texts.length) :
    sealedBefore ((countedSealer a).callAll s texts).1 i = min i s.left := by
  induction i with
  | zero => simp [sealedBefore]
  | succ i ih =>
      have hbefore := ih (by omega)
      have hanswer := callAll_answer a s (List.getElem?_eq_getElem (show i < texts.length by omega))
      by_cases hleft : i < s.left
      · have hk : sealedBefore ((countedSealer a).callAll s texts).1 i < s.left := by omega
        rw [if_pos hk] at hanswer
        obtain ⟨chunk, hok⟩ :=
          Aead.exists_ok_of_answer (h _ (List.mem_of_getElem? hanswer))
        rw [hok] at hanswer
        rw [sealedBefore_succ_of_ok hanswer]
        omega
      · have hk : ¬ sealedBefore ((countedSealer a).callAll s texts).1 i < s.left := by omega
        rw [if_neg hk] at hanswer
        rw [sealedBefore_succ, hanswer]
        simp [Except.isOk, Except.toBool]
        omega

/-- No two calls that seal their chunks have the same nonce. -/
theorem callAll_injective (hleft : s.left = s.counter.left) {i j : Nat} {x y : Bytes}
    (hx : ((countedSealer a).callAll s texts).1[i]? = some (.ok x))
    (hy : ((countedSealer a).callAll s texts).1[j]? = some (.ok y))
    (hsame : s.counter.after (sealedBefore ((countedSealer a).callAll s texts).1 i) =
      s.counter.after (sealedBefore ((countedSealer a).callAll s texts).1 j)) : i = j := by
  obtain ⟨-, -, hi, -⟩ := callAll_ok hx
  obtain ⟨-, -, hj, -⟩ := callAll_ok hy
  -- Below the end of the width different numbers have different bytes.
  have hvalue := congrArg Bytes.toNatLE hsame
  rw [NonceCounter.toNatLE_after (hleft ▸ hi), NonceCounter.toNatLE_after (hleft ▸ hj)]
    at hvalue
  rcases Nat.lt_trichotomy i j with hlt | heq | hgt
  · have := sealedBefore_lt hx hlt
    omega
  · exact heq
  · have := sealedBefore_lt hy hgt
    omega

/-- Once all nonces are used, one of the calls has used the last one. -/
theorem last_nonce_used (hleft : s.left = s.counter.left)
    (hall : sealedBefore ((countedSealer a).callAll s texts).1 texts.length = s.left) :
    ∃ (i : Nat) (text chunk : Bytes), texts[i]? = some text ∧
      ((countedSealer a).callAll s texts).1[i]? = some (.ok chunk) ∧
      a.sealText (List.replicate s.counter.length 0xff) text = some chunk := by
  have hpos := s.counter.left_pos
  have hlt : s.left - 1 < sealedBefore ((countedSealer a).callAll s texts).1 texts.length := by
    omega
  obtain ⟨i, chunk, hi, hk⟩ := exists_sealed hlt
  obtain ⟨text, htext, -, hseal⟩ := callAll_ok hi
  rw [hk, hleft, ← NonceCounter.replicate_eq_after] at hseal
  exact ⟨i, text, chunk, htext, hi, hseal⟩

/-- Once all nonces are used, every call is refused, whatever the cipher. -/
theorem refused_when_all_used
    (hall : sealedBefore ((countedSealer a).callAll s texts).1 texts.length = s.left)
    (b : Aead) (text : Bytes) :
    (countedSealer b).sealChunk ((countedSealer a).callAll s texts).2 text =
      (.error .nonceExhausted, ((countedSealer a).callAll s texts).2) := by
  have hexhausted : ((countedSealer a).callAll s texts).2.exhausted = true := by
    rw [(counted_callAll a s texts).1, hall]
    exact (Counted.exhausted_iterate (Nat.le_refl _)).2 rfl
  rw [counted_call, if_pos hexhausted]

end Run

/-- A counted sealer uses every nonce once, from its first one on, and stops behind
the last.  Let it start from any counter value and be called with any texts.  Each
call that seals its chunk gets the nonce whose number is that of the first one and the
calls that have succeeded before, so a call that fails uses up no nonce, and no two
chunks have the same one.  As many calls can succeed as there are numbers from the
first one to the end of the width, and so many do if the cipher does not fail.  Then
the nonce of bytes `0xff` has been used as well, and every later call is refused: its
answer does not depend on the cipher at all. -/
theorem counted_nonces_spent (a : Aead) {c : NonceCounter} {s last : Counted}
    {texts : List Bytes} {answers : List (Except Failure Bytes)}
    (hstart : Counted.start a c = .ok s)
    (hrun : (countedSealer a).callAll s texts = (answers, last)) :
    (∀ i text, texts[i]? = some text → answers[i]? = some
      (if Bytes.toNatLE c + sealedBefore answers i < 256 ^ a.nonceSize then
        a.answer (Bytes.ofNatLE a.nonceSize (Bytes.toNatLE c + sealedBefore answers i)) text
      else .error .nonceExhausted)) ∧
    (∀ i j x y, answers[i]? = some (.ok x) → answers[j]? = some (.ok y) →
      Bytes.ofNatLE a.nonceSize (Bytes.toNatLE c + sealedBefore answers i) =
        Bytes.ofNatLE a.nonceSize (Bytes.toNatLE c + sealedBefore answers j) → i = j) ∧
    (∀ text f t, (countedSealer a).sealChunk last text = (.error f, t) → t = last) ∧
    sealedBefore answers texts.length ≤ 256 ^ a.nonceSize - Bytes.toNatLE c ∧
    ((∀ answer ∈ answers, answer ≠ .error .encryptionFailed) →
      sealedBefore answers texts.length =
        min texts.length (256 ^ a.nonceSize - Bytes.toNatLE c)) ∧
    (sealedBefore answers texts.length = 256 ^ a.nonceSize - Bytes.toNatLE c →
      (∃ (i : Nat) (text chunk : Bytes),
        texts[i]? = some text ∧ answers[i]? = some (.ok chunk) ∧
        a.sealText (List.replicate a.nonceSize 0xff) text = some chunk) ∧
      ∀ (b : Aead) (text : Bytes),
        (countedSealer b).sealChunk last text = (.error .nonceExhausted, last)) := by
  obtain ⟨hlength, rfl, hleft⟩ := Counted.left_of_start hstart
  obtain rfl : ((countedSealer a).callAll s texts).1 = answers := congrArg Prod.fst hrun
  obtain rfl : ((countedSealer a).callAll s texts).2 = last := congrArg Prod.snd hrun
  have hsupply : s.left = 256 ^ a.nonceSize - Bytes.toNatLE s.counter := by
    rw [hleft, NonceCounter.left, hlength]
  have hnonce : ∀ k, Bytes.ofNatLE a.nonceSize (Bytes.toNatLE s.counter + k) =
      s.counter.after k := by
    intro k
    rw [NonceCounter.after, hlength]
  have hroom : ∀ k, Bytes.toNatLE s.counter + k < 256 ^ a.nonceSize ↔ k < s.left := by
    omega
  simp only [hnonce, hroom, ← hsupply]
  refine ⟨?_, ?_, ?_, ?_, ?_, ?_⟩
  · intro i text hi
    exact callAll_answer a s hi
  · intro i j x y hx hy hsame
    exact callAll_injective hleft hx hy hsame
  · intro text f t hfail
    exact counted_seal_error hfail
  · exact sealedBefore_le_left a s texts _
  · intro hnever
    exact sealedBefore_eq_min hnever (Nat.le_refl _)
  · intro hall
    constructor
    · rw [← hlength]
      exact last_nonce_used hleft hall
    · exact refused_when_all_used hall

/-- A cipher of one-byte nonces that writes the nonce before the text, and fails on an
empty one. -/
def labelling : Aead where
  nonceSize := 1
  sealText nonce text := if text.isEmpty then none else some (nonce ++ text)
  openText _ sealed := some (sealed.drop 1)

/-- With two nonces left a sealer fails once, seals two chunks and then no more. -/
theorem labelling_nonces_spent :
    ∃ s last answers, Counted.start labelling [0xfe] = .ok s ∧
      (countedSealer labelling).callAll s [[1], [], [2], [3]] = (answers, last) ∧
      answers = [.ok [0xfe, 1], .error .encryptionFailed, .ok [0xff, 2],
        .error .nonceExhausted] ∧
      sealedBefore answers 4 = 256 ^ 1 - 254 ∧
      ∀ (b : Aead) (text : Bytes),
        (countedSealer b).sealChunk last text = (.error .nonceExhausted, last) :=
  ⟨_, _, _, rfl, rfl, rfl, rfl,
    ((@counted_nonces_spent labelling [0xfe] _ _ [[1], [], [2], [3]] _
      rfl rfl).2.2.2.2.2 rfl).2⟩

end Chunk

end SealedStream
