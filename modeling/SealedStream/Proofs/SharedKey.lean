import Mathlib.Logic.Function.Basic
import SealedStream.Proofs.Nonces
import SealedStream.Proofs.Session

/-!
# Several sealers under one key

A key makes any number of sealers, and in counter mode each counts its nonces from
zero.  Nothing is shared between them, so what holds of one sealer, that it never
uses a nonce twice, does not hold of a key.

`Key.uses` lets any number of sealers of one key be called in any order and lists
the calls that succeed.  The nonce of such a call is the number of earlier ones on
the same sealer: two calls get the same nonce exactly if they come at the same place
in the calls on their own sealers.  The streams that are sealed under one key, each
by a sealer of its own, use the same nonces from their first chunks on.
-/

namespace SealedStream

namespace Chunk

namespace Counted

/-- A counter that has started from zero stands for the number of its steps. -/
theorem counter_iterate {a : Aead} {k : Nat}
    (h : (advance^[k] (zero a)).exhausted = false) :
    (advance^[k] (zero a)).counter = Bytes.ofNatLE a.nonceSize k := by
  have hlength : (advance^[k] (zero a)).counter.length = a.nonceSize := by
    rw [length_iterate]
    simp [zero, NonceCounter.zero, Bytes.zeros]
  have hvalue : Bytes.toNatLE (advance^[k] (zero a)).counter = k := by
    rw [toNatLE_iterate h, zero, NonceCounter.zero, Bytes.toNatLE_zeros, Nat.zero_add]
  rw [← Bytes.ofNatLE_toNatLE (advance^[k] (zero a)).counter, hlength, hvalue]

end Counted

end Chunk

/-- The nonce under which the next chunk is sealed, where it is known beforehand. -/
def SealState.nonce {ρ : Type} : SealState ρ → Bytes
  | .counted s => s.counter
  | .drawn _ => []

namespace Key

/-- A chunk that one of several sealers has sealed, and the nonce it was sealed
under. -/
structure Use extends Sealing where
  maker : Nat
  nonce : Bytes

variable {ρ : Type}

/-- The chunks that are sealed when the sealers of a key, in counter mode, are called
in this order, each with a text. -/
def uses (k : Key) (entropy : Entropy ρ) :
    (Nat → SealState ρ) → List (Nat × Bytes) → List Use
  | _, [] => []
  | states, (i, text) :: calls =>
      match (k.sealer .counter entropy).sealChunk (states i) text with
      | (.ok chunk, s) =>
          ⟨⟨text, chunk⟩, i, (states i).nonce⟩ ::
            uses k entropy (Function.update states i s) calls
      | (.error _, s) => uses k entropy (Function.update states i s) calls

/-- How many of the first `p` uses came from this sealer. -/
def earlier (log : List Use) (p maker : Nat) : Nat :=
  (log.take p).countP (·.maker = maker)

/-- The state of a sealer of the key after so many chunks. -/
def countedAfter (k : Key) (m : Nat) : Chunk.Counted :=
  Chunk.Counted.advance^[m] (.zero k.aead)

/-- Sealers of the key that have sealed so many chunks each. -/
def counting (k : Key) (sealed : Nat → Nat) (i : Nat) : SealState ρ :=
  .counted (k.countedAfter (sealed i))

theorem update_counting (k : Key) (sealed : Nat → Nat) (i : Nat) :
    Function.update (k.counting sealed : Nat → SealState ρ) i
        (.counted (k.countedAfter (sealed i)).advance) =
      k.counting (Function.update sealed i (sealed i + 1)) := by
  funext j
  by_cases hj : j = i
  · subst hj
    simp [counting, countedAfter, Function.iterate_succ_apply']
  · simp [counting, hj]

/-- The step: a call that succeeds is a use of the next nonce of its sealer, and
one that fails changes nothing. -/
theorem uses_cons (k : Key) (entropy : Entropy ρ) (sealed : Nat → Nat) (i : Nat)
    (text : Bytes) (calls : List (Nat × Bytes)) :
    (∃ chunk, (k.countedAfter (sealed i)).exhausted = false ∧
      k.aead.sealText (k.countedAfter (sealed i)).counter text = some chunk ∧
      k.uses entropy (k.counting sealed) ((i, text) :: calls) =
        ⟨⟨text, chunk⟩, i, (k.countedAfter (sealed i)).counter⟩ ::
          k.uses entropy (k.counting (Function.update sealed i (sealed i + 1))) calls) ∨
    k.uses entropy (k.counting sealed) ((i, text) :: calls) =
      k.uses entropy (k.counting sealed) calls := by
  cases hseal : (Chunk.countedSealer k.aead).sealChunk (k.countedAfter (sealed i)) text with
  | mk answer s =>
      cases answer with
      | ok chunk =>
          obtain ⟨hlive, hchunk, rfl⟩ := Chunk.counted_seal_ok hseal
          refine .inl ⟨chunk, hlive, hchunk, ?_⟩
          rw [← update_counting]
          simp [uses, sealer, counting, hseal, SealState.nonce]
      | error f =>
          obtain rfl := Chunk.counted_seal_error hseal
          have hsame : Function.update (k.counting sealed : Nat → SealState ρ) i
              (.counted (k.countedAfter (sealed i))) = k.counting sealed :=
            Function.update_eq_self i _
          refine .inr ?_
          simp only [uses, sealer, counting, hseal]
          exact congrArg (fun states => k.uses entropy states calls) hsame

/-- The sealer of a later use has counted the first one, if that was its own. -/
theorem earlier_cons (sealed : Nat → Nat) (first : Use) (log : List Use) (p maker : Nat) :
    sealed maker + earlier (first :: log) (p + 1) maker =
      Function.update sealed first.maker (sealed first.maker + 1) maker +
        earlier log p maker := by
  by_cases hmaker : first.maker = maker
  · subst hmaker
    simp [earlier]
    omega
  · have hother : maker ≠ first.maker := fun heq => hmaker heq.symm
    simp [earlier, hmaker, hother]

/-- The run: every use is a call of the cipher under the nonce that its sealer had
come to.  The induction is on the calls, with the counts of all sealers left open. -/
theorem uses_counted (k : Key) (entropy : Entropy ρ) {sealed : Nat → Nat}
    {calls : List (Nat × Bytes)} {log : List Use}
    (hlog : k.uses entropy (k.counting sealed) calls = log) {p : Nat} {u : Use}
    (hu : log[p]? = some u) :
    (k.countedAfter (sealed u.maker + earlier log p u.maker)).exhausted = false ∧
      u.nonce = (k.countedAfter (sealed u.maker + earlier log p u.maker)).counter ∧
      k.aead.sealText u.nonce u.text = some u.chunk := by
  induction calls generalizing sealed log p with
  | nil =>
      subst hlog
      simp [uses] at hu
  | cons call calls ih =>
      rcases k.uses_cons entropy sealed call.1 call.2 calls with
        ⟨chunk, hlive, hchunk, hfirst⟩ | hsame
      · rw [hfirst] at hlog
        subst hlog
        cases p with
        | zero =>
            obtain rfl := Option.some.inj hu
            exact ⟨hlive, rfl, hchunk⟩
        | succ p =>
            rw [earlier_cons]
            exact ih rfl hu
      · exact ih (hsame.symm.trans hlog) hu

/-! ## Sealers as they come from the key -/

/-- Sealers as the key makes them, each with an entropy source of its own. -/
def minted (k : Key) (source : Nat → ρ) (i : Nat) : SealState ρ :=
  k.sealState .counter (source i)

section Minted

variable {k : Key} {entropy : Entropy ρ} {source : Nat → ρ} {calls : List (Nat × Bytes)}
  {log : List Use} {p q : Nat} {u v : Use}

theorem minted_counted (hlog : k.uses entropy (k.minted source) calls = log)
    (hu : log[p]? = some u) :
    (k.countedAfter (earlier log p u.maker)).exhausted = false ∧
      u.nonce = (k.countedAfter (earlier log p u.maker)).counter ∧
      k.aead.sealText u.nonce u.text = some u.chunk := by
  have hnone : k.minted source = k.counting fun _ => 0 := rfl
  rw [hnone] at hlog
  simpa using k.uses_counted entropy hlog hu

theorem nonce_of_use (hlog : k.uses entropy (k.minted source) calls = log)
    (hu : log[p]? = some u) :
    u.nonce = Bytes.ofNatLE k.aead.nonceSize (earlier log p u.maker) := by
  obtain ⟨hlive, hused, -⟩ := minted_counted hlog hu
  exact hused.trans (Chunk.Counted.counter_iterate hlive)

/-- Two uses have the same nonce exactly if their sealers had come to the same
number. -/
theorem nonce_eq_iff (hlog : k.uses entropy (k.minted source) calls = log)
    (hu : log[p]? = some u) (hv : log[q]? = some v) :
    u.nonce = v.nonce ↔ earlier log p u.maker = earlier log q v.maker := by
  constructor
  · intro hsame
    obtain ⟨hlive, hused, -⟩ := minted_counted hlog hu
    obtain ⟨hlive', hused', -⟩ := minted_counted hlog hv
    exact Chunk.Counted.nonce_injective hlive hlive' (hused.symm.trans (hsame.trans hused'))
  · intro hequal
    rw [nonce_of_use hlog hu, nonce_of_use hlog hv, hequal]

/-- A sealer that has come to its use at `p` has come further at any later one. -/
theorem earlier_lt {log : List Use} {p q : Nat} {u : Use} (hu : log[p]? = some u)
    (hpq : p < q) : earlier log p u.maker < earlier log q u.maker := by
  have hstep : earlier log (p + 1) u.maker = earlier log p u.maker + 1 := by
    simp [earlier, List.take_add_one, hu]
  have hlater : earlier log (p + 1) u.maker ≤ earlier log q u.maker :=
    (List.take_sublist_take_left hpq).countP_le
  omega

/-- No sealer uses a nonce twice. -/
theorem nonce_injective (hlog : k.uses entropy (k.minted source) calls = log)
    (hu : log[p]? = some u) (hv : log[q]? = some v) (hmaker : u.maker = v.maker)
    (hsame : u.nonce = v.nonce) : p = q := by
  have hequal := (nonce_eq_iff hlog hu hv).1 hsame
  rcases Nat.lt_trichotomy p q with hlt | heq | hgt
  · have hlater := earlier_lt hu hlt
    rw [hmaker] at hlater hequal
    omega
  · exact heq
  · have hlater := earlier_lt hv hgt
    rw [hmaker] at hequal
    omega

end Minted

/-- In counter mode the sealer of a key seals as the counted sealer of its cipher
does. -/
theorem counted_of_seals {k : Key} {entropy : Entropy ρ} {s : Chunk.Counted}
    {s' : SealState ρ} {record : List Sealing}
    (h : (k.sealer .counter entropy).Seals (.counted s) record s') :
    ∃ t, (Chunk.countedSealer k.aead).Seals s record t := by
  generalize hstate : SealState.counted s = state at h
  induction h generalizing s with
  | nil => exact ⟨s, .nil s⟩
  | @cons state state₁ state' c record hfirst _ ih =>
      subst hstate
      cases hseal : (Chunk.countedSealer k.aead).sealChunk s c.text with
      | mk answer s₁ =>
          simp only [sealer, hseal, Prod.mk.injEq] at hfirst
          obtain ⟨rfl, hnext⟩ := hfirst
          obtain ⟨t, hrest⟩ := ih hnext
          exact ⟨t, .cons hseal hrest⟩

/-- What becomes of nonces under one key in counter mode.  Let any number of its
sealers be called in any order: the nonce of a chunk is the number of chunks that
its own sealer has sealed before.  So a sealer does not use a nonce twice, and two
sealers have used the same one exactly if both have come to the same number.  The
chunks of a session under the key are sealed in this way, whichever session it is:
every chunk gets the nonce of its place in the stream. -/
theorem nonces_of_shared_key (k : Key) (entropy : Entropy ρ) :
    (∀ (source : Nat → ρ) (calls : List (Nat × Bytes)) (log : List Use),
      k.uses entropy (k.minted source) calls = log →
        (∀ p u, log[p]? = some u →
          u.nonce = Bytes.ofNatLE k.aead.nonceSize (earlier log p u.maker) ∧
            k.aead.sealText u.nonce u.text = some u.chunk) ∧
        ∀ p q u v, log[p]? = some u → log[q]? = some v →
          (u.nonce = v.nonce ↔ earlier log p u.maker = earlier log q v.maker) ∧
            (u.maker = v.maker → u.nonce = v.nonce → p = q)) ∧
    ∀ (source : ρ) (S : Session (SealState ρ)), S.sealer = k.sealer .counter entropy →
      S.codec = k.sealState .counter source → ∀ j c, S.record[j]? = some c →
        k.aead.sealText (Bytes.ofNatLE k.aead.nonceSize j) c.text = some c.chunk := by
  constructor
  · intro source calls log hlog
    constructor
    · intro p u hu
      exact ⟨nonce_of_use hlog hu, (minted_counted hlog hu).2.2⟩
    · intro p q u v hu hv
      exact ⟨nonce_eq_iff hlog hu hv, nonce_injective hlog hu hv⟩
  · intro source S hsealer hcodec j c hc
    have hseals := S.ledger.seals
    rw [hsealer, hcodec] at hseals
    obtain ⟨t, hcounted⟩ := counted_of_seals hseals
    obtain ⟨hlive, hseal⟩ := Chunk.counted_seals hcounted hc
    rwa [Chunk.Counted.counter_iterate hlive] at hseal

/-- A key of zero bytes. -/
def zeroKey : Key :=
  ⟨.chacha20Poly1305, Bytes.zeros 32, rfl⟩

/-- Three calls on two sealers of one key. -/
def sharedCalls : List (Nat × Bytes) :=
  [(0, [97]), (1, [98]), (0, [99])]

/-- The third chunk is the second one of its sealer. -/
theorem sharedCalls_nonces :
    ∃ u v, (zeroKey.uses Entropy.tape (zeroKey.minted fun _ => []) sharedCalls)[0]? = some u ∧
      (zeroKey.uses Entropy.tape (zeroKey.minted fun _ => []) sharedCalls)[2]? = some v ∧
      u.maker = 0 ∧ v.maker = 0 ∧ v.nonce = Bytes.ofNatLE 12 1 ∧ u.nonce ≠ v.nonce := by
  obtain ⟨hvalue, hsame⟩ := (zeroKey.nonces_of_shared_key Entropy.tape).1 (fun _ => [])
    sharedCalls _ rfl
  refine ⟨_, _, rfl, rfl, rfl, rfl, (hvalue 2 _ rfl).1, fun hequal => ?_⟩
  have := (hsame 0 2 _ _ rfl rfl).2 rfl hequal
  omega

/-- Two sealers of one key seal different texts under the same nonce. -/
theorem sharedCalls_repeat :
    ∃ u v, (zeroKey.uses Entropy.tape (zeroKey.minted fun _ => []) sharedCalls)[0]? = some u ∧
      (zeroKey.uses Entropy.tape (zeroKey.minted fun _ => []) sharedCalls)[1]? = some v ∧
      u.text = [97] ∧ v.text = [98] ∧ u.nonce = v.nonce :=
  ⟨_, _, rfl, rfl, rfl, rfl, rfl⟩

end Key

end SealedStream
