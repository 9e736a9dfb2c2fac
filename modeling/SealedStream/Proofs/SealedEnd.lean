import SealedStream.Proofs.Reading

/-!
# What ends a stream

A reader takes a stream to have ended when it has opened the chunk that ends it:
the sealed number zero, or a chunk that is not full.  There is one more end, for
streams that have lengths but no numbers.  Their end is a bare length of zero, and
nothing is opened for it.

`Reader.Reached` says where calls of any kind can have brought a reader, whatever
its source and its opener: as long as it has opened no chunk it is as it was
started, or it has failed, or a bare length of zero stood at the very front.  So a
reader whose opener rejects every chunk never takes the stream to have ended,
except by such a length.
-/

namespace SealedStream

/-- The first length in the source is zero, and that ends streams of this layout
without a chunk. -/
def Layout.BareEnd (l : Layout) (source : Source) : Prop :=
  l.counter? = none ∧
    ∃ (form : IntForm) (rest : Source),
      l.length? = some form ∧ form.fromSource source = (.ok (some 0), rest)

theorem Layout.BareEnd.counter {l : Layout} {source : Source} (h : l.BareEnd source) :
    l.chunkCounter = false := by
  simpa [Layout.counter?] using h.1

/-- As it stands, the opener opens no chunk at all. -/
def Opener.Rejects {σ : Type} (opener : Opener σ) (t : σ) : Prop :=
  ∀ chunk text t', opener.openChunk t chunk ≠ (.ok text, t')

/-- An opener that opens nothing as it stands never opens anything. -/
theorem Opener.Rejects.not_after {σ : Type} {opener : Opener σ} {t t' : σ}
    (h : opener.Rejects t) (k : Nat) : ¬ opener.After t (k + 1) t' := by
  induction k generalizing t' with
  | zero =>
      rintro (_ | ⟨hstart, hopen⟩)
      cases hstart
      exact h _ _ _ hopen
  | succ k ih =>
      rintro (_ | ⟨hafter, -⟩)
      exact ih hafter

theorem Chunk.failing_rejects (overhead : Nat) (f : Failure) :
    (Chunk.failingOpener overhead f).Rejects 0 := by
  intro chunk text t'
  simp [Chunk.failingOpener]

namespace Reader

variable {σ : Type} {r r' : Reader σ}

/-! ## A frame that ends the stream -/

/-- Only a bare length of zero is a frame that ends the stream without a chunk. -/
theorem bareEnd_of_nextFrame (h : r.nextFrame = (.ok .terminator, r')) :
    r.layout.BareEnd r.source := by
  unfold nextFrame at h
  cases hlength : r.layout.length? with
  | none =>
      simp only [hlength] at h
      replace h := (fixedFrame_eq_ok.1 h).2
      unfold fillBuffer at h
      split at h
      · simp at h
      · -- What is taken here is a chunk, or there is nothing to take.
        have hframe := Except.ok.inj (Prod.mk.inj h).1
        split at hframe
        · simp at hframe
        · split at hframe <;> simp at hframe
  | some form =>
      simp only [hlength, lengthFrame] at h
      split at h
      · simp at h
      · simp at h
      · rename_i declared rest hread
        split at h
        · rename_i hzero
          obtain ⟨rfl, hcounter⟩ := hzero
          exact ⟨hcounter, form, rest, hlength, hread⟩
        · split at h
          · simp at h
          · -- A length other than that is followed by its chunk.
            obtain ⟨rest', bs, hframe, -⟩ := chunkOfLength_ok h
            simp at hframe

theorem pull_of_bareEnd (h : r.layout.BareEnd r.source) :
    ∃ source : Source,
      r.pull = (.ok (), { r with source := source, phase := .terminated }) := by
  obtain ⟨hcounter, form, rest, hlength, hread⟩ := h
  exact ⟨rest, by simp [pull, nextFrame, hlength, lengthFrame, hread, hcounter, terminate]⟩

theorem acceptChunk_opened {chunk : Bytes} (h : r.acceptChunk chunk = (.ok (), r')) :
    ∃ text, r.opener.openChunk r.codec chunk = (.ok text, r'.codec) := by
  obtain ⟨text, codec, hopen, hkept⟩ := acceptChunk_ok h
  refine ⟨text, ?_⟩
  cases hcounter : r.layout.counter? with
  | none =>
      rw [hcounter] at hkept
      rw [hkept, hopen]
  | some form =>
      rw [hcounter] at hkept
      obtain ⟨found, used, -, hend | hdue⟩ := hkept
      · rw [hend.2.2, hopen]
      · rw [hdue.2.2, hopen]

/-- A pull that succeeds has opened a chunk, or come upon a bare length of zero. -/
theorem pull_opened_or_bare (hl : r.layout.check = .ok ()) (h : r.pull = (.ok (), r')) :
    (∃ chunk text, r.opener.openChunk r.codec chunk = (.ok text, r'.codec)) ∨
      r.layout.BareEnd r.source ∧
        ∃ source : Source, r' = { r with source := source, phase := .terminated } := by
  unfold pull at h
  cases hframe : r.nextFrame with
  | mk answer r₁ =>
      cases answer with
      | error f => simp [hframe] at h
      | ok frame =>
          obtain ⟨source, rfl, -⟩ := nextFrame_ok hl hframe
          simp only [hframe] at h
          cases frame with
          | endOfInput => simp at h
          | terminator =>
              obtain rfl := (Prod.mk.inj h).2
              exact .inr ⟨bareEnd_of_nextFrame hframe, source, rfl⟩
          | chunk bs =>
              exact .inl ⟨bs, acceptChunk_opened (r := { r with source := source }) h⟩
          | lastChunk bs =>
              dsimp only at h
              split at h
              · rename_i r₂ haccept
                obtain rfl := (Prod.mk.inj h).2
                obtain ⟨text, hopen⟩ := acceptChunk_opened haccept
                exact .inl ⟨bs, text, hopen⟩
              · simp at h

/-! ## Calls of any kind -/

/-- A call on a reader. -/
inductive Call
  | read (n : Nat)
  | close
  deriving DecidableEq, Repr

/-- The reader after these calls, whatever they have been answered. -/
def after : Reader σ → List Call → Reader σ
  | r, [] => r
  | r, .read n :: calls => after (r.read n).2 calls
  | r, .close :: calls => after r.close.2 calls

/-- A property of readers that is kept by everything of which calls are made: handing
out payload, pulling a frame and closing. -/
structure Kept (P : Reader σ → Prop) : Prop where
  deliver {r : Reader σ} : P r → ∀ n, P { r with pending := r.pending.drop n }
  pull {r r' : Reader σ} : P r → r.phase = .reading → r.pull = (.ok (), r') →
    P r' ∧ (r'.phase = .reading ∨ r'.phase = .terminated)
  fails {r r' : Reader σ} {f : Failure} : P r → r.phase = .reading →
    r.pull = (.error f, r') → P (r'.fail f)
  close {r : Reader σ} : P r → P r.close.2

section Kept

variable {P : Reader σ → Prop}

/-- Supplying bytes hands out payload and pulls frames in turn.  The induction is on the
frames that may still be pulled. -/
theorem Kept.supply (hkept : Kept P) (h : P r)
    (hlive : r.phase = .reading ∨ r.phase = .terminated) (k want : Nat) (got : Bytes) :
    P (supply k want got r).2 := by
  induction k generalizing r want got with
  | zero => exact hkept.deliver h want
  | succ k ih =>
      by_cases hstop : want ≤ r.pending.length ∨ r.phase = .terminated
      · rw [supply_at_hand hstop]
        exact hkept.deliver h want
      · obtain ⟨hshort, hgoes⟩ := not_or.1 hstop
        have hphase := hlive.resolve_right hgoes
        have hempty : P { r with pending := [] } := by
          simpa using hkept.deliver h r.pending.length
        cases hpull : Reader.pull { r with pending := [] } with
        | mk answer r' =>
            cases answer with
            | error f =>
                rw [supply_pull_error hphase (Nat.lt_of_not_le hshort) hpull]
                exact hkept.fails hempty hphase hpull
            | ok u =>
                obtain ⟨hnext, hlive'⟩ := hkept.pull hempty hphase hpull
                rw [supply_pull_ok hphase (Nat.lt_of_not_le hshort) hpull]
                exact ih hnext hlive' _ _

theorem Kept.read (hkept : Kept P) (h : P r) (n : Nat) : P (r.read n).2 := by
  unfold Reader.read
  cases hphase : r.phase with
  | reading => exact hkept.supply h (.inl hphase) _ n []
  | terminated => exact hkept.supply h (.inr hphase) _ n []
  | closed | failed => exact h

/-- The run: what any calls make of it. -/
theorem Kept.after (hkept : Kept P) (h : P r) (calls : List Call) : P (r.after calls) := by
  induction calls generalizing r with
  | nil => exact h
  | cons call calls ih =>
      cases call with
      | read n => exact ih (hkept.read h n)
      | close => exact ih (hkept.close h)

end Kept

variable {l : Layout} {opener : Opener σ} {t : σ} {source : Source}

/-- Where calls can have brought a reader that was started on this source. -/
inductive Reached (l : Layout) (opener : Opener σ) (t : σ) (source : Source) :
    Reader σ → Prop
  /-- Nothing has been taken from the source. -/
  | fresh : Reached l opener t source ⟨l, opener, t, source, [], 1, .reading⟩
  /-- At least one chunk has been opened. -/
  | opened {r : Reader σ} {k : Nat} :
      r.layout = l → r.opener = opener → opener.After t (k + 1) r.codec →
      Reached l opener t source r
  /-- A bare length of zero was all there was to take. -/
  | bareEnd {r : Reader σ} :
      l.BareEnd source → r.pending = [] → r.phase = .terminated ∨ r.phase = .closed →
      Reached l opener t source r
  | failed {r : Reader σ} {f : Failure} : r.phase = .failed f → Reached l opener t source r

/-- Payload at hand may be taken away. -/
theorem Reached.of_pending (h : Reached l opener t source r) {pending : Bytes}
    (hpending : pending.length ≤ r.pending.length) :
    Reached l opener t source { r with pending := pending } := by
  cases h with
  | fresh =>
      obtain rfl := List.eq_nil_of_length_eq_zero (Nat.le_zero.1 hpending)
      exact .fresh
  | opened hlayout hopener hafter => exact .opened hlayout hopener hafter
  | bareEnd hbare hnone hphase =>
      rw [hnone] at hpending
      exact .bareEnd hbare (List.eq_nil_of_length_eq_zero (Nat.le_zero.1 hpending)) hphase
  | failed hphase => exact .failed hphase

/-- A reader that is still reading has its layout and its opener. -/
theorem Reached.codec (h : Reached l opener t source r) (hphase : r.phase = .reading) :
    r.layout = l ∧ r.opener = opener ∧ ∃ k, opener.After t k r.codec := by
  cases h with
  | fresh => exact ⟨rfl, rfl, 0, .start⟩
  | opened hlayout hopener hafter => exact ⟨hlayout, hopener, _, hafter⟩
  | bareEnd _ _ hended => simp [hphase] at hended
  | failed hfailed => simp [hphase] at hfailed

/-- The step: what a successful pull makes of it. -/
theorem Reached.pull (hl : l.check = .ok ()) (h : Reached l opener t source r)
    (hphase : r.phase = .reading) (hpull : r.pull = (.ok (), r')) :
    Reached l opener t source r' := by
  obtain ⟨hlayout, hopener, k, hafter⟩ := h.codec hphase
  have hcheck : r.layout.check = .ok () := by rw [hlayout]; exact hl
  rcases pull_opened_or_bare hcheck hpull with ⟨chunk, text, hopen⟩ | ⟨hbare, rest, rfl⟩
  · obtain ⟨hlayout', hopener', -⟩ := (pull_ok hcheck hpull).progress hphase
    rw [hopener] at hopen
    exact .opened (hlayout'.trans hlayout) (hopener'.trans hopener) (.opened hafter hopen)
  · cases h with
    | fresh => exact .bareEnd hbare rfl (.inl rfl)
    | opened _ _ hafter => exact .opened hlayout hopener hafter
    | bareEnd _ _ hended => simp [hphase] at hended
    | failed hfailed => simp [hphase] at hfailed

theorem Reached.close (h : Reached l opener t source r) :
    Reached l opener t source r.close.2 := by
  unfold Reader.close
  cases hphase : r.phase with
  | reading => exact .failed rfl
  | terminated =>
      cases h with
      | fresh => simp at hphase
      | opened hlayout hopener hafter => exact .opened hlayout hopener hafter
      | bareEnd hbare hnone => exact .bareEnd hbare hnone (.inr rfl)
      | failed hfailed => simp [hphase] at hfailed
  | closed => exact h
  | failed f => exact h

/-- So any calls keep it. -/
theorem Reached.kept (hl : l.check = .ok ()) : Kept (Reached l opener t source) where
  deliver h _ := h.of_pending (by simp)
  pull {r r'} h hphase hpull := by
    have hcheck : r.layout.check = .ok () := by
      rw [(h.codec hphase).1]
      exact hl
    have hnext := ((pull_ok hcheck hpull).progress hphase).2.2
    exact ⟨h.pull hl hphase hpull, hnext.symm.imp And.left id⟩
  fails _ _ _ := .failed rfl
  close h := h.close

theorem Reached.read (hl : l.check = .ok ()) (h : Reached l opener t source r) (n : Nat) :
    Reached l opener t source (r.read n).2 :=
  (Reached.kept hl).read h n

theorem Reached.after (hl : l.check = .ok ()) (h : Reached l opener t source r)
    (calls : List Call) : Reached l opener t source (r.after calls) :=
  (Reached.kept hl).after h calls

/-- A stream that is taken to have ended has had a chunk opened, unless it was
nothing but a bare length of zero. -/
theorem Reached.sealed_or_bare (h : Reached l opener t source r)
    (hended : r.isTerminated = true) :
    (∃ k, opener.After t (k + 1) r.codec) ∨ l.BareEnd source := by
  cases h with
  | fresh => simp [isTerminated] at hended
  | opened _ _ hafter => exact .inl ⟨_, hafter⟩
  | bareEnd hbare => exact .inr hbare
  | failed hphase => simp [isTerminated, hphase] at hended

/-- If no chunk is opened and no bare length ends the stream, it does not end. -/
theorem Reached.not_ended (hrejects : opener.Rejects t) (hbare : ¬ l.BareEnd source)
    (h : Reached l opener t source r) : r.isTerminated = false := by
  refine Bool.eq_false_of_not_eq_true fun hended => ?_
  rcases h.sealed_or_bare hended with ⟨k, hafter⟩ | hbare'
  · exact hrejects.not_after k hafter
  · exact hbare hbare'

theorem isTerminated_of_close (h : r.close.1 = .ok ()) : r.isTerminated = true := by
  simp [isTerminated, close_ok_iff.1 h]

/-- After an empty answer to a request for some bytes, closing succeeds. -/
theorem close_of_empty (hl : r.layout.check = .ok ()) {n : Nat} (hn : 0 < n)
    (hempty : (r.read n).1 = .ok []) : (r.read n).2.close.1 = .ok () := by
  obtain ⟨bytes, ending, hyields⟩ := exists_yields r hl
  obtain ⟨-, -, hanswer, hclose⟩ := hyields.read n
  rw [hanswer hn] at hempty
  split at hempty
  · rename_i hbytes
    rcases List.take_eq_nil_iff.1 (Except.ok.inj hempty) with hzero | hnone
    · omega
    · exact (hbytes hnone).elim
  · rename_i hbytes
    rw [hclose (by simpa [not_not.1 hbytes] using hn)]
    cases ending with
    | error f => simp [Except.map] at hempty
    | ok u => rfl

/-- In a sound layout a stream is not taken to have ended before a chunk of it has
been opened, with one exception.  If the opener rejects every chunk, then whatever
the source and whatever calls are made, the stream never ends: the reader does not
say so, no non-empty buffer is answered with nothing, and closing never succeeds.
The exception is a bare length of zero in front of everything, in a layout with
lengths but without numbers: it ends the stream at the first request. -/
theorem end_opened_unless_bare {l : Layout} (hl : l.check = .ok ()) {opener : Opener σ}
    {t : σ} (hrejects : opener.Rejects t) (source : Source) :
    ∃ r, start source opener t l = .ok r ∧
      (¬ l.BareEnd source → ∀ calls,
        (r.after calls).isTerminated = false ∧
          (r.after calls).close.1 ≠ .ok () ∧
            ∀ n, 0 < n → ((r.after calls).read n).1 ≠ .ok []) ∧
      (l.BareEnd source → ∀ n, 0 < n →
        (r.read n).1 = .ok [] ∧ (r.read n).2.isTerminated = true ∧
          (r.read n).2.close.1 = .ok ()) := by
  refine ⟨⟨l, opener, t, source, [], 1, .reading⟩, by simp [start, hl], ?_, ?_⟩
  · intro hbare calls
    have hreached : Reached l opener t source _ := Reached.fresh.after hl calls
    have hopen := hreached.not_ended hrejects hbare
    refine ⟨hopen, fun hclose => ?_, fun n hn hempty => ?_⟩
    · simpa [hopen] using isTerminated_of_close hclose
    · cases hphase : (after _ calls).phase with
      | reading =>
          -- The read itself would have brought the end.
          have hlayout := (hreached.codec hphase).1
          have hclose := close_of_empty (by rw [hlayout]; exact hl) hn hempty
          simpa [(hreached.read hl n).not_ended hrejects hbare]
            using isTerminated_of_close hclose
      | terminated => simp [isTerminated, hphase] at hopen
      | closed | failed => simp [Reader.read, hphase] at hempty
  · intro hbare n hn
    obtain ⟨rest, hpull⟩ :=
      pull_of_bareEnd (r := ⟨l, opener, t, source, [], 1, .reading⟩) hbare
    have hyields := Yields.of_pull (r := ⟨l, opener, t, source, [], 1, .reading⟩)
      hl rfl hpull (.terminated rfl)
    have hbrings := hyields.brings
    have hclose := hbrings.close [] hn (Nat.le_refl 0)
    exact ⟨hbrings.answer [] hn, isTerminated_of_close hclose, hclose⟩

/-- With numbers a source that holds nothing but a length of zero is never taken to
have ended, under an opener that rejects everything. -/
theorem sample_end_opened :
    (Chunk.failingOpener 16 .authenticationFailed).Rejects 0 ∧
      ¬ Layout.standard.BareEnd (.ofBytes [0]) ∧
      ∃ r, start (.ofBytes [0]) (Chunk.failingOpener 16 .authenticationFailed) 0
          Layout.standard = .ok r ∧
        ∀ calls n, 0 < n → ((r.after calls).read n).1 ≠ .ok [] := by
  have hrejects := Chunk.failing_rejects 16 .authenticationFailed
  have hbare : ¬ Layout.standard.BareEnd (.ofBytes [0]) := by
    intro h
    simpa [Layout.standard] using h.counter
  obtain ⟨r, hstart, hsealed, -⟩ :=
    end_opened_unless_bare (l := Layout.standard) rfl hrejects (.ofBytes [0])
  exact ⟨hrejects, hbare, r, hstart, fun calls n hn => (hsealed hbare calls).2.2 n hn⟩

/-- The standard layout without numbers. -/
def unnumberedSample : Layout :=
  { Layout.standard with chunkCounter := false }

/-- Without numbers the bare length zero is the end, though the opener rejects
everything. -/
theorem bare_end_unopened :
    unnumberedSample.check = .ok () ∧
      (Chunk.failingOpener 16 .authenticationFailed).Rejects 0 ∧
      ∃ r, start (.ofBytes [0]) (Chunk.failingOpener 16 .authenticationFailed) 0
          unnumberedSample = .ok r ∧
        (r.read 8).1 = .ok [] ∧ (r.read 8).2.isTerminated = true ∧
          (r.read 8).2.close.1 = .ok () :=
  ⟨rfl, Chunk.failing_rejects 16 .authenticationFailed, _, rfl, rfl, rfl, rfl⟩

end Reader

end SealedStream
