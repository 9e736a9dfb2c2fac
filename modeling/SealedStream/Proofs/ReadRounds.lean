import SealedStream.Proofs.ReaderLife
import SealedStream.Proofs.Slicing
import SealedStream.Proofs.Stopping

/-!
# The rounds of a read

A read goes round a loop while there is room in its buffer.  A round hands out what is at
hand, or takes the next frame where nothing is.  A frame may bring no payload, and any
number of such frames may come one after the other, so that the loop ends does not hang on
what it hands out: a frame after which the reader still reads has taken a byte from the
source.

`Reader.Rounds` and `Reader.Stops` say what the loop does with no bound on its rounds.  The
bounds with which the definitions cut off their recursions are never what ends one of them.

All this is said of full chunks that can be held in memory.  Of larger ones not even the
first is read, and the size of one may have left nothing in its machine word.
-/

namespace SealedStream

/-- The tenth byte always ends a varint, so with a larger bound nothing more is read. -/
theorem Varint.fromSource_bound {j k : Nat} {p : Partial} {s : Source}
    (hopen : p.count < maxWidth) (hj : maxWidth ≤ p.count + j) (hk : maxWidth ≤ p.count + k) :
    fromSource j p s = fromSource k p s := by
  induction j generalizing k p s with
  | zero => omega
  | succ j ih =>
      obtain ⟨k, rfl⟩ := Nat.exists_eq_succ_of_ne_zero (show k ≠ 0 by omega)
      unfold fromSource
      rcases s.gather 1 with ⟨e | bs, rest⟩
      · rfl
      · cases bs with
        | nil => rfl
        | cons b bs =>
            dsimp only
            cases hpush : p.push b with
            | done value => rfl
            | malformed => rfl
            | more q =>
                obtain ⟨hcount, hopen'⟩ := push_eq_more hpush
                exact ih hopen' (by omega) (by omega)

namespace Reader

variable {σ : Type} {l : Layout} {r r' u : Reader σ} {k want m : Nat} {got out : Bytes}

/-! ## The loop -/

/-- So many rounds lead from a reader that has handed out `got`, and has room for `want`
bytes more, to a reader that has handed out `out` and has room for `m`. -/
inductive Rounds : Nat → Reader σ → Nat → Bytes → Reader σ → Nat → Bytes → Prop
  | none (r : Reader σ) (want : Nat) (got : Bytes) : Rounds 0 r want got r want got
  /-- What is at hand is handed out, as much of it as there is room for. -/
  | hand {k : Nat} {r u : Reader σ} {want m : Nat} {got out : Bytes} :
      0 < want → r.pending ≠ [] →
      Rounds k { r with pending := r.pending.drop want } (want - r.pending.length)
        (got ++ r.pending.take want) u m out →
      Rounds (k + 1) r want got u m out
  /-- Nothing is at hand, and the next frame is taken. -/
  | pull {k : Nat} {r r' u : Reader σ} {want m : Nat} {got out : Bytes} :
      0 < want → r.pending = [] → r.phase = .reading → r.pull = (.ok (), r') →
      Rounds k r' want got u m out → Rounds (k + 1) r want got u m out

/-- No further round is gone: this is the answer, and this is how the reader is left. -/
inductive Stops (u : Reader σ) : Nat → Bytes → Except Failure Bytes → Reader σ → Prop
  /-- The buffer is full. -/
  | full {out : Bytes} : Stops u 0 out (.ok out) u
  /-- The stream has ended, and nothing is at hand. -/
  | ended {m : Nat} {out : Bytes} :
      u.pending = [] → u.phase = .terminated → Stops u m out (.ok out) u
  /-- The next frame is a failure, which is reported if nothing came before it. -/
  | fails {m : Nat} {out : Bytes} {f : Failure} {u' : Reader σ} :
      0 < m → u.pending = [] → u.phase = .reading → u.pull = (.error f, u') →
      Stops u m out (if out.isEmpty then .error f else .ok out) (u'.fail f)

/-- The reader when the loop has dealt with the next frame. -/
def advance (u : Reader σ) : Reader σ :=
  match u.pull with
  | (.ok (), u') => u'
  | (.error f, u') => u'.fail f

/-- A frame ends the reading, or has taken at least one byte from the source. -/
theorem advance_progress (hl : u.layout.check = .ok ()) (hphase : u.phase = .reading) :
    u.advance.phase ≠ .reading ∨ u.advance.source.left < u.source.left := by
  unfold advance
  rcases hpull : u.pull with ⟨f | ⟨⟩, u'⟩
  · exact .inl (by simp [fail])
  · rcases ((pull_ok hl hpull).progress hphase).2.2 with hend | ⟨-, hleft⟩
    · exact .inl (by simp [hend])
    · exact .inr hleft

/-! ## Frames on the way -/

/-- No round takes a reader at rest back to reading. -/
theorem Rounds.phase_reading (h : Rounds k r want got u m out) (hphase : u.phase = .reading) :
    r.phase = .reading := by
  induction h with
  | none => exact hphase
  | hand _ _ _ ih => exact ih hphase
  | pull _ _ hreading _ _ _ => exact hreading

/-- The rounds leave the layout and the opener as they are, as long as the reader reads. -/
theorem Rounds.codec (h : Rounds k r want got u m out) (hl : r.layout.check = .ok ())
    (hphase : u.phase = .reading) : u.layout = r.layout ∧ u.opener = r.opener := by
  induction h with
  | none => exact ⟨rfl, rfl⟩
  | hand _ _ _ ih => exact ih hl hphase
  | @pull k r r' u want m got out _ _ hreading hpull hrest ih =>
      obtain ⟨hlayout, hopener, -⟩ := (pull_ok hl hpull).progress hreading
      -- The next round starts from a reader with the same layout.
      obtain ⟨hlayout', hopener'⟩ := ih (hlayout ▸ hl) hphase
      exact ⟨hlayout'.trans hlayout, hopener'.trans hopener⟩

/-! ## A bound on the rounds -/

/-- A reader at the end of its stream, or one that goes on reading in a sound layout. -/
def Running (r : Reader σ) : Prop :=
  r.phase = .terminated ∨ r.phase = .reading ∧ r.layout.check = .ok ()

theorem Running.pull (h : Running r) (hphase : r.phase = .reading)
    (hpull : r.pull = (.ok (), r')) :
    Running r' ∧ (r'.phase = .reading → r'.source.left < r.source.left) := by
  have hl := (h.resolve_left (by simp [hphase])).2
  obtain ⟨hlayout, -, hend | ⟨hreading, hless⟩⟩ := (pull_ok hl hpull).progress hphase
  · exact ⟨.inl hend, fun hreading => by simp [hend] at hreading⟩
  · exact ⟨.inr ⟨hreading, hlayout ▸ hl⟩, fun _ => hless⟩

/-- The rounds still to go are no more than this: two for every byte left in the source and
for the frame that ends the reading, and one for what is at hand. -/
def roundsLeft (r : Reader σ) (want : Nat) : Nat :=
  (if r.phase = .reading then 2 * (r.source.left + 1) else 0) +
    if r.pending = [] ∨ want = 0 then 0 else 1

/-- Every round leaves one round less to go. -/
theorem Rounds.bounded (h : Running r) (hrounds : Rounds k r want got u m out) :
    Running u ∧ k + u.roundsLeft m ≤ r.roundsLeft want := by
  induction hrounds with
  | none r want got => exact ⟨h, by omega⟩
  | @hand k r u want m got out hwant hpending _ ih =>
      obtain ⟨hrunning, hfewer⟩ := ih h
      refine ⟨hrunning, ?_⟩
      -- After this round nothing is at hand, or the buffer is full.
      have hdone : r.pending.drop want = [] ∨ want - r.pending.length = 0 := by
        rw [List.drop_eq_nil_iff]
        omega
      have hmore : ¬ (r.pending = [] ∨ want = 0) := by
        simp [hpending, hwant.ne']
      simp only [roundsLeft, if_pos hdone] at hfewer
      simp only [roundsLeft, if_neg hmore]
      omega
  | @pull k r r' u want m got out hwant hpending hphase hpull _ ih =>
      obtain ⟨hnext, hless⟩ := h.pull hphase hpull
      obtain ⟨hrunning, hfewer⟩ := ih hnext
      refine ⟨hrunning, ?_⟩
      have hhand : (if r'.pending = [] ∨ want = 0 then 0 else 1) ≤ 1 := by
        split <;> omega
      have hframe : (if r'.phase = .reading then 2 * (r'.source.left + 1) else 0) + 2 ≤
          2 * (r.source.left + 1) := by
        split
        · rename_i hreading
          have := hless hreading
          omega
        · omega
      simp only [roundsLeft] at hfewer
      simp only [roundsLeft, if_pos hphase, hpending, true_or, if_true]
      omega

theorem roundsLeft_le (r : Reader σ) (want : Nat) :
    r.roundsLeft want ≤ 2 * r.source.left + 3 := by
  unfold roundsLeft
  split <;> split <;> omega

/-- A frame that leaves the reader as it was is taken over and over again. -/
theorem Rounds.endless (hwant : 0 < want) (hpending : r.pending = []) (hphase : r.phase = .reading)
    (hpull : r.pull = (.ok (), r)) (k : Nat) : Rounds k r want got r want got := by
  induction k with
  | zero => exact .none r want got
  | succ k ih => exact .pull hwant hpending hphase hpull ih

/-! ## What a read does -/

/-- Handing out what is at hand is a round, or nothing at all. -/
theorem Rounds.of_hand (r : Reader σ) (want : Nat) (got : Bytes)
    (h : Rounds k { r with pending := r.pending.drop want } (want - r.pending.length)
      (got ++ r.pending.take want) u m out) : ∃ j, Rounds j r want got u m out := by
  by_cases hround : 0 < want ∧ r.pending ≠ []
  · exact ⟨k + 1, .hand hround.1 hround.2 h⟩
  · refine ⟨k, ?_⟩
    rcases r with ⟨layout, opener, codec, source, pending, expected, phase⟩
    by_cases hpending : pending = []
    · simpa [hpending] using h
    · obtain rfl : want = 0 := by
        by_contra hwant
        exact hround ⟨Nat.pos_of_ne_zero hwant, hpending⟩
      simpa using h

/-- With too little at hand all of it is handed out, and then a frame is taken. -/
theorem Rounds.of_short (hshort : r.pending.length < want)
    (h : Rounds k { r with pending := [] } (want - r.pending.length) (got ++ r.pending) u m out) :
    ∃ j, Rounds j r want got u m out := by
  refine Rounds.of_hand (k := k) r want got ?_
  rw [List.drop_eq_nil_of_le hshort.le, List.take_of_length_le hshort.le]
  exact h

/-- With enough at hand, or at the end of the stream, the buffer is filled from what is at
hand, as far as that goes. -/
theorem rounds_at_hand (want : Nat) (h : want ≤ r.pending.length ∨ r.phase = .terminated)
    (got : Bytes) :
    ∃ j m, Rounds j r want got { r with pending := r.pending.drop want } m
        (got ++ r.pending.take want) ∧
      Stops { r with pending := r.pending.drop want } m (got ++ r.pending.take want)
        (.ok (got ++ r.pending.take want)) { r with pending := r.pending.drop want } := by
  obtain ⟨j, hrounds⟩ := Rounds.of_hand r want got (.none { r with pending := r.pending.drop want }
    (want - r.pending.length) (got ++ r.pending.take want))
  refine ⟨j, _, hrounds, ?_⟩
  by_cases hfull : want ≤ r.pending.length
  · rw [Nat.sub_eq_zero_of_le hfull]
    exact .full
  · exact .ended (List.drop_eq_nil_of_le (by omega)) (h.resolve_left hfull)

/-- Supplying bytes is a run of rounds that ends because the buffer is full, the stream has
ended or a frame is a failure; it is never cut short.  The induction is on the bound on the
frames, which is more than the bytes left in the source. -/
theorem Running.supply (h : Running r) (hk : r.phase = .reading → r.source.left < k)
    (want : Nat) (got : Bytes) :
    ∃ j u m out, Rounds j r want got u m out ∧
      Stops u m out (supply k want got r).1 (supply k want got r).2 := by
  induction k generalizing r want got with
  | zero =>
      have hended := h.resolve_right fun hreads => Nat.not_lt_zero _ (hk hreads.1)
      obtain ⟨j, m, hrounds, hstops⟩ := rounds_at_hand want (.inr hended) got
      exact ⟨j, _, m, _, hrounds, by rwa [supply_at_hand (.inr hended)]⟩
  | succ k ih =>
      by_cases hhand : want ≤ r.pending.length ∨ r.phase = .terminated
      · obtain ⟨j, m, hrounds, hstops⟩ := rounds_at_hand want hhand got
        exact ⟨j, _, m, _, hrounds, by rwa [supply_at_hand hhand]⟩
      · obtain ⟨hlong, hgoes⟩ := not_or.1 hhand
        have hshort : r.pending.length < want := Nat.lt_of_not_le hlong
        have hphase := (h.resolve_left hgoes).1
        have hroom : 0 < want - r.pending.length := by omega
        rcases hpull : Reader.pull { r with pending := [] } with ⟨f | ⟨⟩, r'⟩
        · rw [supply_pull_error hphase hshort hpull]
          obtain ⟨j, hrounds⟩ := Rounds.of_short hshort (.none _ _ (got ++ r.pending))
          exact ⟨j, _, _, _, hrounds, .fails hroom rfl hphase hpull⟩
        · obtain ⟨hnext, hless⟩ := Running.pull (r := { r with pending := [] }) h hphase hpull
          have hk' : r'.phase = .reading → r'.source.left < k := fun hreading =>
            Nat.lt_of_lt_of_le (hless hreading) (Nat.lt_succ_iff.1 (hk hphase))
          obtain ⟨j, u, m, out, hrounds, hstops⟩ :=
            ih hnext hk' (want - r.pending.length) (got ++ r.pending)
          obtain ⟨i, hall⟩ := Rounds.of_short hshort (.pull hroom rfl hphase hpull hrounds)
          rw [supply_pull_ok hphase hshort hpull]
          exact ⟨i, u, m, out, hall, hstops⟩

/-- A read of a reader that has not come to rest is such a run. -/
theorem Running.read (h : Running r) (n : Nat) :
    ∃ j u m out, Rounds j r n [] u m out ∧ Stops u m out (r.read n).1 (r.read n).2 := by
  have hread : r.read n = Reader.supply (weight r.source) n [] r := by
    rcases h with hphase | ⟨hphase, -⟩ <;> simp [Reader.read, hphase]
  rw [hread]
  exact h.supply (fun _ => by unfold weight; omega) n []

/-- Reading ends, whatever the source and the opener do and whatever calls have been made, if
full chunks of a fixed size can be held in memory.  A read of a reader that has not come to
rest is a run of rounds, no more of them than the bytes left in the source allow; for each
frame that is taken on the way there is memory, and it ends the reading or has taken a byte
from the source; and the run stops, with what the read answers.  Any other reader refuses the
read.  Reads in non-empty buffers, however large each of them is, come to the end of the
stream or a failure as soon as there are more of them than bytes to hand out.  Nor does a
length in the source cut a read off: ten bytes end it. -/
theorem reading_ends {opener : Opener σ} {t : σ} {source : Source} {v : Reader σ}
    (hsize : l.lengthPrefix = false →
      l.bufferSize + opener.overhead < Layout.allocationBound)
    (h : startInWords source opener t l = .ok r) (requests : List Request)
    (hv : r.serveAll requests = v) :
    (∀ n, (v.phase = .reading ∨ v.phase = .terminated →
        (∀ k u m out, Rounds k v n [] u m out → k ≤ 2 * v.source.left + 3 ∧
          (u.phase = .reading → u.nextFrame.1 ≠ .error .capacityOverflow ∧
            (u.advance.phase ≠ .reading ∨ u.advance.source.left < u.source.left))) ∧
        ∃ k u m out, Rounds k v n [] u m out ∧ Stops u m out (v.read n).1 (v.read n).2) ∧
      (v.phase ≠ .reading → v.phase ≠ .terminated → ∃ f, v.read n = (.error f, v))) ∧
    (∃ bytes ending, ∀ ns, (∀ n ∈ ns, 0 < n) → bytes.length < ns.length →
      v.readUntil ns = (bytes, some ending)) ∧
    ∀ k s, Varint.maxWidth ≤ k →
      Varint.fromSource k .start s = Varint.fromSource Varint.maxWidth .start s := by
  rw [startInWords_eq_start
    fun hfixed => Nat.lt_of_lt_of_le (hsize hfixed) Layout.allocationBound_le] at h
  obtain ⟨hl, rfl⟩ := start_ok h
  have hreached : Reached l opener t source v := by
    rw [← hv, serveAll_eq_after]
    exact Reached.fresh.after hl _
  refine ⟨fun n => ⟨fun hlive => ?_, fun hreading hended => ?_⟩, ?_, fun k s hk => ?_⟩
  · have hrunning : Running v :=
      hlive.symm.imp id fun hphase => ⟨hphase, (hreached.codec hphase).1 ▸ hl⟩
    refine ⟨fun k u m out hrounds => ?_, hrunning.read n⟩
    obtain ⟨hrunning', hfewer⟩ := hrounds.bounded hrunning
    have hbound := v.roundsLeft_le n
    refine ⟨by omega, fun hphase => ⟨?_, ?_⟩⟩
    · obtain ⟨rfl, rfl, -⟩ := hreached.codec (hrounds.phase_reading hphase)
      obtain ⟨hlayout, hopener⟩ := hrounds.codec hl hphase
      refine nextFrame_ne_stop fun hfixed => ?_
      rw [hlayout] at hfixed ⊢
      rw [hopener]
      exact Layout.allocatable_of_lt (hsize (by simpa [Layout.length?] using hfixed))
    · exact advance_progress (hrunning'.resolve_left (by simp [hphase])).2 hphase
  · cases hphase : v.phase with
    | reading => exact (hreading hphase).elim
    | terminated => exact (hended hphase).elim
    | closed => exact ⟨_, (stuck_of_closed hphase).read n⟩
    | failed f => exact ⟨f, (stuck_of_failed hphase).read n⟩
  · obtain ⟨bytes, ending, hyields⟩ := hreached.yields hl
    exact ⟨bytes, ending, fun ns hns hmany => hyields.readUntil_reached hns hmany⟩
  · exact Varint.fromSource_bound (by decide) (by simpa [Varint.Partial.start] using hk) (by decide)

/-- Three chunks without payload, an interruption between them and an end behind them: the
read takes them all and finds the stream cut. -/
theorem blank_chunks_read :
    ∃ r, startInWords
        [.data [1, 255, 1, 255], .failure ⟨.interrupted, none⟩, .data [1, 255], .ended]
        (Chunk.tagOpener [255] 1) () unnumberedSample = .ok r ∧
      (∃ k u m out, Rounds k r 4 [] u m out ∧ k ≤ 15 ∧
        Stops u m out (.error .streamTruncated) (r.read 4).2) ∧
      ∃ bytes ending, ∀ ns, (∀ n ∈ ns, 0 < n) → bytes.length < ns.length →
        r.readUntil ns = (bytes, some ending) := by
  have hstart : startInWords
      [.data [1, 255, 1, 255], .failure ⟨.interrupted, none⟩, .data [1, 255], .ended]
      (Chunk.tagOpener [255] 1) () unnumberedSample = .ok _ := rfl
  obtain ⟨hreads, hdrains, -⟩ := reading_ends (fun hfixed => absurd hfixed (by decide)) hstart
    [] rfl
  obtain ⟨hbound, k, u, m, out, hrounds, hstops⟩ := (hreads 4).1 (.inl rfl)
  exact ⟨_, hstart, ⟨k, u, m, out, hrounds, (hbound k u m out hrounds).1, hstops⟩, hdrains⟩

/-- Chunks of a fixed size that goes past what can be held in memory: the first frame stops
the program. -/
def oversizedSample : Layout :=
  { Layout.standard with
    lengthPrefix := false
    chunkCounter := false
    bufferSize := 0x8000000000000000 }

/-- Nor do all reads end without that room.  For a larger chunk the program stops, at the end
of input too.  And where nothing is left of the size in its machine word, an opener that takes
nothing for an empty payload lets the read go on for ever. -/
theorem oversized_chunks_unread :
    (∃ r, startInWords (.ofBytes []) Chunk.blankOpener () oversizedSample = .ok r ∧
      (r.read 1).1 = .error .capacityOverflow) ∧
    ∃ r, startInWords (.ofBytes [97]) ⟨1, fun s _ => (.ok [], s)⟩ ()
        (oversizedSample.withBufferSize (intBound - 1)) = .ok r ∧
      ∀ k, Rounds k r 1 [] r 1 [] := by
  refine ⟨⟨_, rfl, by decide⟩, _, rfl, fun k => ?_⟩
  exact Rounds.endless Nat.one_pos rfl rfl rfl k

end Reader

end SealedStream
