import SealedStream.Key
import SealedStream.Proofs.Reading

/-!
# Readers that are stopped

A reader asks for a buffer only where chunks have a fixed size, and for one of this size.  If
there can be no such buffer the program stops at the first frame, whatever the source holds,
and nothing has been handed out.  Nothing else stops a reader whose opener goes on: not the
numbers on the wire, which are read in a few bytes, nor the chunks behind them, for which
there is a buffer only as they come in.
-/

namespace SealedStream

/-- The opener may fail, but it does not stop the program. -/
def Opener.GoesOn {σ : Type} (o : Opener σ) : Prop :=
  ∀ t chunk, (o.openChunk t chunk).1 ≠ .error .capacityOverflow

/-- The openers of a key go on, in whichever state they are. -/
theorem Key.opener_goesOn (k : Key) (mode : NonceMode) : (k.opener mode).GoesOn := by
  intro t chunk
  cases t with
  | counted s =>
      simp only [opener, Chunk.countedOpener]
      repeat' split
      all_goals simp
  | drawn =>
      simp only [opener, Chunk.drawnOpener, Chunk.openDrawn]
      repeat' split
      all_goals simp

theorem Layout.check_ne_stop (l : Layout) : l.check ≠ .error .capacityOverflow := by
  unfold check
  repeat' split
  all_goals simp

/-! ## Numbers -/

/-- Reading a varint takes one byte at a time. -/
theorem Varint.fromSource_ne_stop (k : Nat) (p : Partial) (s : Source) :
    (fromSource k p s).1 ≠ .error .capacityOverflow := by
  induction k generalizing p s with
  | zero => simp [fromSource]
  | succ k ih =>
      unfold fromSource
      split
      · simp
      · split <;> simp
      · split
        · exact ih _ _
        · simp
        · simp

namespace IntForm

theorem fixedFromSource_ne_stop (width : Nat) (s : Source) :
    (fixedFromSource width s).1 ≠ .error .capacityOverflow := by
  unfold fixedFromSource
  split
  · simp
  · split
    · simp
    · split <;> simp

theorem fromSource_ne_stop (form : IntForm) (s : Source) :
    (form.fromSource s).1 ≠ .error .capacityOverflow := by
  cases form with
  | varint => exact Varint.fromSource_ne_stop _ _ _
  | fixed1 | fixed2 | fixed4 | fixed8 => exact fixedFromSource_ne_stop _ _

theorem decode_ne_stop (form : IntForm) (bs : Bytes) :
    form.decode bs ≠ .error .capacityOverflow := by
  unfold decode
  split <;> simp

end IntForm

namespace Reader

variable {σ : Type} {r : Reader σ} {bytes : Bytes} {ending : Except Failure Unit}

/-! ## Frames -/

theorem fillBuffer_ne_stop (r : Reader σ) : r.fillBuffer.1 ≠ .error .capacityOverflow := by
  unfold fillBuffer
  split <;> simp

theorem chunkOfLength_ne_stop (r : Reader σ) (declared : Nat) :
    (r.chunkOfLength declared).1 ≠ .error .capacityOverflow := by
  unfold chunkOfLength
  split
  · simp
  · split <;> simp

theorem lengthFrame_ne_stop (r : Reader σ) (form : IntForm) :
    (r.lengthFrame form).1 ≠ .error .capacityOverflow := by
  unfold lengthFrame
  have hnumber := form.fromSource_ne_stop r.source
  split
  · rename_i f source hread
    rw [hread] at hnumber
    simpa using hnumber
  · simp
  · split
    · simp
    · split
      · simp
      · exact chunkOfLength_ne_stop _ _

/-- With room for a full chunk, where chunks have a fixed size, taking a frame does not stop
the program. -/
theorem nextFrame_ne_stop
    (hroom : r.layout.length? = none → r.layout.Allocatable r.opener.overhead) :
    r.nextFrame.1 ≠ .error .capacityOverflow := by
  unfold nextFrame
  cases hlength : r.layout.length? with
  | none =>
      simp only [fixedFrame, hroom hlength, if_true]
      exact r.fillBuffer_ne_stop
  | some form => exact r.lengthFrame_ne_stop form

/-! ## Chunks -/

theorem acceptNumbered_ne_stop (r : Reader σ) (form : IntForm) (text : Bytes) :
    (r.acceptNumbered form text).1 ≠ .error .capacityOverflow := by
  unfold acceptNumbered
  have hnumber := form.decode_ne_stop text
  split
  · rename_i f hdecode
    rw [hdecode] at hnumber
    simpa using hnumber
  · split
    · split <;> simp
    · split <;> simp

theorem acceptChunk_ne_stop (hopener : r.opener.GoesOn) (chunk : Bytes) :
    (r.acceptChunk chunk).1 ≠ .error .capacityOverflow := by
  unfold acceptChunk
  have hopens := hopener r.codec chunk
  split
  · rename_i f codec hopen
    rw [hopen] at hopens
    simpa using hopens
  · dsimp only
    split
    · simp
    · exact acceptNumbered_ne_stop _ _ _

/-- A pull stops the program only where there can be no buffer for a full chunk. -/
theorem pull_ne_stop (hl : r.layout.check = .ok ()) (hopener : r.opener.GoesOn)
    (hroom : r.layout.length? = none → r.layout.Allocatable r.opener.overhead) :
    r.pull.1 ≠ .error .capacityOverflow := by
  have htaken := nextFrame_ne_stop hroom
  unfold pull
  rcases hframe : r.nextFrame with ⟨f | frame, r'⟩
  · rw [hframe] at htaken
    simpa using htaken
  · obtain ⟨source, rfl, -⟩ := nextFrame_ok hl hframe
    have haccepted (bs : Bytes) :=
      acceptChunk_ne_stop (r := { r with source := source }) hopener bs
    cases frame with
    | endOfInput => simp
    | terminator => simp
    | chunk bs => exact haccepted bs
    | lastChunk bs =>
        dsimp only
        split
        · simp
        · rename_i f r'' haccept
          have hanswer := haccepted bs
          rw [haccept] at hanswer
          simpa using hanswer

/-! ## Streams -/

/-- With room for a full chunk a reader does not come to an end by being stopped.  The
induction is on what it yields; the opener and the layout stay the same as long as it reads. -/
theorem Yields.ne_stop (hl : r.layout.check = .ok ()) (hopener : r.opener.GoesOn)
    (hroom : r.layout.length? = none → r.layout.Allocatable r.opener.overhead)
    (h : r.Yields bytes ending) (hphase : r.phase ≠ .failed .capacityOverflow) :
    ending ≠ .error .capacityOverflow := by
  induction h with
  | terminated => simp
  | closed => simp
  | failed hfailed =>
      rintro ⟨⟩
      exact hphase hfailed
  | @cut r r' f _ hpull =>
      have hgoes := pull_ne_stop (r := { r with pending := [] }) hl hopener hroom
      rw [hpull] at hgoes
      simpa using hgoes
  | @more r r' bytes ending hreading hpull hnext _ ih =>
      obtain ⟨hlayout, hsame, -⟩ :=
        (pull_ok (r := { r with pending := [] }) hl hpull).progress hreading
      apply ih
      · rw [hlayout]
        exact hl
      · rw [hsame]
        exact hopener
      · rw [hlayout, hsame]
        exact hroom
      · rcases hnext with hend | ⟨hgoing, -⟩
        · simp [hend]
        · simp [hgoing]

/-- A reader that is stopped has handed out nothing, and its chunks have a fixed size for which
there can be no buffer. -/
theorem Yields.of_stop (hl : r.layout.check = .ok ()) (hopener : r.opener.GoesOn)
    (h : r.Yields bytes (.error .capacityOverflow)) (hphase : r.phase = .reading)
    (hpending : r.pending = []) :
    bytes = [] ∧ r.layout.length? = none ∧ ¬ r.layout.Allocatable r.opener.overhead := by
  have hroom : ¬ (r.layout.length? = none → r.layout.Allocatable r.opener.overhead) := fun hroom =>
    h.ne_stop hl hopener hroom (by simp [hphase]) rfl
  obtain ⟨hlength, hlarge⟩ := Classical.not_imp.1 hroom
  refine ⟨?_, hlength, hlarge⟩
  have hpull := pull_unallocatable (r := { r with pending := [] }) hlength hlarge
  cases h with
  | failed hfailed => simp [hphase] at hfailed
  | cut => exact hpending
  | more _ hgoes => simp [hpull] at hgoes

end Reader

end SealedStream
