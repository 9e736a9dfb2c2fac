import SealedStream.Chunk.Plain
import SealedStream.Proofs.Closing
import SealedStream.Proofs.Recording

/-!
# A writer puts out the reference stream

Whatever calls a writer has taken, its sink holds the frames of the blocks that
were already full and nothing of the one that is not; and when it has been
closed, its sink holds the reference stream.  Nothing is asked of the sealer and
of the sink but that no write and no close has failed.

The reference looks at the bytes written and not at the calls, so with a buffer
neither the sizes of the writes nor a flush in between can be told from the
stream.
-/

namespace SealedStream

namespace Writer

variable {σ : Type}

/-- A writer that is started and takes the calls, no write among them failing,
stands as `w`. -/
def Reaches (sealer : Sealer σ) (codec : σ) (l : Layout) (sink : Sink) (calls : List Call)
    (w : Writer σ) : Prop :=
  ∃ w₀, start sink sealer codec l = .ok w₀ ∧ w₀.performAll calls = some w

variable {sealer : Sealer σ} {codec : σ} {l : Layout} {sink : Sink} {calls : List Call}
  {w : Writer σ}

/-- The same calls on a writer whose sealer keeps a record lead to a writer that
stands where the reference says. -/
theorem Reaches.recorded (hsink : sink.bytes = []) (h : Reaches sealer codec l sink calls w) :
    l.check = .ok () ∧ ∃ v, Mirrors w v ∧
      Ready l sealer codec (l.divide (written calls)).1 (l.divide (written calls)).2 v := by
  obtain ⟨w₀, hstart, hcalls⟩ := h
  obtain ⟨hsound, -⟩ := start_ok hstart
  obtain ⟨v₀, hstart₀, hmirror₀⟩ := start_mirrors hstart
  obtain ⟨v, hcalls', hmirror⟩ := hmirror₀.performAll hcalls
  exact ⟨hsound, v, hmirror, performAll_divides hsound (start_ready hsink hstart₀) hcalls'⟩

/-- Before it is closed a writer has put out the blocks that are full. -/
theorem Reaches.opening_eq (hsink : sink.bytes = [])
    (h : Reaches sealer codec l sink calls w) :
    l.opening sealer codec (written calls) = some w.sink.bytes := by
  obtain ⟨-, v, ⟨log, rfl⟩, hready⟩ := h.recorded hsink
  have hbytes := hready.sink_eq
  rw [Layout.opening, ← hready.texts, hready.seals.sealAll]
  simp [hbytes, Layout.frames, List.flatMap_map]

/-- A writer that has been closed has put out the whole stream. -/
theorem Reaches.stream_eq (hsink : sink.bytes = [])
    (h : Reaches sealer codec l sink calls w) {final : Writer σ}
    (hclose : w.close = (.ok (), final)) :
    l.stream sealer codec (written calls) = some final.sink.bytes := by
  obtain ⟨hsound, v, hmirror, hready⟩ := h.recorded hsink
  obtain ⟨hanswer, hfinal⟩ := hmirror.close
  rw [hclose] at hanswer hfinal
  obtain ⟨w', hterminate, hcodec, hbytes⟩ := close_ok (Prod.ext hanswer rfl)
  obtain ⟨hseals, htexts, hsink'⟩ := hready.terminate_stream hsound hterminate
  -- The record names the chunks; the sinks of the two writers are the same.
  have hsame : v.close.2.sink = final.sink := by
    obtain ⟨log, hlog⟩ := hfinal
    rw [hlog]
  rw [Layout.stream, ← htexts, hseals.sealAll, ← hsame, hbytes, hsink']
  simp [Layout.frames, List.flatMap_map]

/-- The sink of a writer holds the frames of the blocks that are full, and after
a successful close the reference stream.  With a buffer every other run that
writes the same bytes, however they are split and wherever it flushes, ends with
the same stream. -/
theorem puts_out_reference (hsink : sink.bytes = [])
    (h : Reaches sealer codec l sink calls w) :
    l.opening sealer codec (written calls) = some w.sink.bytes ∧
      ∀ final, w.close = (.ok (), final) →
        l.stream sealer codec (written calls) = some final.sink.bytes ∧
          (l.bufferSize ≠ 0 → ∀ sink₂ calls₂ w₂ final₂, sink₂.bytes = [] →
            Reaches sealer codec l sink₂ calls₂ w₂ → w₂.close = (.ok (), final₂) →
            (written calls₂).flatten = (written calls).flatten →
              final₂.sink.bytes = final.sink.bytes) := by
  refine ⟨h.opening_eq hsink, fun final hclose => ?_⟩
  have hstream := h.stream_eq hsink hclose
  refine ⟨hstream, ?_⟩
  intro hbuffer sink₂ calls₂ w₂ final₂ hsink₂ h₂ hclose₂ hwritten
  have hstream₂ := h₂.stream_eq hsink₂ hclose₂
  rw [Layout.stream_congr hbuffer hwritten, hstream] at hstream₂
  exact (Option.some.inj hstream₂).symm

/-- Two payload bytes to a chunk, behind a number of one byte. -/
def sampleLayout : Layout :=
  { Layout.standard with counterForm := .fixed1, bufferSize := 3 }

/-- Five bytes written in three parts, with an empty write and two flushes. -/
def sampleCalls : List Call :=
  [.write [97], .flush, .write [], .write [98, 99], .flush, .write [100, 101]]

/-- The sample calls and the same bytes in one write. -/
theorem sample_reference :
    ∃ w final w₂ final₂,
      Reaches (Chunk.tagSealer [255] 1) () sampleLayout .perfect sampleCalls w ∧
        w.close = (.ok (), final) ∧
      Reaches (Chunk.tagSealer [255] 1) () sampleLayout .perfect
        [.write [97, 98, 99, 100, 101]] w₂ ∧ w₂.close = (.ok (), final₂) ∧
      sampleLayout.opening (Chunk.tagSealer [255] 1) () (written sampleCalls) =
        some [4, 1, 97, 98, 255, 4, 2, 99, 100, 255] ∧
      sampleLayout.stream (Chunk.tagSealer [255] 1) () (written sampleCalls) =
        some [4, 1, 97, 98, 255, 4, 2, 99, 100, 255, 3, 3, 101, 255, 2, 0, 255] ∧
      final₂.sink.bytes = final.sink.bytes := by
  have hrun : Reaches (Chunk.tagSealer [255] 1) () sampleLayout .perfect sampleCalls _ :=
    ⟨_, rfl, rfl⟩
  have hrun₂ : Reaches (Chunk.tagSealer [255] 1) () sampleLayout .perfect
      [.write [97, 98, 99, 100, 101]] _ := ⟨_, rfl, rfl⟩
  obtain ⟨hopening, hclosed⟩ := puts_out_reference Sink.bytes_perfect hrun
  obtain ⟨hstream, hsplit⟩ := hclosed _ rfl
  exact ⟨_, _, _, _, hrun, rfl, hrun₂, rfl, hopening, hstream,
    hsplit (by decide) _ _ _ _ Sink.bytes_perfect hrun₂ rfl rfl⟩

end Writer

end SealedStream
