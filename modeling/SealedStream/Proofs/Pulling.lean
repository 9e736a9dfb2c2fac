import SealedStream.Proofs.Flow
import SealedStream.Proofs.Frames
import SealedStream.Reader

/-!
# One frame at a time

What a reader does with the next frame, from two sides.

`Reader.Pulled` lists everything that a successful pull can have done, whatever
the source: five cases, each with what the opener has answered and what the
number of the chunk was.  Facts that hold of any source go through it.

The other lemmas say what a pull does when the frame of a known chunk, or the
end of a known stream, stands at the front of a source that flows.
-/

namespace SealedStream

namespace Reader

variable {σ : Type}

/-! ## Any source -/

/-- What is known of a frame that has been taken, with `source` left behind it. -/
def Taken (r : Reader σ) (source : Source) : Frame → Prop
  | .chunk bs =>
      source.left < r.source.left ∧
        (r.layout.length? = none → bs.length = r.fullChunk)
  | .lastChunk bs => r.layout.length? = none ∧ bs.length < r.fullChunk
  | .terminator => r.layout.length? ≠ none ∧ r.layout.counter? = none
  | .endOfInput => True

/-- A frame of a fixed-size stream is what fills the buffer, if there can be one. -/
theorem fixedFrame_eq_ok {r r' : Reader σ} {frame : Frame} :
    r.fixedFrame = (.ok frame, r') ↔
      r.layout.Allocatable r.opener.overhead ∧ r.fillBuffer = (.ok frame, r') := by
  unfold fixedFrame
  split
  · rename_i hroom
    simp [hroom]
  · rename_i hroom
    simp [hroom]

theorem fixedFrame_ok {r r' : Reader σ} {frame : Frame} (hl : r.layout.check = .ok ())
    (hlength : r.layout.length? = none) (h : r.fixedFrame = (.ok frame, r')) :
    ∃ source : Source, r' = { r with source := source } ∧ r.Taken source frame := by
  have hbuffer := Layout.bufferSize_ne_zero hl hlength
  have hfull : 0 < r.fullChunk := by
    unfold fullChunk
    omega
  replace h := (fixedFrame_eq_ok.1 h).2
  unfold fillBuffer at h
  cases hgather : r.source.gather r.fullChunk with
  | mk answer source =>
      cases answer with
      | error e => simp [hgather] at h
      | ok bs =>
          obtain ⟨hle, hleft⟩ := Source.gather_ok hgather
          simp only [hgather, Prod.mk.injEq, Except.ok.injEq] at h
          obtain ⟨hframe, rfl⟩ := h
          refine ⟨source, rfl, ?_⟩
          split at hframe
          · rename_i hwhole
            subst hframe
            exact ⟨by omega, fun _ => hwhole⟩
          · split at hframe
            · subst hframe
              exact trivial
            · rename_i hpartial _
              subst hframe
              exact ⟨hlength, lt_of_le_of_ne hle hpartial⟩

theorem chunkOfLength_ok {r r' : Reader σ} {declared : Nat} {frame : Frame}
    (h : r.chunkOfLength declared = (.ok frame, r')) :
    ∃ (source : Source) (bs : Bytes), frame = .chunk bs ∧ bs.length = declared ∧
      r' = { r with source := source } ∧ r.source.bytes = bs ++ source.bytes ∧
      source.left ≤ r.source.left := by
  unfold chunkOfLength at h
  cases hgather : r.source.gather declared with
  | mk answer source =>
      cases answer with
      | error e => simp [hgather] at h
      | ok bs =>
          obtain ⟨hle, hleft⟩ := Source.gather_ok hgather
          simp only [hgather] at h
          split at h
          · simp at h
          · simp only [Prod.mk.injEq, Except.ok.injEq] at h
            obtain ⟨rfl, rfl⟩ := h
            exact ⟨source, bs, rfl, by omega, rfl, Source.bytes_of_gather hgather, by omega⟩

theorem lengthFrame_ok {r r' : Reader σ} {form : IntForm} {frame : Frame}
    (hlength : r.layout.length? = some form) (h : r.lengthFrame form = (.ok frame, r')) :
    ∃ source : Source, r' = { r with source := source } ∧ r.Taken source frame := by
  unfold lengthFrame at h
  cases hread : form.fromSource r.source with
  | mk answer source =>
      cases answer with
      | error f => simp [hread] at h
      | ok found =>
          cases found with
          | none =>
              simp only [hread, Prod.mk.injEq, Except.ok.injEq] at h
              obtain ⟨rfl, rfl⟩ := h
              exact ⟨source, rfl, trivial⟩
          | some declared =>
              -- The length itself has taken a byte, so the chunk may be empty.
              have hleft := IntForm.fromSource_left hread
              simp only [hread] at h
              split at h
              · rename_i hzero
                simp only [Prod.mk.injEq, Except.ok.injEq] at h
                obtain ⟨rfl, rfl⟩ := h
                exact ⟨source, rfl, by simp [hlength], hzero.2⟩
              · split at h
                · simp at h
                · obtain ⟨source', bs, rfl, -, rfl, -, hrest⟩ := chunkOfLength_ok h
                  dsimp only at hrest
                  exact ⟨source', rfl, by omega, by simp [hlength]⟩

/-- A frame that has been taken leaves all but the source as it was. -/
theorem nextFrame_ok {r r' : Reader σ} {frame : Frame}
    (hl : r.layout.check = .ok ()) (h : r.nextFrame = (.ok frame, r')) :
    ∃ source : Source, r' = { r with source := source } ∧ r.Taken source frame := by
  unfold nextFrame at h
  cases hlength : r.layout.length? with
  | none =>
      rw [hlength] at h
      exact fixedFrame_ok hl hlength h
  | some form =>
      rw [hlength] at h
      exact lengthFrame_ok hlength h

/-- Everything that a successful pull can have done. -/
inductive Pulled (r : Reader σ) : Reader σ → Prop
  /-- A bare length of zero has ended the stream. -/
  | terminator {source : Source} :
      r.layout.length? ≠ none → r.layout.counter? = none →
      Pulled r { r with source := source, phase := .terminated }
  /-- A chunk without a number has been opened. -/
  | payload {source : Source} {chunk text : Bytes} {codec : σ} :
      r.layout.counter? = none → source.left < r.source.left →
      (r.layout.length? = none → chunk.length = r.fullChunk) →
      r.opener.openChunk r.codec chunk = (.ok text, codec) →
      Pulled r { r with source := source, codec := codec, pending := text }
  /-- A chunk that is not full has ended a stream of fixed-size chunks. -/
  | short {source : Source} {chunk text : Bytes} {codec : σ} :
      r.layout.length? = none → r.layout.counter? = none →
      chunk.length < r.fullChunk →
      r.opener.openChunk r.codec chunk = (.ok text, codec) →
      Pulled r { r with
        source := source, codec := codec, pending := text, phase := .terminated }
  /-- The chunk with the number that was due has been opened. -/
  | numbered {source : Source} {chunk text : Bytes} {codec : σ} {form : IntForm}
      {used : Nat} :
      r.layout.length? ≠ none → r.layout.counter? = some form →
      source.left < r.source.left →
      r.opener.openChunk r.codec chunk = (.ok text, codec) →
      form.decode text = .ok (r.expected, used) → r.expected ≠ 0 →
      Pulled r { r with
        source := source, codec := codec, pending := text.drop used,
        expected := r.expected + 1 }
  /-- The sealed number zero, alone in its chunk, has ended the stream. -/
  | sealedEnd {source : Source} {chunk text : Bytes} {codec : σ} {form : IntForm} :
      r.layout.length? ≠ none → r.layout.counter? = some form →
      r.opener.openChunk r.codec chunk = (.ok text, codec) →
      form.decode text = .ok (0, text.length) →
      Pulled r { r with source := source, codec := codec, phase := .terminated }

/-- Opening a chunk that has been taken from the source. -/
theorem acceptChunk_ok {r r' : Reader σ} {chunk : Bytes}
    (h : r.acceptChunk chunk = (.ok (), r')) :
    ∃ (text : Bytes) (codec : σ),
      r.opener.openChunk r.codec chunk = (.ok text, codec) ∧
        match r.layout.counter? with
        | none => r' = { r with codec := codec, pending := text }
        | some form => ∃ found used : Nat, form.decode text = .ok (found, used) ∧
            ((found = 0 ∧ used = text.length ∧
                r' = { r with codec := codec, phase := .terminated }) ∨
              (found = r.expected ∧ found ≠ 0 ∧
                r' = { r with
                  codec := codec, pending := text.drop used,
                  expected := r.expected + 1 })) := by
  unfold acceptChunk at h
  cases hopen : r.opener.openChunk r.codec chunk with
  | mk answer codec =>
      cases answer with
      | error f => simp [hopen] at h
      | ok text =>
          refine ⟨text, codec, rfl, ?_⟩
          simp only [hopen] at h
          cases hcounter : r.layout.counter? with
          | none =>
              simp only [hcounter, Prod.mk.injEq, true_and] at h
              exact h.symm
          | some form =>
              simp only [hcounter, acceptNumbered] at h
              cases hdecode : form.decode text with
              | error f => simp [hdecode] at h
              | ok pair =>
                  obtain ⟨found, used⟩ := pair
                  refine ⟨found, used, hdecode, ?_⟩
                  simp only [hdecode] at h
                  split at h
                  · rename_i hzero
                    split at h
                    · rename_i hused
                      obtain rfl := (Prod.mk.inj h).2
                      exact .inl ⟨hzero, hused, rfl⟩
                    · simp at h
                  · rename_i hne
                    split at h
                    · rename_i hdue
                      obtain rfl := (Prod.mk.inj h).2
                      exact .inr ⟨hdue, hne, rfl⟩
                    · simp at h

theorem pull_ok {r r' : Reader σ} (hl : r.layout.check = .ok ())
    (h : r.pull = (.ok (), r')) : Pulled r r' := by
  unfold pull at h
  cases hframe : r.nextFrame with
  | mk answer r₁ =>
      cases answer with
      | error f => simp [hframe] at h
      | ok frame =>
          obtain ⟨source, rfl, hfacts⟩ := nextFrame_ok hl hframe
          cases frame with
          | endOfInput => simp [hframe] at h
          | terminator =>
              simp only [hframe, Prod.mk.injEq, true_and] at h
              subst h
              exact .terminator hfacts.1 hfacts.2
          | chunk bs =>
              simp only [hframe] at h
              obtain ⟨text, codec, hopen, hkept⟩ := acceptChunk_ok h
              dsimp only at hopen hkept
              cases hcounter : r.layout.counter? with
              | none =>
                  rw [hcounter] at hkept
                  obtain rfl := hkept
                  exact .payload hcounter hfacts.1 hfacts.2 hopen
              | some form =>
                  -- Numbered chunks have lengths, for the layout is sound.
                  have hlength : r.layout.length? ≠ none := by
                    intro hnone
                    rw [Layout.counter_eq_none hl hnone] at hcounter
                    simp at hcounter
                  rw [hcounter] at hkept
                  obtain ⟨found, used, hdecode, hend | hdue⟩ := hkept
                  · obtain ⟨rfl, rfl, rfl⟩ := hend
                    exact .sealedEnd hlength hcounter hopen hdecode
                  · obtain ⟨rfl, hne, rfl⟩ := hdue
                    exact .numbered hlength hcounter hfacts.1 hopen hdecode hne
          | lastChunk bs =>
              -- A last chunk comes up only where nothing is numbered.
              have hcounter := Layout.counter_eq_none hl hfacts.1
              simp only [hframe] at h
              split at h
              · rename_i r₂ haccept
                obtain rfl := (Prod.mk.inj h).2
                obtain ⟨text, codec, hopen, hkept⟩ := acceptChunk_ok haccept
                dsimp only at hopen hkept
                rw [hcounter] at hkept
                obtain rfl := hkept
                exact .short hfacts.1 hcounter hfacts.2 hopen
              · simp at h

/-- A pull leaves the layout and the opener as they were, and either ends the
stream or takes something from the source. -/
theorem Pulled.progress {r r' : Reader σ} (h : Pulled r r')
    (hphase : r.phase = .reading) :
    r'.layout = r.layout ∧ r'.opener = r.opener ∧
      (r'.phase = .terminated ∨
        r'.phase = .reading ∧ r'.source.left < r.source.left) := by
  cases h with
  | terminator => exact ⟨rfl, rfl, .inl rfl⟩
  | payload _ hleft => exact ⟨rfl, rfl, .inr ⟨hphase, hleft⟩⟩
  | short => exact ⟨rfl, rfl, .inl rfl⟩
  | numbered _ _ hleft => exact ⟨rfl, rfl, .inr ⟨hphase, hleft⟩⟩
  | sealedEnd => exact ⟨rfl, rfl, .inl rfl⟩

/-! ## A known frame at the front of a source that flows -/

section Front

variable {r : Reader σ} {form : IntForm} {chunk rest : Bytes}

/-- The frame of a chunk within the limit is taken, and its chunk is opened. -/
theorem pull_frame (hlength : r.layout.length? = some form) (hs : r.source.Flows)
    (hbytes : r.source.bytes = r.layout.frame chunk ++ rest)
    (hfits : chunk.length < form.capacity)
    (hmarker : ¬ (chunk = [] ∧ r.layout.counter? = none))
    (hlimit : r.layout.Admits r.opener.overhead chunk) :
    ∃ source : Source, source.Flows ∧ source.bytes = rest ∧
      r.pull = acceptChunk { r with source := source } chunk := by
  rw [Layout.frame, hlength, List.append_assoc] at hbytes
  obtain ⟨s₁, hread, hflows₁, hrest₁⟩ :=
    IntForm.fromSource_bytes_append hs hfits hbytes
  obtain ⟨s₂, hgather, hflows₂, hrest₂⟩ := Source.gather_append hflows₁ hrest₁
  refine ⟨s₂, hflows₂, hrest₂, ?_⟩
  have hwithin : exceeded? (r.layout.chunkLimit? r.opener.overhead) chunk.length = none :=
    Option.filter_eq_none_iff.2 fun limit hmem => by
      simpa using hlimit limit hmem
  simp [pull, nextFrame, hlength, lengthFrame, hread, hmarker, hwithin,
    chunkOfLength, hgather]

/-- The frame of a chunk past the limit is refused by its length alone. -/
theorem pull_refused (hlength : r.layout.length? = some form) (hs : r.source.Flows)
    (hbytes : r.source.bytes = r.layout.frame chunk ++ rest)
    (hfits : chunk.length < form.capacity)
    (hmarker : ¬ (chunk = [] ∧ r.layout.counter? = none))
    (hlimit : ¬ r.layout.Admits r.opener.overhead chunk) :
    ∃ (limit : Nat) (r' : Reader σ), r.layout.chunkLimit? r.opener.overhead = some limit ∧
      r.pull = (.error (.chunkTooBig chunk.length limit), r') := by
  rw [Layout.frame, hlength, List.append_assoc] at hbytes
  obtain ⟨s₁, hread, -, -⟩ := IntForm.fromSource_bytes_append hs hfits hbytes
  obtain ⟨limit, hmem, hpast⟩ : ∃ limit,
      r.layout.chunkLimit? r.opener.overhead = some limit ∧ limit < chunk.length := by
    simpa [Layout.Admits] using hlimit
  have hexceeded :
      exceeded? (r.layout.chunkLimit? r.opener.overhead) chunk.length = some limit := by
    simp [exceeded?, hmem, hpast]
  exact ⟨limit, { r with source := s₁ }, hmem, by
    simp [pull, nextFrame, hlength, lengthFrame, hread, hmarker, hexceeded]⟩

/-- A bare length of zero ends a stream without counters, and nothing behind it is taken. -/
theorem pull_terminator (hlength : r.layout.length? = some form)
    (hcounter : r.layout.counter? = none) (hs : r.source.Flows)
    (hbytes : r.source.bytes = form.bytes 0 ++ rest) :
    ∃ source : Source, source.Flows ∧ source.bytes = rest ∧
      r.pull = (.ok (), { r with source := source, phase := .terminated }) := by
  obtain ⟨s₁, hread, hflows, hrest⟩ :=
    IntForm.fromSource_bytes_append hs form.capacity_pos hbytes
  exact ⟨s₁, hflows, hrest, by
    simp [pull, nextFrame, hlength, lengthFrame, hread, hcounter, terminate]⟩

/-- A full chunk of a fixed-size stream is taken and opened. -/
theorem pull_full (hlength : r.layout.length? = none)
    (hroom : r.layout.Allocatable r.opener.overhead) (hs : r.source.Flows)
    (hbytes : r.source.bytes = chunk ++ rest) (hfull : chunk.length = r.fullChunk) :
    ∃ source : Source, source.Flows ∧ source.bytes = rest ∧
      r.pull = acceptChunk { r with source := source } chunk := by
  obtain ⟨s₁, hgather, hflows, hrest⟩ := Source.gather_append hs hbytes
  rw [hfull] at hgather
  exact ⟨s₁, hflows, hrest, by
    simp [pull, nextFrame, hlength, fixedFrame, hroom, fillBuffer, hgather, hfull]⟩

/-- A chunk that is not full and has nothing behind it is taken as the last. -/
theorem pull_short (hlength : r.layout.length? = none)
    (hroom : r.layout.Allocatable r.opener.overhead)
    (hcounter : r.layout.counter? = none) (hs : r.source.Flows)
    (hbytes : r.source.bytes = chunk) (hshort : chunk.length < r.fullChunk)
    (hoverhead : r.opener.overhead ≤ chunk.length) {text : Bytes} {codec : σ}
    (hopen : r.opener.openChunk r.codec chunk = (.ok text, codec)) :
    ∃ source : Source, r.pull = (.ok (), { r with
      source := source, codec := codec, pending := text, phase := .terminated }) := by
  obtain ⟨s₁, hgather, -, -⟩ := Source.gather_of_flows hs r.fullChunk
  rw [hbytes, List.take_of_length_le hshort.le] at hgather
  -- An empty last chunk is seen as such only where sealing adds nothing.
  have hlast : ¬ (chunk = [] ∧ 0 < r.opener.overhead) := by
    rintro ⟨rfl, hpos⟩
    rw [List.length_nil] at hoverhead
    omega
  refine ⟨s₁, ?_⟩
  simp [pull, nextFrame, hlength, fixedFrame, hroom, fillBuffer, hgather, hshort.ne, hlast,
    acceptChunk, hopen, hcounter, terminate]

/-- Where there can be no buffer for a full chunk, nothing is taken. -/
theorem pull_unallocatable (hlength : r.layout.length? = none)
    (hroom : ¬ r.layout.Allocatable r.opener.overhead) :
    r.pull = (.error .capacityOverflow, r) := by
  simp [pull, nextFrame, hlength, fixedFrame, hroom]

/-! ## A known chunk -/

variable {codec : σ} {text payload : Bytes} {i : Nat}

theorem acceptChunk_unnumbered (hcounter : r.layout.counter? = none)
    (hopen : r.opener.openChunk r.codec chunk = (.ok text, codec)) :
    r.acceptChunk chunk = (.ok (), { r with codec := codec, pending := text }) := by
  simp [acceptChunk, hopen, hcounter]

/-- A chunk with the number that is due is accepted. -/
theorem acceptChunk_due (hcounter : r.layout.counter? = some form)
    (hopen : r.opener.openChunk r.codec chunk =
      (.ok (form.bytes r.expected ++ payload), codec))
    (hbound : r.expected < form.capacity) (hne : r.expected ≠ 0) :
    r.acceptChunk chunk = (.ok (), { r with
      codec := codec, pending := payload, expected := r.expected + 1 }) := by
  simp [acceptChunk, hopen, hcounter, acceptNumbered,
    IntForm.decode_bytes_append hbound, hne]

/-- A chunk with any other number but zero is out of order. -/
theorem acceptChunk_reordered (hcounter : r.layout.counter? = some form)
    (hopen : r.opener.openChunk r.codec chunk =
      (.ok (form.bytes i ++ payload), codec))
    (hbound : i < form.capacity) (hne : i ≠ 0) (hdue : i ≠ r.expected) :
    r.acceptChunk chunk =
      (.error (.chunksReordered r.expected i), { r with codec := codec }) := by
  simp [acceptChunk, hopen, hcounter, acceptNumbered,
    IntForm.decode_bytes_append hbound, hne, hdue]

/-- The number zero alone in a chunk ends the stream, whatever number is due. -/
theorem acceptChunk_end (hcounter : r.layout.counter? = some form)
    (hopen : r.opener.openChunk r.codec chunk = (.ok (form.bytes 0), codec)) :
    r.acceptChunk chunk =
      (.ok (), { r with codec := codec, phase := .terminated }) := by
  have hdecode := IntForm.decode_bytes_append form.capacity_pos []
  rw [List.append_nil] at hdecode
  simp [acceptChunk, hopen, hcounter, acceptNumbered, hdecode, terminate]

end Front

end Reader

end SealedStream
