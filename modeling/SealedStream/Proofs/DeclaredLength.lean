import SealedStream.Proofs.Logging
import SealedStream.Proofs.Slicing
import SealedStream.Proofs.Spelling

/-!
# What a declared length commands

A frame says how long its chunk is, and a reader does not have to believe it.  A length
past the limit is refused before anything behind it has been taken.  A length within the
limit is how much is taken at most, and if the source ends before that much has come,
the stream is cut.  In neither case is the opener called.

`Reader.Fetched` lists what can come of a frame, with the bytes that have been taken for
it.  `Reader.Account` sums this up over a run: the bytes that a reader has taken from its
source are the frames of the chunks that its opener was called with, each behind a length
that is the chunk's own, and behind them what was taken for a frame that came to nothing.
-/

namespace SealedStream

/-- A declared length that is not past the limit, if there is one. -/
def Layout.Allows (l : Layout) (overhead declared : Nat) : Prop :=
  l.maxChunkSize ≠ 0 → declared ≤ min (l.maxChunkSize + overhead) (intBound - 1)

namespace Reader

variable {σ : Type}

theorem exceeded?_eq_none {l : Layout} {overhead declared : Nat}
    (h : l.Allows overhead declared) :
    exceeded? (l.chunkLimit? overhead) declared = none := by
  by_cases hmax : l.maxChunkSize = 0
  · simp [exceeded?, Layout.chunkLimit?, hmax]
  · have hle := h hmax
    simp only [exceeded?, Layout.chunkLimit?, if_neg hmax, Option.filter_eq_none_iff,
      Option.some.injEq]
    rintro limit rfl
    simpa using hle

theorem exceeded?_eq_some {l : Layout} {overhead declared : Nat}
    (h : ¬ l.Allows overhead declared) :
    exceeded? (l.chunkLimit? overhead) declared =
      some (min (l.maxChunkSize + overhead) (intBound - 1)) := by
  obtain ⟨hmax, hpast⟩ := Classical.not_imp.1 h
  simp only [exceeded?, Layout.chunkLimit?, if_neg hmax]
  exact Option.filter_eq_some_iff.2 ⟨rfl, decide_eq_true (Nat.lt_of_not_le hpast)⟩

/-! ## A frame and the bytes taken for it -/

/-- What can come of a frame, and the bytes that have been taken for it. -/
inductive Fetched (l : Layout) (overhead : Nat) (form : IntForm) :
    Except Failure Frame → Bytes → Prop
  /-- No length could be read. -/
  | unread {f : Failure} {part : Bytes} :
      (∀ n used, form.scan part ≠ .whole n used) → Fetched l overhead form (.error f) part
  /-- The source had ended before the first byte of a length. -/
  | nothing : Fetched l overhead form (.ok .endOfInput) []
  /-- A bare length of zero. -/
  | bareEnd {head : Bytes} :
      l.counter? = none → form.Spells head 0 → Fetched l overhead form (.ok .terminator) head
  /-- A length past the limit: nothing behind it has been taken. -/
  | tooBig {head : Bytes} {declared : Nat} :
      form.Spells head declared → ¬ l.Allows overhead declared →
      Fetched l overhead form
        (.error (.chunkTooBig declared (min (l.maxChunkSize + overhead) (intBound - 1)))) head
  /-- The source failed inside the chunk. -/
  | broken {head part : Bytes} {declared : Nat} {e : IoError} :
      form.Spells head declared → l.Allows overhead declared → part.length < declared →
      Fetched l overhead form (.error (.io e)) (head ++ part)
  /-- The source ended inside the chunk. -/
  | cut {head part : Bytes} {declared : Nat} :
      form.Spells head declared → l.Allows overhead declared → part.length < declared →
      Fetched l overhead form (.error .streamTruncated) (head ++ part)
  /-- A chunk that is as long as it was declared. -/
  | chunk {head chunk : Bytes} :
      form.Spells head chunk.length → l.Allows overhead chunk.length →
      Fetched l overhead form (.ok (.chunk chunk)) (head ++ chunk)

/-- A declared length is taken whole, or less than it where the source fails or ends. -/
theorem chunkOfLength_takes (r : Reader σ) (declared : Nat) :
    ∃ (part : Bytes) (source : Source) (answer : Except Failure Frame),
      r.chunkOfLength declared = (answer, { r with source := source }) ∧
      r.source.bytes = part ++ source.bytes ∧
      (part.length = declared ∧ answer = .ok (.chunk part) ∨
        part.length < declared ∧ answer = .error .streamTruncated ∨
        part.length < declared ∧ ∃ e, answer = .error (.io e)) := by
  unfold chunkOfLength
  cases hgather : r.source.gather declared with
  | mk answer source =>
      cases answer with
      | error e =>
          obtain ⟨lost, hbytes, hless⟩ := Source.bytes_of_gather_error hgather
          exact ⟨lost, source, _, rfl, hbytes, .inr (.inr ⟨hless, e, rfl⟩)⟩
      | ok bs =>
          have hbytes := Source.bytes_of_gather hgather
          have hle := (Source.gather_ok hgather).1
          refine ⟨bs, source, _, rfl, hbytes, ?_⟩
          by_cases hcut : bs.length < declared
          · exact .inr (.inl ⟨hcut, if_pos hcut⟩)
          · exact .inl ⟨by omega, if_neg hcut⟩

/-- Everything that taking a frame behind a length can do. -/
theorem lengthFrame_fetched (r : Reader σ) (form : IntForm) :
    ∃ (taken : Bytes) (source : Source) (answer : Except Failure Frame),
      r.lengthFrame form = (answer, { r with source := source }) ∧
      r.source.bytes = taken ++ source.bytes ∧
      Fetched r.layout r.opener.overhead form answer taken := by
  unfold lengthFrame
  cases hread : form.fromSource r.source with
  | mk answer source =>
      cases answer with
      | error f =>
          obtain ⟨part, hbytes, hscan⟩ := IntForm.part_of_fromSource hread
          exact ⟨part, source, _, rfl, hbytes, .unread hscan⟩
      | ok found =>
          cases found with
          | none =>
              exact ⟨[], source, _, rfl, IntForm.bytes_of_fromSource_none hread, .nothing⟩
          | some declared =>
              obtain ⟨head, hhead, hspells⟩ := IntForm.spells_of_fromSource hread
              dsimp only
              by_cases hend : declared = 0 ∧ r.layout.counter? = none
              · rw [if_pos hend]
                exact ⟨head, source, _, rfl, hhead, .bareEnd hend.2 (hend.1 ▸ hspells)⟩
              · rw [if_neg hend]
                by_cases hallows : r.layout.Allows r.opener.overhead declared
                · rw [exceeded?_eq_none hallows]
                  obtain ⟨part, source', answer, htake, hpart, hcases⟩ :=
                    chunkOfLength_takes { r with source := source } declared
                  refine ⟨head ++ part, source', answer, htake, ?_, ?_⟩
                  · rw [hhead, hpart, List.append_assoc]
                  · rcases hcases with ⟨rfl, rfl⟩ | ⟨hless, rfl⟩ | ⟨hless, e, rfl⟩
                    · exact .chunk hspells hallows
                    · exact .cut hspells hallows hless
                    · exact .broken hspells hallows hless
                · rw [exceeded?_eq_some hallows]
                  exact ⟨head, source, _, rfl, hhead, .tooBig hspells hallows⟩

/-- Opening a chunk leaves the opener in its next state, and the layout, the opener and the
source as they were. -/
theorem acceptChunk_snd {r r' : Reader σ} {chunk : Bytes}
    {answer : Except Failure Unit} (h : r.acceptChunk chunk = (answer, r')) :
    ∃ pending expected phase, r' =
      ⟨r.layout, r.opener, (r.opener.openChunk r.codec chunk).2, r.source, pending, expected,
        phase⟩ := by
  obtain rfl : (r.acceptChunk chunk).2 = r' := congrArg Prod.snd h
  unfold acceptChunk
  cases r.opener.openChunk r.codec chunk with
  | mk answer codec =>
      cases answer with
      | error f => exact ⟨_, _, _, rfl⟩
      | ok text =>
          dsimp only
          cases r.layout.counter? with
          | none => exact ⟨_, _, _, rfl⟩
          | some number =>
              unfold acceptNumbered
              dsimp only
              split
              · exact ⟨_, _, _, rfl⟩
              · split
                · split <;> exact ⟨_, _, _, rfl⟩
                · split <;> exact ⟨_, _, _, rfl⟩

/-! ## A whole run -/

/-- What can have been taken behind the last chunk that the opener was called with. -/
inductive Leftover (l : Layout) (overhead : Nat) (form : IntForm) : Phase → Bytes → Prop
  | nothing {phase : Phase} : Leftover l overhead form phase []
  /-- The frame that the reader has failed with. -/
  | refused {f : Failure} {taken : Bytes} :
      Fetched l overhead form (.error f) taken → Leftover l overhead form (.failed f) taken
  /-- The bare length of zero that has ended the stream. -/
  | ended {phase : Phase} {taken : Bytes} :
      phase = .terminated ∨ phase = .closed → Fetched l overhead form (.ok .terminator) taken →
      Leftover l overhead form phase taken

theorem Leftover.of_reading {l : Layout} {overhead : Nat} {form : IntForm} {tail : Bytes}
    (h : Leftover l overhead form .reading tail) : tail = [] := by
  cases h with
  | nothing => rfl
  | ended hphase => simp at hphase

theorem Leftover.closed {l : Layout} {overhead : Nat} {form : IntForm} {tail : Bytes}
    (h : Leftover l overhead form .terminated tail) : Leftover l overhead form .closed tail := by
  cases h with
  | nothing => exact .nothing
  | ended _ hfetched => exact .ended (.inr rfl) hfetched

/-- An account of the bytes that a reader has taken from the source it was started on:
frames, each of them a length and the chunk behind it, and a tail behind them. -/
structure Account (l : Layout) (opener : Opener σ) (form : IntForm) (source : Source)
    (frames : List (Bytes × Bytes)) (tail : Bytes) (v : Reader (Logged σ)) : Prop where
  layout_eq : v.layout = l
  opener_eq : v.opener = opener.logging
  /-- The opener has been called with these chunks and no others. -/
  chunks_eq : v.codec.chunks = frames.map Prod.snd
  /-- Each chunk is as long as its length says, and that is within the limit. -/
  declared : ∀ p ∈ frames, form.Spells p.1 p.2.length ∧ l.Allows opener.overhead p.2.length
  leftover : Leftover l opener.overhead form v.phase tail
  bytes_eq : source.bytes = (frames.flatMap fun p => p.1 ++ p.2) ++ tail ++ v.source.bytes

/-- The bytes that the reader has taken can be accounted for. -/
def Accounted (l : Layout) (opener : Opener σ) (form : IntForm) (source : Source)
    (v : Reader (Logged σ)) : Prop :=
  ∃ frames tail, v.Account l opener form source frames tail

section Account

variable {l : Layout} {opener : Opener σ} {t : σ} {form : IntForm} {source : Source}
  {v v' : Reader (Logged σ)} {frames : List (Bytes × Bytes)}

theorem accounted_fresh :
    Accounted l opener form source ⟨l, opener.logging, ⟨t, []⟩, source, [], 1, .reading⟩ :=
  ⟨[], [], rfl, rfl, rfl, by simp, .nothing, rfl⟩

/-- What has been taken for a frame that holds no chunk is left over. -/
theorem Account.leave (h : v.Account l opener form source frames []) {taken : Bytes}
    {rest : Source} (htaken : v.source.bytes = taken ++ rest.bytes) {phase : Phase}
    (hleft : Leftover l opener.overhead form phase taken) :
    Account l opener form source frames taken { v with source := rest, phase := phase } where
  layout_eq := h.layout_eq
  opener_eq := h.opener_eq
  chunks_eq := h.chunks_eq
  declared := h.declared
  leftover := hleft
  bytes_eq := by rw [h.bytes_eq, htaken, List.append_nil, List.append_assoc]

/-- A chunk that the opener is called with is one frame more, whether it is opened or not. -/
theorem Account.hand (h : v.Account l opener form source frames []) {head chunk : Bytes}
    {rest : Source} (htaken : v.source.bytes = head ++ chunk ++ rest.bytes)
    (hspells : form.Spells head chunk.length) (hallows : l.Allows opener.overhead chunk.length)
    (pending : Bytes) (expected : Nat) (phase : Phase) :
    Account l opener form source (frames ++ [(head, chunk)]) []
      ⟨v.layout, v.opener, (v.opener.openChunk v.codec chunk).2, rest, pending, expected,
        phase⟩ where
  layout_eq := h.layout_eq
  opener_eq := h.opener_eq
  chunks_eq := by
    rw [List.map_append, ← h.chunks_eq, h.opener_eq]
    rfl
  declared := by
    intro p hp
    rcases List.mem_append.1 hp with hold | hnew
    · exact h.declared p hold
    · obtain rfl := List.mem_singleton.1 hnew
      exact ⟨hspells, hallows⟩
  leftover := .nothing
  bytes_eq := by
    rw [h.bytes_eq, htaken]
    simp

/-- The step: what a pull adds to the account, whatever comes of it. -/
theorem Accounted.pull (hlength : l.length? = some form)
    (h : Accounted l opener form source v) (hphase : v.phase = .reading)
    {answer : Except Failure Unit} (hpull : v.pull = (answer, v')) :
    match answer with
    | .ok () => Accounted l opener form source v'
    | .error f => Accounted l opener form source (v'.fail f) := by
  obtain ⟨frames, tail, haccount⟩ := h
  obtain rfl : tail = [] := (hphase ▸ haccount.leftover).of_reading
  obtain ⟨taken, rest, found, hframe, htaken, hfetched⟩ := lengthFrame_fetched v form
  have hoverhead : v.opener.overhead = opener.overhead := by
    rw [haccount.opener_eq]
    rfl
  rw [haccount.layout_eq, hoverhead] at hfetched
  unfold Reader.pull Reader.nextFrame at hpull
  rw [haccount.layout_eq, hlength] at hpull
  dsimp only at hpull
  rw [hframe] at hpull
  cases found with
  | error f =>
      obtain ⟨rfl, rfl⟩ := Prod.mk.inj hpull
      exact ⟨frames, taken, haccount.leave htaken (.refused hfetched)⟩
  | ok frame =>
      cases hfetched with
      | nothing =>
          obtain ⟨rfl, rfl⟩ := Prod.mk.inj hpull
          exact ⟨frames, [], haccount.leave htaken .nothing⟩
      | bareEnd hcounter hspells =>
          obtain ⟨rfl, rfl⟩ := Prod.mk.inj hpull
          exact ⟨frames, taken,
            haccount.leave htaken (.ended (.inl rfl) (.bareEnd hcounter hspells))⟩
      | @chunk head chunk hspells hallows =>
          obtain ⟨pending, expected, phase, rfl⟩ := acceptChunk_snd hpull
          have hnext := haccount.hand htaken hspells hallows pending expected
          cases answer with
          | ok u => exact ⟨_, [], hnext phase⟩
          | error f => exact ⟨_, [], hnext (.failed f)⟩

/-- Any calls keep the account. -/
theorem accounted_kept (hl : l.check = .ok ()) (hlength : l.length? = some form) :
    Kept (Accounted l opener form source) where
  deliver := by
    rintro v ⟨frames, tail, haccount⟩ n
    exact ⟨frames, tail, { haccount with }⟩
  pull {v v'} h hphase hpull := by
    have hcheck : v.layout.check = .ok () := by
      obtain ⟨frames, tail, haccount⟩ := h
      rw [haccount.layout_eq]
      exact hl
    have hnext := ((pull_ok hcheck hpull).progress hphase).2.2
    exact ⟨h.pull hlength hphase hpull, hnext.symm.imp And.left id⟩
  fails h hphase hpull := h.pull hlength hphase hpull
  close {v} h := by
    obtain ⟨frames, tail, haccount⟩ := h
    have hleft := haccount.leftover
    unfold Reader.close
    cases hphase : v.phase with
    | closed | failed => exact ⟨frames, tail, haccount⟩
    | reading =>
        rw [hphase] at hleft
        obtain rfl := hleft.of_reading
        exact ⟨frames, [], { haccount with leftover := .nothing }⟩
    | terminated =>
        rw [hphase] at hleft
        exact ⟨frames, tail, { haccount with leftover := hleft.closed }⟩

end Account

/-! ## A frame that is refused -/

/-- The next frame is refused with this failure: the opener is not called, whatever it is,
and the source is left like this. -/
structure Refused (u : Reader σ) (f : Failure) (rest : Source) : Prop where
  pull : u.pull = (.error f, { u with source := rest })
  /-- Nothing is asked of the opener, so any other would be met by the same. -/
  unasked {τ : Type} (openChunk : τ → Bytes → Except Failure Bytes × τ) (codec : τ) :
    (u.onto ⟨u.opener.overhead, openChunk⟩ codec u.source).pull =
      (.error f, u.onto ⟨u.opener.overhead, openChunk⟩ codec rest)
  /-- In the course of a read, what came before is handed out first. -/
  supply (k : Nat) {want : Nat} (got : Bytes) : u.phase = .reading → u.pending.length < want →
    supply (k + 1) want got u =
      (if (got ++ u.pending).isEmpty then .error f else .ok (got ++ u.pending),
        { u with source := rest, pending := [], phase := .failed f })
  read {n : Nat} : u.phase = .reading → u.pending.length < n →
    u.read n = (if u.pending.isEmpty then .error f else .ok u.pending,
      { u with source := rest, pending := [], phase := .failed f })

theorem refused_of_nextFrame {u : Reader σ} {f : Failure} {rest : Source}
    (h : u.nextFrame = (.error f, { u with source := rest })) : u.Refused f rest := by
  obtain ⟨answer, rest', heq⟩ := nextFrame_eq u.layout u.opener.overhead u.source
  have hself : u.nextFrame = (answer, { u with source := rest' }) :=
    heq u.opener.openChunk u.codec u.pending u.expected u.phase
  rw [h] at hself
  obtain rfl : answer = .error f := (Prod.mk.inj hself).1.symm
  obtain rfl : rest' = rest := (congrArg (·.2.source) hself).symm
  have hpull : u.pull = (.error f, { u with source := rest' }) := by
    simp only [Reader.pull, h]
  have hsupply (k : Nat) {want : Nat} (got : Bytes) (hphase : u.phase = .reading)
      (hshort : u.pending.length < want) : Reader.supply (k + 1) want got u =
        (if (got ++ u.pending).isEmpty then .error f else .ok (got ++ u.pending),
          { u with source := rest', pending := [], phase := .failed f }) := by
    -- What is at hand is handed out before the pull, so the pull finds nothing there.
    have hempty := heq u.opener.openChunk u.codec [] u.expected u.phase
    have hpull' : Reader.pull { u with pending := [] } =
        (.error f, { u with pending := [], source := rest' }) := by
      simp only [Reader.pull, hempty]
    rw [supply_pull_error hphase hshort hpull']
    rfl
  refine ⟨hpull, fun openChunk codec => ?_, hsupply, fun hphase hshort => ?_⟩
  · have hother := heq openChunk codec u.pending u.expected u.phase
    simp only [Reader.pull, onto, hother]
  · simp only [Reader.read, hphase]
    exact hsupply _ [] hphase hshort

section Declared

variable {u : Reader σ} {form : IntForm} {declared : Nat} {rest rest' : Source} {body : Bytes}

/-- A length past the limit is refused, with nothing behind it taken. -/
theorem refused_of_not_allows (hlength : u.layout.length? = some form)
    (hread : form.fromSource u.source = (.ok (some declared), rest))
    (h : ¬ u.layout.Allows u.opener.overhead declared) :
    u.Refused (.chunkTooBig declared
      (min (u.layout.maxChunkSize + u.opener.overhead) (intBound - 1))) rest := by
  have hne : declared ≠ 0 := by
    rintro rfl
    exact h fun _ => Nat.zero_le _
  refine refused_of_nextFrame ?_
  simp [nextFrame, hlength, lengthFrame, hread, hne, exceeded?_eq_some h]

/-- A chunk is refused if the source ends inside it. -/
theorem refused_of_endsAfter (hlength : u.layout.length? = some form)
    (hread : form.fromSource u.source = (.ok (some declared), rest))
    (h : u.layout.Allows u.opener.overhead declared) (hends : rest.EndsAfter body rest')
    (hshort : body.length < declared) : u.Refused .streamTruncated rest' := by
  have hne : declared ≠ 0 := Nat.ne_zero_of_lt hshort
  refine refused_of_nextFrame ?_
  simp [nextFrame, hlength, lengthFrame, hread, hne, exceeded?_eq_none h, chunkOfLength,
    hends.gather hshort, hshort]

/-- A chunk that comes whole is handed to the opener. -/
theorem pull_hands (hlength : u.layout.length? = some form)
    (hread : form.fromSource u.source = (.ok (some declared), rest))
    (h : u.layout.Allows u.opener.overhead declared)
    (hgather : rest.gather declared = (.ok body, rest')) (hwhole : body.length = declared)
    (hend : ¬ (declared = 0 ∧ u.layout.counter? = none)) :
    u.pull = acceptChunk { u with source := rest' } body := by
  have hframe : u.nextFrame = (.ok (.chunk body), { u with source := rest' }) := by
    simp only [nextFrame, hlength, lengthFrame, hread, if_neg hend, exceeded?_eq_none h,
      chunkOfLength, hgather, hwhole, lt_irrefl, if_false]
  simp only [pull, hframe]

/-- Behind a declared length no more than that is taken. -/
theorem pull_takes (hlength : u.layout.length? = some form)
    (hread : form.fromSource u.source = (.ok (some declared), rest)) :
    ∃ body : Bytes, rest.bytes = body ++ u.pull.2.source.bytes ∧ body.length ≤ declared := by
  have hframe : u.nextFrame = u.lengthFrame form := by
    simp only [nextFrame, hlength]
  rw [pull_source, hframe]
  simp only [lengthFrame, hread]
  by_cases hend : declared = 0 ∧ u.layout.counter? = none
  · rw [if_pos hend]
    exact ⟨[], rfl, Nat.zero_le _⟩
  · rw [if_neg hend]
    by_cases hallows : u.layout.Allows u.opener.overhead declared
    · rw [exceeded?_eq_none hallows]
      obtain ⟨part, source, answer, htake, hpart, hcases⟩ :=
        chunkOfLength_takes { u with source := rest } declared
      dsimp only
      rw [htake]
      refine ⟨part, hpart, ?_⟩
      rcases hcases with ⟨hwhole, -⟩ | ⟨hless, -⟩ | ⟨hless, -⟩ <;> omega
    · rw [exceeded?_eq_some hallows]
      exact ⟨[], rfl, Nat.zero_le _⟩

end Declared

/-- In a sound layout with lengths a declared length commands no more than the limit, and
no more than itself.  Whatever the source and whatever calls are made, the opener has been
called with chunks that are each as long as the length in front of them, and that length
is within the limit; what the reader has taken from its source is these frames, and behind
them no more than the frame it has failed with or the bare length that has ended the
stream.  And wherever a reader finds a length in its source, the length is refused if it
is past the limit, with nothing behind it taken; in any case no more than so much is taken
behind it; and if it is within the limit, the stream is cut where the source ends before so
much has come, and the chunk is handed to the opener where all of it has.  A frame that is
refused is not shown to the opener. -/
theorem declared_length_bounds_reading {l : Layout} (hl : l.check = .ok ()) {form : IntForm}
    (hlength : l.length? = some form) (opener : Opener σ) (t : σ) (source : Source) :
    ∃ r v, start source opener t l = .ok r ∧ start source opener.logging ⟨t, []⟩ l = .ok v ∧
      (∀ requests : List Request, Mirrors (r.serveAll requests) (v.serveAll requests) ∧
        ∃ frames tail, (v.serveAll requests).Account l opener form source frames tail) ∧
      ∀ (u : Reader σ) (declared : Nat) (rest : Source), u.layout = l → u.opener = opener →
        form.fromSource u.source = (.ok (some declared), rest) →
          (∃ head : Bytes, u.source.bytes = head ++ rest.bytes ∧ form.Spells head declared) ∧
          (¬ l.Allows opener.overhead declared →
            u.Refused (.chunkTooBig declared
              (min (l.maxChunkSize + opener.overhead) (intBound - 1))) rest) ∧
          (∃ body : Bytes, rest.bytes = body ++ u.pull.2.source.bytes ∧
            body.length ≤ declared) ∧
          (l.Allows opener.overhead declared →
            (∀ body rest', rest.EndsAfter body rest' → body.length < declared →
              u.Refused .streamTruncated rest') ∧
            ∀ body rest', rest.gather declared = (.ok body, rest') → body.length = declared →
              ¬ (declared = 0 ∧ l.counter? = none) →
                u.pull = acceptChunk { u with source := rest' } body) := by
  refine ⟨_, _, start_of_sound hl source opener t,
    start_of_sound hl source opener.logging ⟨t, []⟩, fun requests => ⟨?_, ?_⟩, ?_⟩
  · have hfresh : Mirrors (⟨l, opener, t, source, [], 1, .reading⟩ : Reader σ)
        ⟨l, opener.logging, ⟨t, []⟩, source, [], 1, .reading⟩ := ⟨[], rfl⟩
    exact hfresh.serveAll requests
  · rw [serveAll_eq_after]
    exact (accounted_kept hl hlength).after accounted_fresh _
  · rintro u declared rest rfl rfl hread
    exact ⟨IntForm.spells_of_fromSource hread, refused_of_not_allows hlength hread,
      pull_takes hlength hread, fun hallows =>
        ⟨fun _ _ hends hshort => refused_of_endsAfter hlength hread hallows hends hshort,
          fun _ _ hgather hwhole hend =>
            pull_hands hlength hread hallows hgather hwhole hend⟩⟩

/-- A reader with a limit of four bytes, under an overhead of one. -/
def fourBytes (source : Source) : Reader Unit :=
  ⟨{ Layout.standard with maxChunkSize := 4 }, Chunk.tagOpener [255] 1, (), source, [], 1,
    .reading⟩

/-- A frame of three bytes is handed to the opener, and the length nine behind it is
refused.  So is the length four in front of a source that ends after one byte. -/
theorem fourBytes_refuses :
    (fourBytes []).layout.check = .ok () ∧ (fourBytes []).layout.length? = some .varint ∧
      (∃ v, start (.ofBytes [3, 1, 97, 255, 9, 0]) (fourBytes []).opener.logging ⟨(), []⟩
          (fourBytes []).layout = .ok v ∧
        (v.serveAll [.read 8]).codec.chunks = [[1, 97, 255]] ∧
        (∀ chunk ∈ (v.serveAll [.read 8]).codec.chunks, chunk.length ≤ 5) ∧
        (v.serveAll [.read 8]).phase = .failed (.chunkTooBig 9 5) ∧
        (v.serveAll [.read 8]).source = [.data [0]]) ∧
      (fourBytes [.data [9, 0]]).Refused (.chunkTooBig 9 5) [.data [0]] ∧
      (fourBytes [.data [4, 1], .ended, .data [97]]).Refused .streamTruncated
        [.data [97]] := by
  obtain ⟨r, v, -, hstart, hruns, hframes⟩ := declared_length_bounds_reading
    (l := (fourBytes []).layout) rfl
    (show (fourBytes []).layout.length? = some .varint from rfl) (fourBytes []).opener ()
    (.ofBytes [3, 1, 97, 255, 9, 0])
  refine ⟨rfl, rfl, ⟨v, hstart, ?_⟩, ?_, ?_⟩
  · obtain ⟨-, frames, tail, haccount⟩ := hruns [.read 8]
    have hbound : ∀ chunk ∈ (v.serveAll [.read 8]).codec.chunks, chunk.length ≤ 5 := by
      intro chunk hchunk
      rw [haccount.chunks_eq] at hchunk
      obtain ⟨p, hp, rfl⟩ := List.mem_map.1 hchunk
      exact (haccount.declared p hp).2 (by decide)
    obtain rfl := (start_ok hstart).2
    exact ⟨rfl, hbound, rfl, rfl⟩
  · obtain ⟨-, hpast, -⟩ := hframes (fourBytes [.data [9, 0]]) 9 [.data [0]] rfl rfl rfl
    exact hpast fun hallows => absurd (hallows (by decide)) (by decide)
  · obtain ⟨-, -, -, hcut⟩ := hframes (fourBytes [.data [4, 1], .ended, .data [97]]) 4
      [.data [1], .ended, .data [97]] rfl rfl rfl
    exact (hcut fun _ => by decide).1 [1] _ (.data .ended) (by decide)

end Reader

end SealedStream
