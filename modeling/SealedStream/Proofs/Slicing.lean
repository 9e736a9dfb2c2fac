import SealedStream.Proofs.Reading

/-!
# Slices of a stream

A stream is sliced on both sides of a reader: its source hands out the bytes in
pieces and may be interrupted between them, and the reads ask for them with
buffers of any sizes.  Neither changes what is read.  Two readers that differ in
nothing but how their sources cut the same bytes stay so from pull to pull, and
a pull that fails does so with the same failure in both.

A source that reports an end early, or fails for good, hands out other bytes
than its own and is not compared with any other.  What a short answer means
holds of such sources as well: there is nothing behind it but the ending.
-/

namespace SealedStream

namespace Source

/-- Two sources that only hand out bytes, and the same bytes. -/
structure Alike (s s' : Source) : Prop where
  flows : s.Flows
  flows' : s'.Flows
  bytes_eq : s.bytes = s'.bytes

theorem Alike.gather {s s' : Source} (h : s.Alike s') (n : Nat) :
    ∃ (bs : Bytes) (t t' : Source),
      s.gather n = (.ok bs, t) ∧ s'.gather n = (.ok bs, t') ∧ t.Alike t' := by
  obtain ⟨t, hgather, hflows, hrest⟩ := gather_of_flows h.flows n
  obtain ⟨t', hgather', hflows', hrest'⟩ := gather_of_flows h.flows' n
  rw [← h.bytes_eq] at hgather' hrest'
  exact ⟨_, t, t', hgather, hgather', hflows, hflows', hrest.trans hrest'.symm⟩

/-- Integers are read alike, and where one is found the sources stay alike. -/
theorem Alike.fromSource {s s' : Source} (h : s.Alike s') (form : IntForm) :
    ∃ (answer : Except Failure (Option Nat)) (t t' : Source),
      form.fromSource s = (answer, t) ∧ form.fromSource s' = (answer, t') ∧
        ∀ n, answer = .ok (some n) → t.Alike t' := by
  obtain ⟨t, hflows, hagree⟩ := form.fromSource_of_flows h.flows
  obtain ⟨t', hflows', hagree'⟩ := form.fromSource_of_flows h.flows'
  rw [← h.bytes_eq] at hagree'
  cases hscan : form.scan s.bytes with
  | whole value used =>
      rw [hscan] at hagree hagree'
      exact ⟨_, t, t', hagree.1, hagree'.1,
        fun _ _ => ⟨hflows, hflows', hagree.2.trans hagree'.2.symm⟩⟩
  | malformed =>
      rw [hscan] at hagree hagree'
      exact ⟨_, t, t', hagree, hagree', by simp⟩
  | incomplete =>
      rw [hscan] at hagree hagree'
      refine ⟨_, t, t', hagree, hagree', fun n hn => ?_⟩
      split at hn <;> simp at hn

end Source

namespace Reader

variable {σ : Type} {r : Reader σ} {s' : Source}

/-! ## Two sources -/

/-- What comes of the same step on two readers: the same answer, and readers that
differ in nothing but their sources.  These are still alike if the answer is one
after which the reading goes on. -/
def Agree {α : Type} (goesOn : α → Prop) (x x' : Except Failure α × Reader σ) : Prop :=
  ∃ t' : Source, x' = (x.1, { x.2 with source := t' }) ∧
    ∀ a, x.1 = .ok a → goesOn a → x.2.source.Alike t'

theorem fixedFrame_agree (h : r.source.Alike s') :
    Agree (· ≠ .endOfInput) r.fixedFrame (fixedFrame { r with source := s' }) := by
  obtain ⟨bs, t, t', hgather, hgather', halike⟩ := h.gather r.fullChunk
  have hfull : fullChunk { r with source := s' } = r.fullChunk := rfl
  by_cases hroom : r.layout.Allocatable r.opener.overhead
  · simp only [fixedFrame, hroom, if_true, fillBuffer, hfull, hgather, hgather']
    exact ⟨t', rfl, fun _ _ _ => halike⟩
  · simp only [fixedFrame, hroom, if_false]
    exact ⟨s', rfl, by simp⟩

theorem chunkOfLength_agree (h : r.source.Alike s') (declared : Nat) :
    Agree (· ≠ .endOfInput) (r.chunkOfLength declared)
      (chunkOfLength { r with source := s' } declared) := by
  obtain ⟨bs, t, t', hgather, hgather', halike⟩ := h.gather declared
  simp only [chunkOfLength, hgather, hgather']
  exact ⟨t', rfl, fun _ _ _ => halike⟩

theorem lengthFrame_agree (h : r.source.Alike s') (form : IntForm) :
    Agree (· ≠ .endOfInput) (r.lengthFrame form)
      (lengthFrame { r with source := s' } form) := by
  obtain ⟨found, t, t', hread, hread', halike⟩ := h.fromSource form
  cases found with
  | error f =>
      simp only [lengthFrame, hread, hread']
      exact ⟨t', rfl, by simp⟩
  | ok found =>
      cases found with
      | none =>
          -- Nothing is read behind the end of the input.
          simp only [lengthFrame, hread, hread']
          exact ⟨t', rfl, fun frame heq hne => (hne (Except.ok.inj heq).symm).elim⟩
      | some declared =>
          have hrest := halike declared rfl
          simp only [lengthFrame, hread, hread']
          split
          · exact ⟨t', rfl, fun _ _ _ => hrest⟩
          · split
            · exact ⟨t', rfl, by simp⟩
            · exact chunkOfLength_agree (r := { r with source := t }) hrest declared

/-- The same frame is taken from either source. -/
theorem nextFrame_agree (h : r.source.Alike s') :
    Agree (· ≠ .endOfInput) r.nextFrame (nextFrame { r with source := s' }) := by
  unfold nextFrame
  cases hlength : r.layout.length? with
  | none => exact fixedFrame_agree h
  | some form => exact lengthFrame_agree h form

/-- The check of a number does not look at the source. -/
theorem acceptNumbered_source (r : Reader σ) (t : Source) (form : IntForm) (text : Bytes) :
    acceptNumbered { r with source := t } form text =
      ((r.acceptNumbered form text).1,
        { (r.acceptNumbered form text).2 with source := t }) := by
  unfold acceptNumbered
  cases form.decode text with
  | error f => rfl
  | ok pair =>
      dsimp only
      split
      · split <;> rfl
      · split <;> rfl

/-- Opening a chunk does not look at the source. -/
theorem acceptChunk_source (r : Reader σ) (t : Source) (chunk : Bytes) :
    acceptChunk { r with source := t } chunk =
      ((r.acceptChunk chunk).1, { (r.acceptChunk chunk).2 with source := t }) := by
  unfold acceptChunk
  cases r.opener.openChunk r.codec chunk with
  | mk answer codec =>
      cases answer with
      | error f => rfl
      | ok text =>
          cases hcounter : r.layout.counter? with
          | none => rfl
          | some form =>
              exact acceptNumbered_source { r with codec := codec } t form text

/-- A pull looks at the source through its frame alone. -/
theorem pull_of_nextFrame {t' : Source}
    (h : nextFrame { r with source := s' } =
      (r.nextFrame.1, { r.nextFrame.2 with source := t' })) :
    pull { r with source := s' } = (r.pull.1, { r.pull.2 with source := t' }) := by
  unfold pull
  rw [h]
  cases r.nextFrame with
  | mk answer r₁ =>
      cases answer with
      | error f => rfl
      | ok frame =>
          cases frame with
          | endOfInput | terminator => rfl
          | chunk bs => exact acceptChunk_source r₁ t' bs
          | lastChunk bs =>
              dsimp only
              rw [acceptChunk_source]
              cases r₁.acceptChunk bs with
              | mk opened r₂ => cases opened <;> rfl

/-- What a pull takes from the source is what its frame takes. -/
theorem pull_source (r : Reader σ) : r.pull.2.source = r.nextFrame.2.source := by
  have hself : nextFrame { r with source := r.source } =
      (r.nextFrame.1, { r.nextFrame.2 with source := r.nextFrame.2.source }) := rfl
  exact congrArg (·.2.source) (pull_of_nextFrame hself)

/-! ## Sources that hold the same frames -/

/-- In this layout the same frames are taken from sources that are so related, and what is
left of them is so related as long as the reading goes on. -/
def SameFrames (σ : Type) (l : Layout) (R : Source → Source → Prop) : Prop :=
  ∀ ⦃r : Reader σ⦄ ⦃s' : Source⦄, r.layout = l → R r.source s' →
    ∃ t' : Source, nextFrame { r with source := s' } =
        (r.nextFrame.1, { r.nextFrame.2 with source := t' }) ∧
      ∀ frame, r.nextFrame.1 = .ok frame → frame ≠ .endOfInput → R r.nextFrame.2.source t'

section SameFrames

variable {l : Layout} {R : Source → Source → Prop}

/-- A pull does the same on either source. -/
theorem SameFrames.pull (h : SameFrames σ l R) (hlayout : r.layout = l) (hsources : R r.source s') :
    ∃ t' : Source, pull { r with source := s' } = (r.pull.1, { r.pull.2 with source := t' }) ∧
      (r.pull.1 = .ok () → R r.pull.2.source t') := by
  obtain ⟨t', hframe, hrest⟩ := h hlayout hsources
  refine ⟨t', pull_of_nextFrame hframe, fun hok => ?_⟩
  rw [pull_source]
  unfold Reader.pull at hok
  cases hnext : r.nextFrame with
  | mk answer r₁ =>
      rw [hnext] at hok hrest
      cases answer with
      | error f => simp at hok
      | ok frame =>
          -- No pull succeeds at the end of the input.
          refine hrest frame rfl ?_
          rintro rfl
          simp at hok

/-- What is yielded is the same on either source. -/
theorem SameFrames.yields (h : SameFrames σ l R) (hl : l.check = .ok ()) {bytes : Bytes}
    {ending : Except Failure Unit} (hyields : Yields r bytes ending) (hlayout : r.layout = l)
    (hsources : R r.source s') : Yields { r with source := s' } bytes ending := by
  induction hyields generalizing s' with
  | terminated hphase => exact .terminated hphase
  | closed hphase => exact .closed hphase
  | failed hphase => exact .failed hphase
  | @cut r r₁ f hphase hpull =>
      obtain ⟨t', hpull', -⟩ := h.pull (r := { r with pending := [] }) hlayout hsources
      rw [hpull] at hpull'
      exact .cut hphase hpull'
  | @more r r₁ bytes ending hphase hpull hnext hrest ih =>
      obtain ⟨t', hpull', hsources'⟩ := h.pull (r := { r with pending := [] }) hlayout hsources
      rw [hpull] at hpull' hsources'
      rw [← hlayout] at hl
      have hlayout' := ((pull_ok (r := { r with pending := [] }) hl hpull).progress hphase).1
      exact .of_pull (r := { r with source := s' }) hl hphase hpull'
        (ih (hlayout'.trans hlayout) (hsources' rfl))

end SameFrames

/-- What is yielded does not depend on how the source cuts its bytes. -/
theorem Yields.of_alike {bytes : Bytes} {ending : Except Failure Unit}
    (hl : r.layout.check = .ok ()) (h : Yields r bytes ending) (halike : r.source.Alike s') :
    Yields { r with source := s' } bytes ending := by
  have hframes : SameFrames σ r.layout Source.Alike := fun _ _ _ h => nextFrame_agree h
  exact hframes.yields hl h rfl halike

/-! ## Two schedules of reads -/

/-- Reads with buffers of these sizes, up to the first that is answered with
nothing or fails: the bytes that they bring, and the ending if it is reached. -/
def readUntil : Reader σ → List Nat → Bytes × Option (Except Failure Unit)
  | _, [] => ([], none)
  | r, n :: ns =>
      match r.read n with
      | (.error f, _) => ([], some (.error f))
      | (.ok bs, r') =>
          if bs.isEmpty then ([], some (.ok ()))
          else
            let (more, ending) := readUntil r' ns
            (bs ++ more, ending)

/-- One read in a non-empty buffer: while there are bytes it brings the next ones,
and after that it reports the ending. -/
theorem Yields.readUntil_cons {bytes : Bytes} {ending : Except Failure Unit}
    (h : Yields r bytes ending) {n : Nat} (hn : 0 < n) (ns : List Nat) :
    r.readUntil (n :: ns) =
      if bytes = [] then ([], some ending)
      else (bytes.take n ++ ((r.read n).2.readUntil ns).1, ((r.read n).2.readUntil ns).2) := by
  obtain ⟨-, -, hanswer, -⟩ := h.read n
  have hread : r.read n = ((r.read n).1, (r.read n).2) := rfl
  rw [readUntil, hread, hanswer hn]
  by_cases hbytes : bytes = []
  · cases ending <;> simp [hbytes, Except.map]
  · have hfront : bytes.take n ≠ [] := by simp [hbytes, hn.ne']
    simp [hbytes, hfront]

/-- Reads that have come to an end have brought everything, however large their
buffers were. -/
theorem Yields.readUntil_ended {bytes got : Bytes} {ending e : Except Failure Unit}
    (h : Yields r bytes ending) {ns : List Nat} (hns : ∀ n ∈ ns, 0 < n)
    (hrun : r.readUntil ns = (got, some e)) : got = bytes ∧ e = ending := by
  induction ns generalizing r bytes got with
  | nil => simp [readUntil] at hrun
  | cons n ns ih =>
      rw [h.readUntil_cons (hns n List.mem_cons_self)] at hrun
      split at hrun
      · rename_i hbytes
        obtain ⟨rfl, hend⟩ := Prod.mk.inj hrun
        exact ⟨hbytes.symm, (Option.some.inj hend).symm⟩
      · obtain ⟨rfl, hend⟩ := Prod.mk.inj hrun
        obtain ⟨hmore, rfl⟩ := ih (h.read n).1
          (fun m hm => hns m (List.mem_cons_of_mem n hm)) (Prod.ext rfl hend)
        refine ⟨?_, rfl⟩
        calc bytes.take n ++ ((r.read n).2.readUntil ns).1
            = bytes.take n ++ bytes.drop n := congrArg _ hmore
          _ = bytes := List.take_append_drop n bytes

/-- More reads than there are bytes come to an end. -/
theorem Yields.readUntil_reached {bytes : Bytes} {ending : Except Failure Unit}
    (h : Yields r bytes ending) {ns : List Nat} (hns : ∀ n ∈ ns, 0 < n)
    (hmany : bytes.length < ns.length) : r.readUntil ns = (bytes, some ending) := by
  induction ns generalizing r bytes with
  | nil => simp at hmany
  | cons n ns ih =>
      have hn := hns n List.mem_cons_self
      rw [h.readUntil_cons hn]
      split
      · rename_i hbytes
        rw [hbytes]
      · rename_i hbytes
        have hfewer : (bytes.drop n).length < ns.length := by
          have := List.length_pos_iff.2 hbytes
          rw [List.length_cons] at hmany
          rw [List.length_drop]
          omega
        rw [ih (h.read n).1 (fun m hm => hns m (List.mem_cons_of_mem n hm)) hfewer,
          List.take_append_drop]

/-- An answer that does not fill its buffer is the last one with anything in it. -/
theorem Brings.ended_of_short {bytes bs : Bytes} {ending : Except Failure Unit}
    (h : r.Brings bytes ending) {ns : List Nat} {n : Nat}
    (hread : ((r.reads ns).2.read n).1 = .ok bs) (hshort : bs.length < n) :
    bytes.length ≤ ns.sum + n := by
  rw [h.answer ns (Nat.zero_lt_of_lt hshort)] at hread
  split at hread
  · obtain rfl := Except.ok.inj hread
    rw [List.length_take, List.length_drop] at hshort
    omega
  · omega

/-- In a sound layout, what is read does not depend on how it is sliced.  Readers
on two sources that hand out the same bytes, in pieces of any sizes and with any
interruptions, bring the same bytes and then the same ending: two schedules of
non-empty reads that come to an end agree on both, and every schedule comes to an
end that has more reads than there are bytes.  And whatever the source, an answer
that does not fill its buffer is followed, at the next non-empty buffer, by the
end of the stream or a failure. -/
theorem reading_independent_of_slices {l : Layout} (hl : l.check = .ok ())
    (opener : Opener σ) (t : σ) :
    (∀ s s' : Source, s.Flows → s'.Flows → s.bytes = s'.bytes →
      ∃ r r' bytes ending, start s opener t l = .ok r ∧ start s' opener t l = .ok r' ∧
        r.Brings bytes ending ∧ r'.Brings bytes ending ∧
        (∀ ns ns', (∀ n ∈ ns, 0 < n) → (∀ n ∈ ns', 0 < n) →
          ∀ got got' e e', r.readUntil ns = (got, some e) →
            r'.readUntil ns' = (got', some e') → got = got' ∧ e = e') ∧
        ∀ ns, (∀ n ∈ ns, 0 < n) → bytes.length < ns.length →
          r.readUntil ns = (bytes, some ending) ∧
            r'.readUntil ns = (bytes, some ending)) ∧
    ∀ s r, start s opener t l = .ok r → ∀ ns n bs,
      ((r.reads ns).2.read n).1 = .ok bs → bs.length < n → ∀ k m, 0 < m →
        ((r.reads (ns ++ n :: List.replicate k 0)).2.read m).1 = .ok [] ∨
          ∃ f, ((r.reads (ns ++ n :: List.replicate k 0)).2.read m).1 = .error f := by
  have hstart (s : Source) :
      start s opener t l = .ok ⟨l, opener, t, s, [], 1, .reading⟩ := by
    simp [start, hl]
  constructor
  · intro s s' hflows hflows' hbytes
    obtain ⟨bytes, ending, hyields⟩ :=
      exists_yields ⟨l, opener, t, s, [], 1, .reading⟩ hl
    have halike : s.Alike s' := ⟨hflows, hflows', hbytes⟩
    have hyields' := hyields.of_alike hl halike
    refine ⟨_, _, bytes, ending, hstart s, hstart s', hyields.brings, hyields'.brings,
      ?_, ?_⟩
    · intro ns ns' hns hns' got got' e e' hrun hrun'
      obtain ⟨rfl, rfl⟩ := hyields.readUntil_ended hns hrun
      obtain ⟨rfl, rfl⟩ := hyields'.readUntil_ended hns' hrun'
      exact ⟨rfl, rfl⟩
    · intro ns hns hmany
      exact ⟨hyields.readUntil_reached hns hmany, hyields'.readUntil_reached hns hmany⟩
  · intro s r hr ns n bs hread hshort k m hm
    obtain rfl := Except.ok.inj ((hstart s).symm.trans hr)
    obtain ⟨bytes, ending, hyields⟩ :=
      exists_yields ⟨l, opener, t, s, [], 1, .reading⟩ hl
    have hended := hyields.brings.ended_of_short hread hshort
    rw [hyields.brings.answer _ hm, if_neg (by simp; omega)]
    cases ending with
    | error f => exact .inr ⟨f, rfl⟩
    | ok u => exact .inl rfl

/-- A sealed stream of two bytes, handed out in pieces that cut its frames. -/
def slicedSample : Source :=
  [.data [4, 1], .failure ⟨.interrupted, none⟩, .data [97, 98, 255, 2], .data [],
    .data [0, 255]]

/-- The sample, read in one go and read slice by slice. -/
theorem sample_slices :
    Layout.standard.check = .ok () ∧
      (Source.ofBytes [4, 1, 97, 98, 255, 2, 0, 255]).Flows ∧ slicedSample.Flows ∧
      slicedSample.bytes = [4, 1, 97, 98, 255, 2, 0, 255] ∧
      ∃ r r', start (.ofBytes [4, 1, 97, 98, 255, 2, 0, 255]) (Chunk.tagOpener [255] 1) ()
          Layout.standard = .ok r ∧
        start slicedSample (Chunk.tagOpener [255] 1) () Layout.standard = .ok r' ∧
        r.readUntil [8, 8, 8] = ([97, 98], some (.ok ())) ∧
        r'.readUntil [1, 1, 1] = r.readUntil [8, 8, 8] := by
  have hflows : slicedSample.Flows := by
    simp [slicedSample, Source.Flows, Source.Event.Flows, IoError.isInterrupted]
  have hwhole := Source.flows_ofBytes [4, 1, 97, 98, 255, 2, 0, 255]
  obtain ⟨hslices, -⟩ := reading_independent_of_slices (l := Layout.standard) rfl
    (Chunk.tagOpener [255] 1) ()
  obtain ⟨r, r', bytes, ending, hstart, hstart', hbrings, -, -, hmany⟩ :=
    hslices _ slicedSample hwhole hflows (by decide)
  obtain rfl := Except.ok.inj hstart
  -- Two reads of the first source say what is to be read.
  obtain ⟨rfl, hbytes⟩ := @Brings.whole_of_empty _ _ _ _ hbrings [8] 8 (by decide) rfl
  obtain rfl : [97, 98] = bytes := hbytes
  have hread := (hmany [8, 8, 8] (by decide) (by decide)).1
  have hread' := (hmany [1, 1, 1] (by decide) (by decide)).2
  exact ⟨rfl, hwhole, hflows, by decide, _, r', hstart, hstart', hread,
    hread'.trans hread.symm⟩

end Reader

end SealedStream
