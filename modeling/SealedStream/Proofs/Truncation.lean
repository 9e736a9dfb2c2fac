import SealedStream.Proofs.AnySource
import SealedStream.Proofs.RoundTrip
import SealedStream.Proofs.Spelling

/-!
# Streams that are cut short

The output of a session can be cut at any byte: within a length, within a chunk,
between two frames, or within what ends the stream.  With lengths on the wire the
reader hands out the payloads of the chunks whose frames are whole and then says
that the stream is truncated, wherever the cut is.

In a stream of fixed-size chunks a piece of a chunk looks like a last chunk that
is not full.  There it is the opener that has to refuse it; only a cut between
two chunks is seen by the reader itself.
-/

namespace SealedStream

/-! ## Cuts -/

/-- The whole begins with the part and goes on behind it. -/
structure ProperPrefix (part whole : Bytes) : Prop where
  begins : part <+: whole
  goes_on : part ≠ whole

theorem ProperPrefix.length_lt {part whole : Bytes} (h : ProperPrefix part whole) :
    part.length < whole.length :=
  lt_of_le_of_ne h.begins.length_le fun heq => h.goes_on (h.begins.eq_of_length heq)

/-- Two byte strings one behind the other are cut in the first or in the second. -/
theorem ProperPrefix.append_cases {part xs ys : Bytes} (h : ProperPrefix part (xs ++ ys)) :
    ProperPrefix part xs ∨ ∃ rest, part = xs ++ rest ∧ ProperPrefix rest ys := by
  by_cases hshort : part.length < xs.length
  · left
    refine ⟨List.prefix_of_prefix_length_le h.begins (List.prefix_append xs ys) hshort.le, ?_⟩
    rintro rfl
    exact lt_irrefl _ hshort
  · right
    obtain ⟨rest, rfl⟩ := List.prefix_of_prefix_length_le (List.prefix_append xs ys) h.begins
      (Nat.le_of_not_lt hshort)
    refine ⟨rest, rfl, (List.prefix_append_right_inj xs).1 h.begins, ?_⟩
    rintro rfl
    exact h.goes_on rfl

namespace Layout

/-- The same layout with another limit on chunks; only a reader looks at it. -/
def limited (l : Layout) (limit : Nat) : Layout :=
  { l with maxChunkSize := limit }

@[simp] theorem numbered_limited (l : Layout) (limit i : Nat) (payloads : List Bytes) :
    (l.limited limit).numbered i payloads = l.numbered i payloads := by
  induction payloads generalizing i with
  | nil => rfl
  | cons payload payloads ih => exact congrArg _ (ih (i + 1))

/-- How many of the frames of a record lie wholly within so many bytes. -/
def framesWithin (l : Layout) : (record : List Sealing) → (n : Nat) → Nat
  | [], _ => 0
  | c :: record, n =>
      if (l.frame c.chunk).length ≤ n then
        framesWithin l record (n - (l.frame c.chunk).length) + 1
      else 0

/-- A cut keeps the frames that lie within it and a part of what comes next, be
it one more frame or what stands behind all of them. -/
theorem frames_cut (l : Layout) {record : List Sealing} {tail bs : Bytes}
    (h : ProperPrefix bs (l.frames record ++ tail)) :
    ∃ (kept lost : List Sealing) (part : Bytes), record = kept ++ lost ∧
      kept.length = l.framesWithin record bs.length ∧ bs = l.frames kept ++ part ∧
      ((lost = [] ∧ ProperPrefix part tail) ∨
        ∃ c ∈ lost, ProperPrefix part (l.frame c.chunk)) := by
  induction record generalizing bs with
  | nil => exact ⟨[], [], bs, rfl, rfl, rfl, .inl ⟨rfl, h⟩⟩
  | cons c record ih =>
      rw [frames_cons, List.append_assoc] at h
      rcases h.append_cases with hfirst | ⟨rest, rfl, hlater⟩
      · refine ⟨[], c :: record, bs, rfl, ?_, rfl, .inr ⟨c, List.mem_cons_self, hfirst⟩⟩
        have hlt := hfirst.length_lt
        rw [framesWithin, if_neg (by omega), List.length_nil]
      · obtain ⟨kept, lost, part, rfl, hcount, rfl, hpart⟩ := ih hlater
        refine ⟨c :: kept, lost, part, rfl, ?_, by simp, hpart⟩
        rw [framesWithin, if_pos (by simp), List.length_append, Nat.add_sub_cancel_left,
          ← hcount, List.length_cons]

end Layout

namespace Opener

variable {τ : Type}

theorem Opens.of_append {opener : Opener τ} {t : τ} {kept lost : List Sealing}
    (h : opener.Opens t (kept ++ lost)) : opener.Opens t kept := by
  induction kept generalizing t with
  | nil => exact trivial
  | cons c kept ih =>
      obtain ⟨t', hopen, hrest⟩ := h
      exact ⟨t', hopen, ih hrest⟩

/-- At the position of each chunk of the record the opener refuses every proper
beginning of it. -/
def RejectsCuts (opener : Opener τ) : τ → List Sealing → Prop
  | _, [] => True
  | t, c :: record =>
      (∀ part, ProperPrefix part c.chunk →
        ∃ f t', opener.openChunk t part = (.error f, t')) ∧
      ∀ text t', opener.openChunk t c.chunk = (.ok text, t') → RejectsCuts opener t' record

/-- The opener that opens the chunks of a record in order refuses all else. -/
theorem inOrder_rejectsCuts (record : List Sealing) (overhead : Nat) :
    (inOrder record overhead).RejectsCuts 0 record := by
  suffices hfrom : ∀ k, (inOrder record overhead).RejectsCuts k (record.drop k) from hfrom 0
  intro k
  generalize hlater : record.drop k = later
  induction later generalizing k with
  | nil => exact trivial
  | cons c later ih =>
      have hc : record[k]? = some c := by
        rw [← List.head?_drop, hlater, List.head?_cons]
      refine ⟨fun part hpart => ?_, fun text t' hopen => ?_⟩
      · exact ⟨.authenticationFailed, k, by simp [inOrder, hc, hpart.goes_on.symm]⟩
      · obtain rfl := (inOrder_ok hopen).2
        refine ih (k + 1) ?_
        rw [← List.drop_drop, hlater, List.drop_one, List.tail_cons]

end Opener

namespace Reader

variable {σ : Type} {r : Reader σ} {form : IntForm} {chunk : Bytes}

/-! ## Pulling at a cut -/

/-- A source that ends within a length is truncated. -/
theorem pull_cut_length (hlength : r.layout.length? = some form) (hflows : r.source.Flows)
    {n : Nat} (hn : n < form.capacity) (hcut : ProperPrefix r.source.bytes (form.bytes n)) :
    ∃ r', r.pull = (.error .streamTruncated, r') := by
  obtain ⟨source, -, hread⟩ := form.fromSource_of_flows hflows
  rw [IntForm.scan_part hn hcut.begins hcut.goes_on] at hread
  refine ⟨{ r with source := source }, ?_⟩
  -- Without a single byte it is the end of the input, and otherwise half a length.
  by_cases hnone : r.source.bytes = []
  · simp [pull, nextFrame, hlength, lengthFrame, hread, hnone]
  · simp [pull, nextFrame, hlength, lengthFrame, hread, hnone]

/-- A source that ends within a frame is truncated, be it in the length or in the
chunk. -/
theorem pull_cut_frame (hlength : r.layout.length? = some form) (hflows : r.source.Flows)
    (hfits : chunk.length < form.capacity)
    (hadmits : r.layout.Admits r.opener.overhead chunk)
    (hcut : ProperPrefix r.source.bytes (r.layout.frame chunk)) :
    ∃ r', r.pull = (.error .streamTruncated, r') := by
  rw [Layout.frame, hlength] at hcut
  rcases hcut.append_cases with hhead | ⟨body, hbytes, hbody⟩
  · exact pull_cut_length hlength hflows hfits hhead
  · -- The length is whole, so the chunk is asked for and comes short.
    obtain ⟨s₁, hread, hflows₁, hrest⟩ := IntForm.fromSource_bytes_append hflows hfits hbytes
    obtain ⟨s₂, hgather, -, -⟩ := Source.gather_of_flows hflows₁ chunk.length
    have hshort := hbody.length_lt
    rw [hrest, List.take_of_length_le hshort.le] at hgather
    have hdata : ¬ (chunk = [] ∧ r.layout.counter? = none) := by
      rintro ⟨rfl, -⟩
      simp at hshort
    have hwithin : exceeded? (r.layout.chunkLimit? r.opener.overhead) chunk.length = none :=
      Option.filter_eq_none_iff.2 fun limit hmem => by
        simpa using hadmits limit hmem
    refine ⟨{ r with source := s₂ }, ?_⟩
    simp [pull, nextFrame, hlength, lengthFrame, hread, hdata, hwithin, chunkOfLength,
      hgather, hshort]

/-- Where chunks are of a fixed size, a source that ends within a chunk is
truncated, or its piece of the chunk is refused. -/
theorem pull_cut_chunk (hlength : r.layout.length? = none)
    (hroom : r.layout.Allocatable r.opener.overhead) (hflows : r.source.Flows)
    (hoverhead : 0 < r.opener.overhead) (hsize : chunk.length ≤ r.fullChunk)
    (hcut : ProperPrefix r.source.bytes chunk) {f : Failure} {codec : σ}
    (hrefused : r.opener.openChunk r.codec r.source.bytes = (.error f, codec)) :
    ∃ f' r', r.pull = (.error f', r') := by
  obtain ⟨source, hgather, -, -⟩ := Source.gather_of_flows hflows r.fullChunk
  have hshort := hcut.length_lt
  rw [List.take_of_length_le (by omega)] at hgather
  have hpartial : r.source.bytes.length ≠ r.fullChunk := by omega
  by_cases hnone : r.source.bytes = []
  · -- A chunk that is missing altogether: sealing adds something, so even an
    -- empty one would have had some bytes.
    have hfull : r.fullChunk ≠ 0 := by omega
    exact ⟨.streamTruncated, { r with source := source }, by
      simp [pull, nextFrame, hlength, fixedFrame, hroom, fillBuffer, hgather, hnone,
        hfull.symm, hoverhead]⟩
  · -- A piece of a chunk is taken for a last chunk that is not full.
    exact ⟨f, { r with source := source, codec := codec }, by
      simp [pull, nextFrame, hlength, fixedFrame, hroom, fillBuffer, hgather, hnone, hpartial,
        acceptChunk, hrefused]⟩

/-- A reader in a stream of fixed-size chunks that is cut somewhere comes to a
failure.  The induction is on the chunks that are full; the opener may give up
before the cut is reached. -/
theorem fails_on_cut {data : List Sealing} {last : Sealing} (hl : r.layout.check = .ok ())
    (hreading : r.phase = .reading) (hlength : r.layout.length? = none)
    (hflows : r.source.Flows) (hoverhead : 0 < r.opener.overhead)
    (hfull : ∀ c ∈ data, c.chunk.length = r.fullChunk)
    (hshort : last.chunk.length ≤ r.fullChunk)
    (hrejects : r.opener.RejectsCuts r.codec (data ++ [last]))
    (hcut : ProperPrefix r.source.bytes (r.layout.frames (data ++ [last]))) :
    ∃ bytes f, r.Yields bytes (.error f) := by
  have hcounter := Layout.counter_eq_none hl hlength
  by_cases hroom : r.layout.Allocatable r.opener.overhead
  swap
  · exact ⟨_, _, .cut hreading (pull_unallocatable (r := { r with pending := [] }) hlength hroom)⟩
  induction data generalizing r with
  | nil =>
      have hlast : ProperPrefix r.source.bytes last.chunk := by
        simpa [Layout.frame, hlength] using hcut
      obtain ⟨f, codec, hrefused⟩ := hrejects.1 r.source.bytes hlast
      obtain ⟨f', r', hpull⟩ := pull_cut_chunk (r := { r with pending := [] })
        hlength hroom hflows hoverhead hshort hlast hrefused
      exact ⟨_, f', .cut hreading hpull⟩
  | cons c data ih =>
      have hsize := hfull c List.mem_cons_self
      rw [List.cons_append, Layout.frames_cons, Layout.frame, hlength] at hcut
      rcases hcut.append_cases with hfirst | ⟨rest, hbytes, hlater⟩
      · obtain ⟨f, codec, hrefused⟩ := hrejects.1 r.source.bytes hfirst
        obtain ⟨f', r', hpull⟩ := pull_cut_chunk (r := { r with pending := [] })
          hlength hroom hflows hoverhead hsize.le hfirst hrefused
        exact ⟨_, f', .cut hreading hpull⟩
      · obtain ⟨source, hflows', hrest, hpull⟩ := pull_full (r := { r with pending := [] })
          hlength hroom hflows hbytes hsize
        cases hopen : r.opener.openChunk r.codec c.chunk with
        | mk answer codec =>
            cases answer with
            | error f =>
                have hrefused : pull { r with pending := [] } =
                    (.error f, { r with source := source, codec := codec, pending := [] }) := by
                  rw [hpull]
                  simp [acceptChunk, hopen]
                exact ⟨_, f, .cut hreading hrefused⟩
            | ok text =>
                have haccept := acceptChunk_unnumbered
                  (r := { r with source := source, pending := [] }) hcounter hopen
                obtain ⟨bytes, f, hyields⟩ := ih
                  (r := { r with source := source, codec := codec, pending := text })
                  hl hreading hlength hflows' hoverhead
                  (fun c' hc' => hfull c' (List.mem_cons_of_mem c hc')) hshort
                  (hrejects.2 text codec hopen) (by rw [hrest]; exact hlater) hcounter hroom
                exact ⟨_, f, .of_pull hl hreading (hpull.trans haccept) hyields⟩

end Reader

namespace Session

variable {σ τ : Type}

/-- A reader just started on a source, in the layout of a session but with a
limit of its own. -/
def limitedReader (S : Session σ) (limit : Nat) (source : Source) (opener : Opener τ)
    (t : τ) : Reader τ :=
  ⟨S.layout.limited limit, opener, t, source, [], 1, .reading⟩

theorem start_limitedReader (S : Session σ) (limit : Nat) (source : Source)
    (opener : Opener τ) (t : τ) :
    Reader.start source opener t (S.layout.limited limit) =
      .ok (S.limitedReader limit source opener t) :=
  Reader.start_of_sound (show (S.layout.limited limit).check = .ok () from S.sound) source opener t

section Cut

variable {S : Session σ} {limit : Nat} {opener : Opener τ} {t : τ} {source : Source}
  {form : IntForm}

/-- The chunks of a framed session that lie in front of a cut are the numbered
chunks of its first payloads; the cut has left something of what comes next. -/
theorem texts_kept (hlength : S.layout.length? = some form) {kept lost : List Sealing}
    (hrecord : S.record = kept ++ lost) (hlost : lost = [] → S.layout.endMark ≠ []) :
    kept.map Sealing.text =
      S.layout.numbered 1 ((S.layout.payloads S.writes).take kept.length) := by
  have hk : kept.length ≤ (S.layout.numbered 1 (S.layout.payloads S.writes)).length := by
    have hcount := congrArg List.length S.texts_eq
    rw [hrecord, Layout.chunkTexts_framed hlength] at hcount
    simp only [List.length_map, List.length_append] at hcount
    cases hcounter : S.layout.counter? with
    | none =>
        simp only [Layout.endTexts, hcounter, Option.map_none, Option.toList_none,
          List.length_nil] at hcount
        omega
    | some number =>
        -- The last chunk ends the stream, and nothing stands behind it.
        have hpos : 0 < lost.length := List.length_pos_iff.2 fun hnil =>
          hlost hnil (by simp only [Layout.endMark, hlength, hcounter])
        simp only [Layout.endTexts, hcounter, Option.map_some, Option.toList_some,
          List.length_singleton] at hcount
        omega
  rw [Layout.numbered_take, ← List.take_append_of_le_length hk, ← Layout.chunkTexts_framed hlength,
    ← S.texts_eq, hrecord, List.map_append, List.take_left' (List.length_map _)]

/-- Where a framed session is cut: some of its first chunks are left whole, and
behind them stands a part of a frame or of what ends the stream. -/
theorem exists_cut (hlength : S.layout.length? = some form) {bs : Bytes}
    (hcut : ProperPrefix bs S.output) :
    ∃ (kept lost : List Sealing) (part : Bytes), S.record = kept ++ lost ∧
      kept.length = S.layout.framesWithin S.record bs.length ∧
      bs = S.layout.frames kept ++ part ∧
      kept.map Sealing.text =
        S.layout.numbered 1 ((S.layout.payloads S.writes).take kept.length) ∧
      (ProperPrefix part S.layout.endMark ∨
        ∃ c ∈ S.record, ProperPrefix part (S.layout.frame c.chunk)) := by
  rw [S.output_frames] at hcut
  obtain ⟨kept, lost, part, hrecord, hcount, hbytes, hpart⟩ := S.layout.frames_cut hcut
  refine ⟨kept, lost, part, hrecord, hcount, hbytes, texts_kept hlength hrecord ?_, ?_⟩
  · rintro rfl hnil
    rcases hpart with ⟨-, hmark⟩ | ⟨c, hc, -⟩
    · exact absurd hmark.length_lt (by simp [hnil])
    · simp at hc
  · rcases hpart with ⟨-, hmark⟩ | ⟨c, hc, hframe⟩
    · exact .inl hmark
    · refine .inr ⟨c, ?_, hframe⟩
      rw [hrecord]
      exact List.mem_append_right kept hc

/-- A reader on the frames of the first chunks of a session faces these chunks. -/
theorem facing_kept (hmatched : Matched S.sealer S.codec opener t) (hflows : source.Flows)
    {kept lost : List Sealing} (hrecord : S.record = kept ++ lost) {part : Bytes}
    (hbytes : source.bytes = S.layout.frames kept ++ part) :
    (S.limitedReader limit source opener t).Facing kept part := by
  have hopens := hmatched.opens S.ledger.seals
  rw [hrecord] at hopens
  exact {
    sound := S.sound
    reading := rfl
    flows := hflows
    bytes_eq := hbytes
    fits := fun form hform c hc =>
      S.ledger.fits form hform c (hrecord ▸ List.mem_append_left lost hc)
    opens := hopens.of_append }

/-- A reader takes each chunk of a framed session that its own limit admits. -/
theorem takes_limited (hlength : S.layout.length? = some form)
    (hmatched : Matched S.sealer S.codec opener t)
    (hadmits : ∀ c ∈ S.record, (S.layout.limited limit).Admits opener.overhead c.chunk) :
    ∀ c ∈ S.record, (S.limitedReader limit source opener t).Takes c.chunk := by
  intro c hc
  have hlength' : (S.layout.limited limit).length? = some form := hlength
  simp only [Reader.Takes, limitedReader, hlength']
  exact ⟨S.no_marker hlength hmatched hc, hadmits c hc⟩

/-- In front of a part of a frame, or of what ends the stream, a reader yields the
truncation. -/
theorem yields_at_cut (hlength : S.layout.length? = some form)
    (hadmits : ∀ c ∈ S.record, (S.layout.limited limit).Admits opener.overhead c.chunk)
    {part : Bytes} (hpart : ProperPrefix part S.layout.endMark ∨
      ∃ c ∈ S.record, ProperPrefix part (S.layout.frame c.chunk)) {r : Reader τ}
    (hlayout : r.layout = S.layout.limited limit) (hopener : r.opener = opener)
    (h : r.Facing [] part) : r.Yields r.pending (.error .streamTruncated) := by
  have hlength' : r.layout.length? = some form := by
    rw [hlayout]
    exact hlength
  have hbytes : r.source.bytes = part := h.bytes_eq
  rw [← hbytes] at hpart
  obtain ⟨r', hpull⟩ : ∃ r', Reader.pull { r with pending := [] } =
      (.error .streamTruncated, r') := by
    rcases hpart with hmark | ⟨c, hc, hframe⟩
    · cases hcounter : S.layout.counter? with
      | none =>
          simp only [Layout.endMark, hlength, hcounter] at hmark
          exact Reader.pull_cut_length hlength' h.flows form.capacity_pos hmark
      | some number =>
          -- Nothing stands behind a sealed end.
          simp only [Layout.endMark, hlength, hcounter] at hmark
          exact absurd hmark.length_lt (Nat.not_lt_zero _)
    · refine Reader.pull_cut_frame hlength' h.flows (S.ledger.fits form hlength c hc) ?_ ?_
      · rw [hlayout, hopener]
        exact hadmits c hc
      · rw [hlayout]
        exact hframe
  exact .cut h.reading hpull

/-- With lengths a reader on a cut output yields the payloads of the chunks whose
frames are whole, and then the truncation. -/
theorem yields_cut (hlength : S.layout.length? = some form)
    (hmatched : Matched S.sealer S.codec opener t)
    (hadmits : ∀ c ∈ S.record, (S.layout.limited limit).Admits opener.overhead c.chunk)
    (hflows : source.Flows) (hcut : ProperPrefix source.bytes S.output) :
    (S.limitedReader limit source opener t).Yields
      ((S.layout.payloads S.writes).take
        (S.layout.framesWithin S.record source.bytes.length)).flatten
      (.error .streamTruncated) := by
  obtain ⟨kept, lost, part, hrecord, hcount, hbytes, htexts, hpart⟩ := exists_cut hlength hcut
  have hfacing : (S.limitedReader limit source opener t).Facing (kept ++ []) part := by
    rw [List.append_nil]
    exact facing_kept hmatched hflows hrecord hbytes
  have htakes : ∀ c ∈ kept, (S.limitedReader limit source opener t).Takes c.chunk :=
    fun c hc => takes_limited hlength hmatched hadmits c
      (hrecord ▸ List.mem_append_left lost hc)
  rw [← hcount]
  cases hcounter : S.layout.counter? with
  | none =>
      rw [Layout.numbered_of_uncounted hcounter] at htexts
      have hyields := hfacing.unnumbered hcounter htakes [] (.error .streamTruncated)
        fun source codec pending hend => by
          rw [List.append_nil]
          exact yields_at_cut hlength hadmits hpart rfl rfl hend
      simpa [limitedReader, htexts] using hyields
  | some number =>
      obtain ⟨data, last, hcounted⟩ := S.counted_payloads hlength hcounter
      have hbound := hcounted.count_lt
      rw [← Layout.numbered_limited S.layout limit] at htexts
      have hyields := hfacing.numbered hcounter htexts
        (by simp only [limitedReader, List.length_take]; omega) Nat.one_ne_zero htakes []
        (.error .streamTruncated)
        fun source codec pending hend => by
          rw [List.append_nil]
          exact yields_at_cut hlength hadmits hpart rfl rfl hend
      simpa [limitedReader] using hyields

/-- A reader on a cut output of fixed-size chunks yields a failure in the end. -/
theorem yields_failure (hlength : S.layout.length? = none) (hoverhead : 0 < opener.overhead)
    (hsize : ∀ c ∈ S.record, c.chunk.length = c.text.length + opener.overhead)
    (hrejects : opener.RejectsCuts t S.record) (hflows : source.Flows)
    (hcut : ProperPrefix source.bytes S.output) :
    ∃ bytes f, (S.limitedReader limit source opener t).Yields bytes (.error f) := by
  obtain ⟨data, last, hfixed⟩ := S.fixedSize hlength
  rw [hfixed.output_eq] at hcut
  rw [hfixed.record_eq] at hcut hrejects hsize
  refine Reader.fails_on_cut S.sound rfl hlength hflows hoverhead
    ?_ ?_ hrejects hcut
  · intro c hc
    have hchunk := hsize c (List.mem_append_left [last] hc)
    rw [hchunk, hfixed.full c hc]
    rfl
  · have hchunk := hsize last (List.mem_append_right data List.mem_cons_self)
    have hshort := hfixed.short
    show last.chunk.length ≤ S.layout.bufferSize + opener.overhead
    omega

end Cut

/-- A stream that is cut at any byte, be it before the first, is never taken for
a whole one.  With lengths on the wire, codecs that match and no chunk past the
limit of the reader, reading brings the payloads of the chunks whose frames are
whole and then the truncation.  With chunks of a fixed size, sealing that adds
something and an opener that refuses each proper beginning of a chunk at its
position, reading ends in a failure. -/
theorem truncation_noticed (S : Session σ) (limit : Nat) {opener : Opener τ} {t : τ}
    (hframed : S.layout.lengthPrefix = true →
      Matched S.sealer S.codec opener t ∧
        ∀ c ∈ S.record, (S.layout.limited limit).Admits opener.overhead c.chunk)
    (hfixed : S.layout.lengthPrefix = false →
      0 < opener.overhead ∧
        (∀ c ∈ S.record, c.chunk.length = c.text.length + opener.overhead) ∧
        opener.RejectsCuts t S.record)
    {source : Source} (hflows : source.Flows) (hcut : ProperPrefix source.bytes S.output) :
    ∃ r, Reader.start source opener t (S.layout.limited limit) = .ok r ∧
      ∃ bytes failure, r.Brings bytes (.error failure) ∧
        (S.layout.lengthPrefix = true →
          bytes = ((S.layout.payloads S.writes).take
            (S.layout.framesWithin S.record source.bytes.length)).flatten ∧
          failure = .streamTruncated) ∧
        ∀ ns, (r.reads ns).2.close.1 ≠ .ok () ∧
          ∀ n, 0 < n → ((r.reads ns).2.read n).1 ≠ .ok [] := by
  refine ⟨_, S.start_limitedReader limit source opener t, ?_⟩
  cases hkind : S.layout.lengthPrefix with
  | true =>
      obtain ⟨hmatched, hadmits⟩ := hframed hkind
      have hbrings := (yields_cut (Layout.length?_of_prefix hkind) hmatched hadmits hflows
        hcut).brings
      exact ⟨_, _, hbrings, fun _ => ⟨rfl, rfl⟩, hbrings.no_good_end⟩
  | false =>
      obtain ⟨hoverhead, hsize, hrejects⟩ := hfixed hkind
      have hlength : S.layout.length? = none := by simp [Layout.length?, hkind]
      obtain ⟨bytes, f, hyields⟩ : ∃ bytes f,
          (S.limitedReader limit source opener t).Yields bytes (.error f) :=
        yields_failure hlength hoverhead hsize hrejects hflows hcut
      have hbrings := hyields.brings
      exact ⟨bytes, f, hbrings, fun h => absurd h Bool.false_ne_true, hbrings.no_good_end⟩

/-- The sample session cut within its second chunk, and a session of fixed-size
chunks without the empty chunk that ends it. -/
theorem sample_truncation :
    (Matched sample.sealer sample.codec (Chunk.tagOpener [255] 1) () ∧
      ProperPrefix [3, 1, 97, 255, 3, 2] sample.output ∧
      ∃ r, Reader.start (.ofBytes [3, 1, 97, 255, 3, 2]) (Chunk.tagOpener [255] 1) ()
          (sample.layout.limited 2) = .ok r ∧
        r.Brings [97] (.error .streamTruncated)) ∧
    (Opener.inOrder countedSample.record 16).RejectsCuts 0 countedSample.record ∧
      ProperPrefix (97 :: Bytes.zeros 16 ++ 98 :: Bytes.zeros 16) countedSample.output ∧
      ∃ r, Reader.start (.ofBytes (97 :: Bytes.zeros 16 ++ 98 :: Bytes.zeros 16))
          (Opener.inOrder countedSample.record 16) 0 (countedSample.layout.limited 0) = .ok r ∧
        ∃ bytes failure, r.Brings bytes (.error failure) := by
  have hmatched : Matched sample.sealer sample.codec (Chunk.tagOpener [255] 1) () :=
    Chunk.tag_matched [255]
  have hcut : ProperPrefix [3, 1, 97, 255, 3, 2] sample.output := ⟨by decide, by decide⟩
  have hrejects := Opener.inOrder_rejectsCuts countedSample.record 16
  have hcut' : ProperPrefix (97 :: Bytes.zeros 16 ++ 98 :: Bytes.zeros 16)
      countedSample.output := ⟨by decide, by decide⟩
  refine ⟨⟨hmatched, hcut, ?_⟩, hrejects, hcut', ?_⟩
  · obtain ⟨r, hstart, bytes, failure, hbrings, hframed, -⟩ :=
      sample.truncation_noticed 2 (fun _ => ⟨hmatched, by decide⟩)
        (fun h => absurd h (by decide)) (Source.flows_ofBytes _)
        (by rw [Source.bytes_ofBytes]; exact hcut)
    obtain ⟨rfl, rfl⟩ := hframed rfl
    exact ⟨r, hstart, hbrings⟩
  · obtain ⟨r, hstart, bytes, failure, hbrings, -⟩ :=
      countedSample.truncation_noticed 0 (fun h => absurd h (by decide))
        (fun _ => ⟨by decide, by decide, hrejects⟩) (Source.flows_ofBytes _)
        (by rw [Source.bytes_ofBytes]; exact hcut')
    exact ⟨r, hstart, bytes, failure, hbrings⟩

end Session

end SealedStream
