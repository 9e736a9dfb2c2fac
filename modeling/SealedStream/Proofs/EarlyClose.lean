import SealedStream.Proofs.ChunkLimit
import SealedStream.Proofs.Deletion

/-!
# What a successful close says

A reader can be closed with success as soon as it has taken the frame that ends
its stream.  A framed stream ends with a frame that holds no payload, and the
frame is not taken before somebody asks for more than there is: when `close`
succeeds, everything has been handed out.

A stream of fixed-size chunks ends with a chunk that may hold payload.  It is
opened as soon as a byte behind the full chunks is asked for, and from then on
`close` succeeds, however much of the payload has not been handed out.
-/

namespace SealedStream

namespace Reader

variable {σ : Type} {r r' : Reader σ}

/-! ## How far a reader can be read before its stream ends -/

/-- The reader hands out these bytes before it takes the frame that ends its
stream, whatever else that frame holds. -/
inductive Finishes : Reader σ → (front : Bytes) → Prop
  | ends {r r' : Reader σ} :
      r.phase = .reading → pull { r with pending := [] } = (.ok (), r') →
      r'.phase = .terminated → Finishes r r.pending
  | goesOn {r r' : Reader σ} {front : Bytes} :
      r.phase = .reading → pull { r with pending := [] } = (.ok (), r') →
      r'.source.left < r.source.left → Finishes r' front →
      Finishes r (r.pending ++ front)

theorem Finishes.reading {front : Bytes} (h : Finishes r front) : r.phase = .reading := by
  cases h with
  | ends hphase | goesOn hphase => exact hphase

theorem Finishes.of_pull (hl : r.layout.check = .ok ()) (hphase : r.phase = .reading)
    (hpull : pull { r with pending := [] } = (.ok (), r')) {front : Bytes}
    (h : Finishes r' front) : Finishes r (r.pending ++ front) := by
  rcases ((pull_ok (r := { r with pending := [] }) hl hpull).progress hphase).2.2 with
    hended | ⟨-, hleft⟩
  · simp [h.reading] at hended
  · exact .goesOn hphase hpull hleft h

/-- A reader that asks for no more than the front goes on reading; one that asks for
more takes the frame that ends the stream. -/
theorem Finishes.supply {front : Bytes} (h : Finishes r front) {k : Nat}
    (hk : r.source.left < k) (want : Nat) (got : Bytes) :
    (want ≤ front.length → Finishes (supply k want got r).2 (front.drop want)) ∧
      (front.length < want → (supply k want got r).2.phase = .terminated) := by
  induction h generalizing k want got with
  | @ends r r' hphase hpull hended =>
      refine ⟨fun hle => ?_, fun hlt => ?_⟩
      · rw [supply_at_hand (.inl hle)]
        exact .ends hphase hpull hended
      · -- The frame that ends the stream is taken, and no other after it.
        obtain ⟨k, rfl⟩ := Nat.exists_eq_succ_of_ne_zero (Nat.ne_zero_of_lt hk)
        rw [supply_pull_ok hphase hlt hpull, supply_at_hand (.inr hended)]
        exact hended
  | @goesOn r r' front hphase hpull hleft hrest ih =>
      by_cases henough : want ≤ r.pending.length
      · rw [supply_at_hand (.inl henough), List.drop_append_of_le_length henough]
        refine ⟨fun _ => .goesOn hphase hpull hleft hrest, fun hlt => ?_⟩
        rw [List.length_append] at hlt
        omega
      · obtain ⟨k, rfl⟩ := Nat.exists_eq_succ_of_ne_zero (Nat.ne_zero_of_lt hk)
        have hshort := Nat.lt_of_not_le henough
        obtain ⟨hgoes, hends⟩ := ih (k := k) (by omega) (want - r.pending.length)
          (got ++ r.pending)
        rw [supply_pull_ok hphase hshort hpull, List.drop_append,
          List.drop_eq_nil_of_le hshort.le, List.nil_append, List.length_append]
        exact ⟨fun hle => hgoes (by omega), fun hlt => hends (by omega)⟩

theorem Finishes.read {front : Bytes} (h : Finishes r front) (n : Nat) :
    (n ≤ front.length → Finishes (r.read n).2 (front.drop n)) ∧
      (front.length < n → (r.read n).2.phase = .terminated) := by
  have hread : r.read n = Reader.supply (weight r.source) n [] r := by
    simp [Reader.read, h.reading]
  rw [hread]
  exact h.supply (by unfold weight; omega) n []

/-- A stream that has ended stays so until the reader is closed. -/
theorem reads_terminated (hphase : r.phase = .terminated) (ns : List Nat) :
    (r.reads ns).2.phase = .terminated := by
  induction ns generalizing r with
  | nil => exact hphase
  | cons n ns ih =>
      refine ih ?_
      simp only [hphase, supply_at_hand (.inr hphase)]

/-- Reads of any sizes: the stream ends when more than the front has been asked for. -/
theorem Finishes.reads {front : Bytes} (h : Finishes r front) (ns : List Nat) :
    (ns.sum ≤ front.length → (r.reads ns).2.phase = .reading) ∧
      (front.length < ns.sum → (r.reads ns).2.phase = .terminated) := by
  induction ns generalizing r front with
  | nil => exact ⟨fun _ => h.reading, fun hlt => absurd hlt (Nat.not_lt_zero _)⟩
  | cons n ns ih =>
      obtain ⟨hgoes, hends⟩ := h.read n
      simp only [Reader.reads, List.sum_cons]
      by_cases hle : n ≤ front.length
      · obtain ⟨hgoes', hends'⟩ := ih (hgoes hle)
        rw [List.length_drop] at hgoes' hends'
        exact ⟨fun _ => hgoes' (by omega), fun _ => hends' (by omega)⟩
      · exact ⟨fun _ => by omega, fun _ => reads_terminated (hends (by omega)) ns⟩

/-- Closing succeeds exactly if more than the front has been asked for. -/
theorem Finishes.close_ok_iff {front : Bytes} (h : Finishes r front)
    (ns : List Nat) : (r.reads ns).2.close.1 = .ok () ↔ front.length < ns.sum := by
  obtain ⟨hgoes, hends⟩ := h.reads ns
  rw [Reader.close_ok_iff]
  refine ⟨fun hphase => ?_, hends⟩
  by_contra hle
  simp [hgoes (Nat.le_of_not_lt hle)] at hphase

/-! ## Framed streams -/

/-- The frame that ends a framed stream holds no payload. -/
theorem pending_of_framed_end (hl : r.layout.check = .ok ())
    (hlength : r.layout.length? ≠ none) (hphase : r.phase = .reading)
    (hpull : pull { r with pending := [] } = (.ok (), r')) (hended : r'.phase = .terminated) :
    r'.pending = [] := by
  cases pull_ok (r := { r with pending := [] }) hl hpull with
  | terminator | sealedEnd => rfl
  | payload | numbered => simp [hphase] at hended
  | short hnone => exact (hlength hnone).elim

/-- A framed stream is read to its end before it ends. -/
theorem Yields.finishes {bytes : Bytes} (h : Yields r bytes (.ok ()))
    (hl : r.layout.check = .ok ()) (hlength : r.layout.length? ≠ none)
    (hphase : r.phase = .reading) : Finishes r bytes := by
  generalize hending : (.ok () : Except Failure Unit) = ending at h
  induction h with
  | terminated hother | closed hother | failed hother => simp [hphase] at hother
  | cut => simp at hending
  | @more r r' bytes ending hphase hpull hnext hrest ih =>
      have hlayout := ((pull_ok (r := { r with pending := [] }) hl hpull).progress hphase).1
      rcases hnext with hended | ⟨hgoes, -⟩
      · have hnone := pending_of_framed_end hl hlength hphase hpull hended
        rw [(hrest.at_end hended).1, hnone, List.append_nil]
        exact .ends hphase hpull hended
      · refine .of_pull hl hphase hpull (ih ?_ ?_ hgoes hending)
        · rw [hlayout]
          exact hl
        · rw [hlayout]
          exact hlength

/-- In front of chunks without numbers, one of which is past the limit, the reading
fails. -/
theorem Facing.fails_unnumbered {form : IntForm} {record : List Sealing} {tail : Bytes}
    (h : Facing r record tail) (hlength : r.layout.length? = some form)
    (hcounter : r.layout.counter? = none) (hne : ∀ c ∈ record, c.chunk ≠ [])
    (hpast : ¬ ∀ c ∈ record, r.layout.Admits r.opener.overhead c.chunk) :
    ∃ bytes f, Yields r bytes (.error f) := by
  induction record generalizing r with
  | nil => simp at hpast
  | cons c record ih =>
      have hmarker : ¬ (c.chunk = [] ∧ r.layout.counter? = none) :=
        fun hboth => hne c List.mem_cons_self hboth.1
      by_cases hadmits : r.layout.Admits r.opener.overhead c.chunk
      · have htakes : r.Takes c.chunk := by
          simp only [Takes, hlength]
          exact ⟨hmarker, hadmits⟩
        obtain ⟨source, codec, hpull, hnext⟩ := Facing.next_unnumbered h hcounter htakes
        obtain ⟨bytes, f, hyields⟩ := ih hnext hlength hcounter
          (fun d hd => hne d (List.mem_cons_of_mem c hd))
          (fun hrest => hpast (List.forall_mem_cons.2 ⟨hadmits, hrest⟩))
        exact ⟨_, f, .of_pull h.sound h.reading hpull hyields⟩
      · obtain ⟨limit, -, hyields⟩ := h.refused hlength hmarker hadmits
        exact ⟨_, _, hyields⟩

/-! ## Streams of fixed-size chunks -/

/-- In front of full chunks and one that is not full, only the payload of the full
ones is handed out before the stream ends. -/
theorem Facing.finishes {data : List Sealing} {last : Sealing}
    (h : Facing r (data ++ [last]) []) (hlength : r.layout.length? = none)
    (hroom : r.layout.Allocatable r.opener.overhead)
    (htakes : ∀ c ∈ data, r.Takes c.chunk) (hshort : last.chunk.length < r.fullChunk)
    (hoverhead : r.opener.overhead ≤ last.chunk.length) :
    Finishes r (r.pending ++ (data.map Sealing.text).flatten) := by
  have hback : CarriesBack (Finishes (σ := σ)) [] :=
    fun h hpull hrest => .of_pull h.sound h.reading hpull hrest
  rw [← List.append_nil (data.map Sealing.text).flatten]
  refine h.back_unnumbered hback (Layout.counter_eq_none h.sound hlength) htakes [] ?_
  intro source codec pending hend
  obtain ⟨source', codec', hpull⟩ := hend.pull_last hlength hroom hshort hoverhead
  rw [List.append_nil]
  exact .ends hend.reading hpull rfl

end Reader

namespace Session

variable {σ τ : Type} {S : Session σ} {opener : Opener τ} {t : τ} {source : Source}
  {form : IntForm}

/-- How much of the plaintext is handed out before a reader takes the frame that ends
the stream: everything where lengths are written, the full chunks otherwise. -/
def beforeEnd (S : Session σ) : Nat :=
  if S.layout.lengthPrefix then S.plaintext.length
  else S.plaintext.length / S.layout.bufferSize * S.layout.bufferSize

/-- A session that is not within the limit of its layout is not read to its end. -/
theorem fails_past_limit (hlength : S.layout.length? = some form)
    (hmatched : Matched S.sealer S.codec opener t) (hflows : source.Flows)
    (hbytes : source.bytes = S.output) (hpast : ¬ S.WithinLimit) :
    ∃ bytes f, (S.reader source opener t).Yields bytes (.error f) := by
  have hrefused : ¬ ∀ c ∈ S.record, S.layout.Admits opener.overhead c.chunk :=
    fun hadmits => hpast fun _ => (admits_iff hlength hmatched).1 hadmits
  have hfacing := facing hmatched hflows S.layout.endMark (by rw [hbytes, S.output_frames])
  cases hcounter : S.layout.counter? with
  | none =>
      refine hfacing.fails_unnumbered hlength hcounter (fun c hc hnil => ?_) hrefused
      exact S.no_marker hlength hmatched hc ⟨hnil, hcounter⟩
  | some number =>
      obtain ⟨payloads, data, last, hcounted⟩ := S.counted hlength hcounter
      rw [hcounted.record_eq] at hfacing hrefused
      have hcount := hcounted.count_lt
      obtain ⟨bytes, f, hyields, -⟩ := hfacing.gap hlength hcounter (List.Sublist.refl data)
        hcounted.texts (by simp only [reader]; omega) Nat.one_ne_zero
        (fun hgood => hrefused hgood.2)
      exact ⟨_, f, hyields⟩

theorem FixedSize.length_front {data : List Sealing} {last : Sealing}
    (h : S.FixedSize data last) :
    (data.map Sealing.text).flatten.length = data.length * S.layout.bufferSize := by
  have hsizes : (data.map Sealing.text).map List.length =
      data.map fun _ => S.layout.bufferSize := by
    rw [List.map_map]
    exact List.map_congr_left h.full
  rw [List.length_flatten, hsizes]
  simp

/-- What comes before the last chunk is a whole number of full ones. -/
theorem FixedSize.beforeEnd_eq {data : List Sealing} {last : Sealing}
    (h : S.FixedSize data last) :
    S.beforeEnd = (data.map Sealing.text).flatten.length := by
  have hframed : S.layout.lengthPrefix = false := by simpa [Layout.length?] using h.length_eq
  have hshort := h.short
  have hlength : S.plaintext.length =
      data.length * S.layout.bufferSize + last.text.length := by
    rw [h.plaintext_eq, h.record_eq, ← h.length_front]
    simp
  have hfull : S.plaintext.length / S.layout.bufferSize = data.length := by
    rw [hlength]
    exact Nat.div_eq_of_lt_le (Nat.le_add_right _ _) (by rw [Nat.succ_mul]; omega)
  rw [beforeEnd, hframed, if_neg Bool.false_ne_true, hfull, h.length_front]

/-- A session within the limit of its layout is read to its end, and it ends when
more is asked for than comes before its end. -/
theorem finishes (hmatched : Matched S.sealer S.codec opener t) (hlimit : S.WithinLimit)
    (hflows : source.Flows) (hbytes : source.bytes = S.output) :
    ∃ front, (S.reader source opener t).Finishes front ∧ front.length = S.beforeEnd := by
  cases hkind : S.layout.lengthPrefix with
  | true =>
      have hyields := yields hmatched hlimit hflows hbytes
      have hlength := Layout.length?_of_prefix hkind
      refine ⟨S.plaintext, hyields.finishes S.sound ?_ rfl, ?_⟩
      · simp [reader, hlength]
      · simp [beforeEnd, hkind]
  | false =>
      have hlength : S.layout.length? = none := by simp [Layout.length?, hkind]
      obtain ⟨data, last, hfixed⟩ := S.fixedSize hlength
      obtain ⟨hfacing, htakes, hshort, hoverhead⟩ := hfixed.facing hmatched hflows hbytes
      exact ⟨_, hfacing.finishes hlength (S.room hmatched) htakes hshort hoverhead,
        hfixed.beforeEnd_eq.symm⟩

/-- Closing after reads of any sizes succeeds exactly if the session is within the
limit of its layout and the reads have asked for more than comes before its end. -/
theorem close_ok_iff (hmatched : Matched S.sealer S.codec opener t) (hflows : source.Flows)
    (hbytes : source.bytes = S.output) (ns : List Nat) :
    ((S.reader source opener t).reads ns).2.close.1 = .ok () ↔
      S.WithinLimit ∧ S.beforeEnd < ns.sum := by
  by_cases hlimit : S.WithinLimit
  · obtain ⟨front, hfinishes, hfront⟩ := finishes hmatched hlimit hflows hbytes
    rw [hfinishes.close_ok_iff ns, hfront]
    simp [hlimit]
  · have hkind : S.layout.lengthPrefix = true := by
      by_contra hoff
      exact hlimit fun hon => (hoff hon).elim
    obtain ⟨bytes, f, hyields⟩ :=
      fails_past_limit (Layout.length?_of_prefix hkind) hmatched hflows hbytes hlimit
    have hrefuses := (hyields.brings.no_good_end ns).1
    simp [hlimit, hrefuses]

/-- How much a successful close says.  Whatever sizes of reads came before it, on
any source that hands out the output of a session, it succeeds exactly if the chunks
were within the limit and more has been asked for than comes before the frame that
ends the stream.  Everything has been handed out then, with one exception: in a
stream of fixed-size chunks it succeeds from the first byte behind the full chunks
on, and what of the last chunk has not been asked for is left behind. -/
theorem close_ok_iff_end_taken (S : Session σ) {opener : Opener τ} {t : τ}
    (hmatched : Matched S.sealer S.codec opener t) {source : Source} (hflows : source.Flows)
    (hbytes : source.bytes = S.output) :
    ∃ r, Reader.start source opener t S.layout = .ok r ∧
      ∀ ns,
        ((r.reads ns).2.close.1 = .ok () ↔ S.WithinLimit ∧ S.beforeEnd < ns.sum) ∧
        ((r.reads ns).2.close.1 = .ok () →
          Reader.delivered (r.reads ns).1 = S.plaintext.take ns.sum) ∧
        ((r.reads ns).2.close.1 = .ok () ∧ Reader.delivered (r.reads ns).1 ≠ S.plaintext ↔
          S.layout.lengthPrefix = false ∧ S.beforeEnd < ns.sum ∧
            ns.sum < S.plaintext.length) := by
  refine ⟨_, S.start_reader source opener t, fun ns => ?_⟩
  have hclose := close_ok_iff hmatched hflows hbytes ns
  have hdelivered : S.WithinLimit → Reader.delivered
      ((S.reader source opener t).reads ns).1 = S.plaintext.take ns.sum :=
    fun hlimit => (yields hmatched hlimit hflows hbytes).brings.delivered ns
  refine ⟨hclose, fun hok => hdelivered (hclose.1 hok).1, ?_⟩
  constructor
  · rintro ⟨hok, hleft⟩
    obtain ⟨hlimit, hpast⟩ := hclose.1 hok
    have hshort : ns.sum < S.plaintext.length := by
      by_contra hall
      rw [hdelivered hlimit, List.take_of_length_le (Nat.le_of_not_lt hall)] at hleft
      exact hleft rfl
    refine ⟨?_, hpast, hshort⟩
    -- Where lengths are written, nothing comes with the frame that ends the stream.
    by_contra hkind
    rw [beforeEnd, if_pos (Bool.eq_true_of_not_eq_false hkind)] at hpast
    omega
  · rintro ⟨hkind, hpast, hshort⟩
    have hlimit : S.WithinLimit := fun hframed => by simp [hkind] at hframed
    refine ⟨hclose.2 ⟨hlimit, hpast⟩, fun hall => ?_⟩
    have hlength := congrArg List.length ((hdelivered hlimit).symm.trans hall)
    rw [List.length_take] at hlength
    omega

/-- Six bytes in chunks of four, of which the last holds two. -/
def partSample : Session Unit where
  layout :=
    { Layout.standard with lengthPrefix := false, chunkCounter := false, bufferSize := 4 }
  sealer := Chunk.tagSealer [255] 1
  codec := ()
  sink := .perfect
  writes := [[97, 98, 99, 100, 101, 102]]
  final :=
    { layout :=
        { Layout.standard with lengthPrefix := false, chunkCounter := false, bufferSize := 4 }
      sealer := (Chunk.tagSealer [255] 1).recording
      codec := ⟨(), [⟨[97, 98, 99, 100], [97, 98, 99, 100, 255]⟩,
        ⟨[101, 102], [101, 102, 255]⟩]⟩
      sink :=
        { writes := [], flushes := []
          pieces := [[101, 102, 255], [97, 98, 99, 100, 255]]
          writeCalls := 2, flushCalls := 1 }
      pending := []
      nextCounter := 1
      phase := .closed }
  sink_empty := Sink.bytes_perfect
  completed := ⟨_, _, rfl, rfl, rfl⟩

/-- Of the sample, four bytes leave the reader open; seven bytes are more than there
are, and closing succeeds with everything handed out. -/
theorem partSample_closed :
    Matched partSample.sealer partSample.codec (Chunk.tagOpener [255] 1) () ∧
      ∃ r, Reader.start (.ofBytes [97, 98, 99, 100, 255, 101, 102, 255])
          (Chunk.tagOpener [255] 1) () partSample.layout = .ok r ∧
        (r.reads [4]).2.close.1 ≠ .ok () ∧
        (r.reads [4, 3]).2.close.1 = .ok () ∧
          Reader.delivered (r.reads [4, 3]).1 = [97, 98, 99, 100, 101, 102] := by
  have hmatched : Matched partSample.sealer partSample.codec (Chunk.tagOpener [255] 1) () :=
    Chunk.tag_matched [255]
  obtain ⟨r, hstart, hclose⟩ := partSample.close_ok_iff_end_taken hmatched
    (Source.flows_ofBytes [97, 98, 99, 100, 255, 101, 102, 255]) (by decide)
  have hopen : ¬ (r.reads [4]).2.close.1 = .ok () := fun hok =>
    absurd ((hclose [4]).1.1 hok).2 (by decide)
  have hok : (r.reads [4, 3]).2.close.1 = .ok () :=
    (hclose [4, 3]).1.2 ⟨fun hframed => absurd hframed (by decide), by decide⟩
  exact ⟨hmatched, r, hstart, hopen, hok, (hclose [4, 3]).2.1 hok⟩

/-- Closing succeeds after five of the six bytes. -/
theorem partSample_closed_early :
    Matched partSample.sealer partSample.codec (Chunk.tagOpener [255] 1) () ∧
      partSample.plaintext = [97, 98, 99, 100, 101, 102] ∧
      ∃ r, Reader.start (.ofBytes partSample.output) (Chunk.tagOpener [255] 1) ()
          partSample.layout = .ok r ∧
        Reader.delivered (r.reads [5]).1 = [97, 98, 99, 100, 101] ∧
          (r.reads [5]).2.close.1 = .ok () :=
  ⟨Chunk.tag_matched [255], rfl, _, partSample.start_reader _ _ _, rfl, rfl⟩

end Session

end SealedStream
