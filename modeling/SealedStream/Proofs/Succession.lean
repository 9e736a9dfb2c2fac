import SealedStream.Proofs.Draining
import SealedStream.Proofs.EarlyClose
import SealedStream.Proofs.Truncation

/-!
# Streams one behind the other

With lengths on the wire a reader takes from its source what its stream consists of, and not a
byte more: each length says how much is to follow it, and the frame that ends the stream is
known when it has been taken.  Whatever stands behind the stream is left in the source, however
the source cuts its bytes.

So a source may hold several streams, one behind the other, and readers started on it in turn
bring them back.
-/

namespace SealedStream

namespace Reader

variable {σ : Type} {r r' : Reader σ} {rest tail bytes : Bytes} {form number : IntForm}
  {c : Sealing}

/-! ## What is left in the source -/

/-- The reader comes to the end of its stream with these bytes left in its source, and takes
nothing of them on the way. -/
inductive Leaves : Reader σ → (rest : Bytes) → Prop
  | ended {r : Reader σ} {rest : Bytes} :
      r.phase = .terminated → r.source.Flows → r.source.bytes = rest → Leaves r rest
  | goesOn {r r' : Reader σ} {rest : Bytes} :
      r.phase = .reading → rest <:+ r.source.bytes →
      pull { r with pending := [] } = (.ok (), r') → Leaves r' rest → Leaves r rest

theorem Leaves.suffix (h : Leaves r rest) : rest <:+ r.source.bytes := by
  cases h with
  | ended _ _ hbytes => exact hbytes ▸ List.suffix_rfl
  | goesOn _ hrest => exact hrest

theorem Leaves.of_terminated (h : Leaves r rest) (hphase : r.phase = .terminated) :
    r.source.Flows ∧ r.source.bytes = rest := by
  cases h with
  | ended _ hflows hbytes => exact ⟨hflows, hbytes⟩
  | goesOn hreading => simp [hphase] at hreading

/-- Supplying bytes changes nothing about what will be left.  The induction is on the pulls
that are still to come. -/
theorem Leaves.supply (h : Leaves r rest) (k want : Nat) (got : Bytes) :
    Leaves (supply k want got r).2 rest := by
  induction h generalizing k want got with
  | @ended r rest hphase hflows hbytes =>
      rw [supply_at_hand (.inr hphase)]
      exact .ended hphase hflows hbytes
  | @goesOn r r' rest hphase hsuffix hpull hlater ih =>
      by_cases henough : want ≤ r.pending.length
      · rw [supply_at_hand (.inl henough)]
        exact .goesOn hphase hsuffix hpull hlater
      · cases k with
        | zero => exact .goesOn hphase hsuffix hpull hlater
        | succ k =>
            rw [supply_pull_ok hphase (Nat.lt_of_not_le henough) hpull]
            exact ih k (want - r.pending.length) (got ++ r.pending)

theorem Leaves.read (h : Leaves r rest) (n : Nat) : Leaves (r.read n).2 rest := by
  have hread : r.read n = Reader.supply (weight r.source) n [] r := by
    cases h with
    | ended hphase | goesOn hphase => simp [Reader.read, hphase]
  rw [hread]
  exact h.supply _ n []

theorem Leaves.reads (h : Leaves r rest) (ns : List Nat) : Leaves (r.reads ns).2 rest := by
  induction ns generalizing r with
  | nil => exact h
  | cons n ns ih => exact ih (h.read n)

/-! ## The end of a stream -/

/-- The reader hands out these bytes, comes to the end of its stream, and leaves the rest. -/
structure EndsBefore (rest : Bytes) (r : Reader σ) (bytes : Bytes) : Prop where
  yields : Yields r bytes (.ok ())
  leaves : Leaves r rest

theorem carriesBack_endsBefore (h : rest <:+ tail) :
    CarriesBack (EndsBefore (σ := σ) rest) tail := by
  intro r r' record bytes hfacing hpull hlater
  refine ⟨.of_pull hfacing.sound hfacing.reading hpull hlater.yields,
    .goesOn hfacing.reading ?_ hpull hlater.leaves⟩
  rw [hfacing.bytes_eq]
  exact h.trans (List.suffix_append _ _)

/-- The bare length zero is taken, and nothing behind it. -/
theorem Facing.ends_bare (h : Facing r [] (form.bytes 0 ++ rest))
    (hlength : r.layout.length? = some form) (hcounter : r.layout.counter? = none) :
    EndsBefore rest r r.pending := by
  obtain ⟨source, hflows, hrest, hpull⟩ := pull_terminator (r := { r with pending := [] })
    hlength hcounter h.flows h.bytes_eq
  refine ⟨h.bare_end hlength hcounter, .goesOn h.reading ?_ hpull (.ended rfl hflows hrest)⟩
  rw [h.bytes_eq]
  exact List.suffix_append _ _

/-- So is the chunk that holds the number zero. -/
theorem Facing.ends_sealed (h : Facing r [c] rest) (hcounter : r.layout.counter? = some number)
    (htakes : r.Takes c.chunk) (htext : c.text = number.bytes 0) :
    EndsBefore rest r r.pending := by
  obtain ⟨source, codec, hflows, hrest, hpull⟩ := h.pull_zero hcounter htakes htext
  refine ⟨h.sealed_end hcounter htakes htext,
    .goesOn h.reading ?_ hpull (.ended rfl hflows hrest)⟩
  rw [h.bytes_eq]
  exact List.suffix_append _ _

/-! ## Reading to the end -/

/-- So does draining the reader: it is a number of reads. -/
theorem Leaves.drainWithin (h : Leaves r rest) (n k : Nat) (pieces : List Bytes) :
    Leaves (r.drainWithin n k pieces).2 rest := by
  induction k generalizing r pieces with
  | zero => exact h
  | succ k ih =>
      have hnext := h.read n
      unfold Reader.drainWithin
      cases hread : r.read n with
      | mk answer r' =>
          rw [hread] at hnext
          cases answer with
          | error f => exact hnext
          | ok bs =>
              dsimp only
              split
              · exact hnext
              · exact ih hnext (bs :: pieces)

/-- Draining with any buffer brings everything and leaves the rest in the source. -/
theorem EndsBefore.drain (h : EndsBefore rest r bytes) {n : Nat} (hn : 0 < n)
    (hreads : bytes.length < r.readsLeft) :
    ∃ drained r', r.drain n = (drained, r') ∧ drained.bytes = bytes ∧
      drained.ending = some (.ok ()) ∧ r'.phase = .terminated ∧ r'.source.Flows ∧
        r'.source.bytes = rest := by
  obtain ⟨pieces, r', hdrain, hall, hclose⟩ := h.yields.drainWithin hn hreads []
  have hended : r'.phase = .terminated := close_ok_iff.1 hclose
  have hleaves : r'.Leaves rest := by
    have hdrained := h.leaves.drainWithin n r.readsLeft []
    rwa [hdrain] at hdrained
  exact ⟨_, r', hdrain, hall, rfl, hended, hleaves.of_terminated hended⟩

end Reader

/-! ## How much a stream holds -/

namespace Layout

theorem length_flatten_numbered (l : Layout) (i : Nat) (payloads : List Bytes) :
    payloads.flatten.length ≤ (l.numbered i payloads).flatten.length := by
  induction payloads generalizing i with
  | nil => exact Nat.le_refl 0
  | cons payload payloads ih =>
      have hlater := ih (i + 1)
      simp only [numbered, List.flatten_cons, List.length_append]
      omega

theorem length_le_frame (l : Layout) (chunk : Bytes) : chunk.length ≤ (l.frame chunk).length := by
  unfold frame
  split
  · exact Nat.le_refl _
  · rw [List.length_append]
    exact Nat.le_add_left _ _

/-- Chunks that are no shorter than their texts make frames that are no shorter. -/
theorem length_flatten_le_frames (l : Layout) {record : List Sealing}
    (h : ∀ c ∈ record, c.text.length ≤ c.chunk.length) :
    (record.map Sealing.text).flatten.length ≤ (l.frames record).length := by
  induction record with
  | nil => exact Nat.le_refl 0
  | cons c record ih =>
      obtain ⟨hfirst, hlater⟩ := List.forall_mem_cons.1 h
      have hframe := l.length_le_frame c.chunk
      have hframes := ih hlater
      simp only [List.map_cons, List.flatten_cons, frames_cons, List.length_append]
      omega

end Layout

namespace Session

variable {σ τ : Type} {S : Session σ} {limit : Nat} {opener : Opener τ} {t : τ}
  {source : Source} {form : IntForm} {rest : Bytes}

/-- The output of a framed session is no shorter than what was written. -/
theorem length_plaintext_le (hlength : S.layout.length? = some form)
    (hmatched : Matched S.sealer S.codec opener t) : S.plaintext.length ≤ S.output.length := by
  have htexts : (S.record.map Sealing.text).flatten.length ≤ (S.layout.frames S.record).length :=
    S.layout.length_flatten_le_frames fun c hc => by
      rw [hmatched.length_chunk S.ledger.seals c hc]
      exact Nat.le_add_right _ _
  rw [S.output_frames, List.length_append]
  cases hcounter : S.layout.counter? with
  | none =>
      rw [(S.uncounted hlength hcounter).plaintext_eq]
      omega
  | some number =>
      obtain ⟨payloads, data, last, h⟩ := S.counted hlength hcounter
      have hnumbered := S.layout.length_flatten_numbered 1 payloads
      rw [← h.texts] at hnumbered
      rw [h.record_eq, List.map_append, List.flatten_append, List.length_append] at htexts
      rw [h.plaintext_eq, h.record_eq]
      omega

/-- A reader on the output of a framed session, with anything behind it, brings what was
written, comes to the end, and leaves what is behind. -/
theorem endsBefore (hlength : S.layout.length? = some form)
    (hmatched : Matched S.sealer S.codec opener t)
    (hadmits : ∀ c ∈ S.record, (S.layout.limited limit).Admits opener.overhead c.chunk)
    (hflows : source.Flows) (hbytes : source.bytes = S.output ++ rest) :
    (S.limitedReader limit source opener t).EndsBefore rest S.plaintext := by
  have htakes : ∀ c ∈ S.record, (S.limitedReader limit source opener t).Takes c.chunk :=
    takes_limited hlength hmatched hadmits
  have hfacing : ∀ tail, S.output ++ rest = S.layout.frames S.record ++ tail →
      (S.limitedReader limit source opener t).Facing S.record tail :=
    fun tail htail => facing_kept hmatched hflows (List.append_nil S.record).symm
      (hbytes.trans htail)
  cases hcounter : S.layout.counter? with
  | none =>
      have h := S.uncounted hlength hcounter
      have hchunks := hfacing (form.bytes 0 ++ rest) (by rw [h.output_eq, List.append_assoc])
      rw [← List.append_nil S.record] at hchunks
      have hends := hchunks.back_unnumbered
        (Reader.carriesBack_endsBefore (List.suffix_append (form.bytes 0) rest)) hcounter htakes []
        fun source codec pending hend => by
          rw [List.append_nil]
          exact hend.ends_bare hlength hcounter
      rw [h.plaintext_eq]
      simpa [limitedReader] using hends
  | some number =>
      obtain ⟨payloads, data, last, h⟩ := S.counted hlength hcounter
      have hcount := h.count_lt
      have hchunks := hfacing rest (by rw [h.output_eq])
      rw [h.record_eq] at hchunks htakes
      have hends := hchunks.back_numbered (Reader.carriesBack_endsBefore List.suffix_rfl)
        hcounter (h.texts.trans (S.layout.numbered_limited limit 1 payloads).symm)
        (by simp only [limitedReader]; omega) Nat.one_ne_zero
        (fun c hc => htakes c (List.mem_append_left [last] hc)) []
        fun source codec pending hend => by
          rw [List.append_nil]
          exact hend.ends_sealed hcounter
            (htakes last (List.mem_append_right data List.mem_cons_self)) h.last_text
      rw [h.plaintext_eq]
      simpa [limitedReader] using hends

end Session

/-! ## One stream after the other -/

/-- A completed session with lengths on the wire, and what its reader is started with. -/
structure Transmission where
  {σ τ : Type}
  session : Session σ
  opener : Opener τ
  codec : τ
  /-- The reader's own limit on chunks. -/
  limit : Nat
  /-- How much the reader is asked for at a time. -/
  block : Nat
  framed : session.layout.lengthPrefix = true
  matched : Matched session.sealer session.codec opener codec
  admits : ∀ c ∈ session.record,
    (session.layout.limited limit).Admits opener.overhead c.chunk
  block_pos : 0 < block

namespace Transmission

/-- Start a reader on a source, read until there is no more, and close it: what has been read,
and the source behind it. -/
def receive (m : Transmission) (source : Source) : Except Failure (Bytes × Source) :=
  match Reader.start source m.opener m.codec (m.session.layout.limited m.limit) with
  | .error f => .error f
  | .ok r =>
      let (drained, r') := r.drain m.block
      match r'.close with
      | (.error f, _) => .error f
      | (.ok (), r'') => .ok (drained.bytes, r''.source)

/-- Receive transmissions from one source, one after the other. -/
def receiveAll : List Transmission → Source → Except Failure (List Bytes × Source)
  | [], source => .ok ([], source)
  | m :: later, source =>
      match m.receive source with
      | .error f => .error f
      | .ok (text, source') =>
          match receiveAll later source' with
          | .error f => .error f
          | .ok (texts, source'') => .ok (text :: texts, source'')

/-- The step: a transmission at the front of a source is received, and what is behind it is
left there. -/
theorem receive_front (m : Transmission) {source : Source} {rest : Bytes} (hflows : source.Flows)
    (hbytes : source.bytes = m.session.output ++ rest) :
    ∃ source', m.receive source = .ok (m.session.plaintext, source') ∧ source'.Flows ∧
      source'.bytes = rest := by
  have hlength := Layout.length?_of_prefix m.framed
  have hends := Session.endsBefore hlength m.matched m.admits hflows hbytes
  have hreads : m.session.plaintext.length <
      (m.session.limitedReader m.limit source m.opener m.codec).readsLeft := by
    have hwritten := Session.length_plaintext_le hlength m.matched
    have hleft := source.length_bytes
    rw [hbytes, List.length_append] at hleft
    simp only [Reader.readsLeft, Session.limitedReader]
    omega
  obtain ⟨drained, r', hdrain, hbrought, -, hended, hflows', hrest⟩ :=
    hends.drain m.block_pos hreads
  refine ⟨r'.source, ?_, hflows', hrest⟩
  simp only [receive, m.session.start_limitedReader, hdrain, Reader.close, hended, hbrought]

/-- The run: transmissions one behind the other are received one after the other.  The
induction is on the transmissions, with the source left open. -/
theorem receiveAll_front (ms : List Transmission) {source : Source} {rest : Bytes}
    (hflows : source.Flows)
    (hbytes : source.bytes = (ms.flatMap fun m => m.session.output) ++ rest) :
    ∃ source', receiveAll ms source = .ok (ms.map fun m => m.session.plaintext, source') ∧
      source'.Flows ∧ source'.bytes = rest := by
  induction ms generalizing source with
  | nil => exact ⟨source, rfl, hflows, hbytes⟩
  | cons m ms ih =>
      rw [List.flatMap_cons, List.append_assoc] at hbytes
      obtain ⟨source₁, hfirst, hflows₁, hbytes₁⟩ := m.receive_front hflows hbytes
      obtain ⟨source₂, hlater, hflows₂, hbytes₂⟩ := ih hflows₁ hbytes₁
      exact ⟨source₂, by simp only [receiveAll, hfirst, hlater, List.map_cons], hflows₂, hbytes₂⟩

/-- A reader stops exactly at the end of its stream.  Let a source hold the output of a
completed session with lengths on the wire, in pieces of any sizes and with interruptions
between them, and anything behind it.  A reader within whose limit the chunks are brings what
was written and then the end of the stream.  Whatever sizes of reads have been made, all of
what is behind is still in the source; and as soon as the stream has ended, which it has when
more has been asked for than was written, there is nothing else in it.

So streams that stand one behind the other are received one after the other, each by draining a
reader of its own and closing it, and what is behind the last is left. -/
theorem streams_received_in_succession :
    (∀ {σ τ : Type} (S : Session σ) {opener : Opener τ} {t : τ} (limit : Nat),
      S.layout.lengthPrefix = true → Matched S.sealer S.codec opener t →
      (∀ c ∈ S.record, (S.layout.limited limit).Admits opener.overhead c.chunk) →
      ∀ {source : Source} {rest : Bytes}, source.Flows → source.bytes = S.output ++ rest →
        ∃ r, Reader.start source opener t (S.layout.limited limit) = .ok r ∧
          r.Brings S.plaintext (.ok ()) ∧
          ∀ ns, rest <:+ (r.reads ns).2.source.bytes ∧
            ((r.reads ns).2.phase = .terminated ↔ S.plaintext.length < ns.sum) ∧
            ((r.reads ns).2.phase = .terminated →
              (r.reads ns).2.source.Flows ∧ (r.reads ns).2.source.bytes = rest)) ∧
    ∀ (ms : List Transmission) {source : Source} {rest : Bytes}, source.Flows →
      source.bytes = (ms.flatMap fun m => m.session.output) ++ rest →
        ∃ source', receiveAll ms source = .ok (ms.map fun m => m.session.plaintext, source') ∧
          source'.Flows ∧ source'.bytes = rest := by
  refine ⟨?_, receiveAll_front⟩
  intro σ τ S opener t limit hframed hmatched hadmits source rest hflows hbytes
  have hlength := Layout.length?_of_prefix hframed
  obtain ⟨hyields, hleaves⟩ := Session.endsBefore hlength hmatched hadmits hflows hbytes
  have hlimited : (S.layout.limited limit).length? = some S.layout.lengthForm := hlength
  have hfinishes := hyields.finishes S.sound (by simp [Session.limitedReader, hlimited]) rfl
  refine ⟨_, S.start_limitedReader limit source opener t, hyields.brings, fun ns => ?_⟩
  refine ⟨(hleaves.reads ns).suffix, ?_, (hleaves.reads ns).of_terminated⟩
  rw [← Reader.close_ok_iff]
  exact hfinishes.close_ok_iff ns

/-- The sample session, read back byte by byte. -/
def sample : Transmission where
  session := .sample
  opener := Chunk.tagOpener [255] 1
  codec := ()
  limit := 2
  block := 1
  framed := rfl
  matched := Chunk.tag_matched [255]
  admits := by decide
  block_pos := Nat.one_pos

/-- The output of the sample session, the same once more and another byte, in pieces that cut
the frames. -/
def sampleTwice : Source :=
  [.data [3, 1], .failure ⟨.interrupted, none⟩, .data [97, 255, 3, 2, 98, 255, 2, 0],
    .data [255, 3, 1, 97, 255, 3], .data [2, 98, 255, 2], .data [0, 255, 7]]

/-- The sample is received twice, and the other byte is left.  A single reader leaves the second
stream as well. -/
theorem sampleTwice_received :
    sampleTwice.Flows ∧
      sampleTwice.bytes = Session.sample.output ++ (Session.sample.output ++ [7]) ∧
      (∃ source', receiveAll [sample, sample] sampleTwice = .ok ([[97, 98], [97, 98]], source') ∧
        source'.bytes = [7]) ∧
      ∃ r, Reader.start sampleTwice (Chunk.tagOpener [255] 1) () (Session.sample.layout.limited 2) =
          .ok r ∧
        (r.reads [8]).2.source.bytes = Session.sample.output ++ [7] := by
  have hflows : sampleTwice.Flows := by
    simp [sampleTwice, Source.Flows, Source.Event.Flows, IoError.isInterrupted]
  have hbytes : sampleTwice.bytes = Session.sample.output ++ (Session.sample.output ++ [7]) := by
    decide
  obtain ⟨hsingle, hall⟩ := streams_received_in_succession
  have htwice : sampleTwice.bytes =
      ([sample, sample].flatMap fun m => m.session.output) ++ [7] := by decide
  obtain ⟨source', hreceived, -, hrest⟩ := hall [sample, sample] hflows htwice
  obtain ⟨r, hstart, -, hreads⟩ := hsingle .sample 2 rfl sample.matched sample.admits hflows hbytes
  obtain ⟨-, hended, hleft⟩ := hreads [8]
  have hbehind := (hleft (hended.2 (by decide))).2
  exact ⟨hflows, hbytes, ⟨source', hreceived, hrest⟩, r, hstart, hbehind⟩

end Transmission

end SealedStream
