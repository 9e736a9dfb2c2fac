import SealedStream.Proofs.Reading

/-!
# A reader in front of frames

`Reader.Facing` describes a reader whose source flows and holds the frames of
known chunks next, with an opener that opens these chunks in this order.  Such a
reader takes the first chunk and then faces the others.  By induction it goes
through any number of chunks; what it yields is what it hands out on the way,
followed by whatever it yields in front of the rest.
-/

namespace SealedStream

namespace Reader

variable {σ : Type}

/-- A reader in front of the frames of these chunks, with `tail` behind them.
Its opener opens the chunks in this order. -/
structure Facing (r : Reader σ) (record : List Sealing) (tail : Bytes) : Prop where
  sound : r.layout.check = .ok ()
  reading : r.phase = .reading
  flows : r.source.Flows
  bytes_eq : r.source.bytes = r.layout.frames record ++ tail
  fits : ∀ form, r.layout.length? = some form →
    ∀ c ∈ record, c.chunk.length < form.capacity
  opens : r.opener.Opens r.codec record

/-- The reader takes such a chunk from its source: a full one if chunks are of
a fixed size and there is room for one, one within the limit otherwise. -/
def Takes (r : Reader σ) (chunk : Bytes) : Prop :=
  match r.layout.length? with
  | none => r.layout.Allocatable r.opener.overhead ∧ chunk.length = r.fullChunk
  | some _ =>
      ¬ (chunk = [] ∧ r.layout.counter? = none) ∧
        r.layout.Admits r.opener.overhead chunk

section Facing

variable {r : Reader σ} {c : Sealing} {record data : List Sealing} {tail : Bytes}

/-- A chunk that is taken is opened, and the reader faces the others. -/
theorem Facing.next (h : Facing r (c :: record) tail) (htakes : r.Takes c.chunk) :
    ∃ (source : Source) (codec : σ),
      r.opener.openChunk r.codec c.chunk = (.ok c.text, codec) ∧
        pull { r with pending := [] } =
          acceptChunk { r with source := source, pending := [] } c.chunk ∧
        ∀ (pending : Bytes) (expected : Nat),
          Facing { r with
            source := source, codec := codec, pending := pending,
            expected := expected } record tail := by
  obtain ⟨codec, hopen, hopens⟩ := h.opens
  have hbytes : r.source.bytes =
      r.layout.frame c.chunk ++ (r.layout.frames record ++ tail) := by
    rw [h.bytes_eq, Layout.frames_cons, List.append_assoc]
  obtain ⟨source, hflows, hrest, hpull⟩ : ∃ source : Source, source.Flows ∧
      source.bytes = r.layout.frames record ++ tail ∧
      pull { r with pending := [] } =
        acceptChunk { r with source := source, pending := [] } c.chunk := by
    unfold Takes at htakes
    cases hlength : r.layout.length? with
    | none =>
        rw [hlength] at htakes
        rw [Layout.frame, hlength] at hbytes
        exact pull_full (r := { r with pending := [] }) hlength htakes.1 h.flows hbytes htakes.2
    | some form =>
        rw [hlength] at htakes
        exact pull_frame (r := { r with pending := [] }) hlength h.flows hbytes
          (h.fits form hlength c List.mem_cons_self) htakes.1 htakes.2
  refine ⟨source, codec, hopen, hpull, fun pending expected => ?_⟩
  exact {
    sound := h.sound
    reading := h.reading
    flows := hflows
    bytes_eq := hrest
    fits := fun form hform c' hc' => h.fits form hform c' (List.mem_cons_of_mem c hc')
    opens := hopens }

/-- Without numbers a chunk is accepted as it comes. -/
theorem Facing.next_unnumbered (h : Facing r (c :: record) tail)
    (hcounter : r.layout.counter? = none) (htakes : r.Takes c.chunk) :
    ∃ (source : Source) (codec : σ),
      pull { r with pending := [] } =
        (.ok (), { r with source := source, codec := codec, pending := c.text }) ∧
      Facing { r with source := source, codec := codec, pending := c.text } record tail := by
  obtain ⟨source, codec, hopen, hpull, hnext⟩ := h.next htakes
  have haccept := acceptChunk_unnumbered (r := { r with source := source, pending := [] })
    hcounter hopen
  exact ⟨source, codec, hpull.trans haccept, hnext c.text r.expected⟩

/-- A chunk with the number that is due is accepted, and the next number is due. -/
theorem Facing.next_due {number : IntForm} {payload : Bytes}
    (h : Facing r (c :: record) tail) (hcounter : r.layout.counter? = some number)
    (htakes : r.Takes c.chunk) (htext : c.text = r.layout.number r.expected ++ payload)
    (hbound : r.expected < number.capacity) (hdue : r.expected ≠ 0) :
    ∃ (source : Source) (codec : σ),
      pull { r with pending := [] } = (.ok (), { r with
        source := source, codec := codec, pending := payload,
        expected := r.expected + 1 }) ∧
      Facing { r with
        source := source, codec := codec, pending := payload,
        expected := r.expected + 1 } record tail := by
  obtain ⟨source, codec, hopen, hpull, hnext⟩ := h.next htakes
  rw [htext, Layout.number, hcounter] at hopen
  have haccept := acceptChunk_due (r := { r with source := source, pending := [] })
    hcounter hopen hbound hdue
  exact ⟨source, codec, hpull.trans haccept, hnext payload (r.expected + 1)⟩

/-- What holds of the reader that a pull leaves, and of what it hands out, holds of the reader
before it as well, with the payload at hand in front. -/
def CarriesBack (P : Reader σ → Bytes → Prop) (tail : Bytes) : Prop :=
  ∀ {r r' : Reader σ} {record : List Sealing} {bytes : Bytes}, Facing r record tail →
    pull { r with pending := [] } = (.ok (), r') → P r' bytes → P r (r.pending ++ bytes)

/-- Through chunks without numbers.  The induction is on the chunks: each is accepted, and its
text is the payload at hand in front of the others. -/
theorem Facing.back_unnumbered {P : Reader σ → Bytes → Prop} (hback : CarriesBack P tail)
    (h : Facing r (data ++ record) tail) (hcounter : r.layout.counter? = none)
    (htakes : ∀ c ∈ data, r.Takes c.chunk) (bytes : Bytes)
    (hrest : ∀ (source : Source) (codec : σ) (pending : Bytes),
      Facing { r with source := source, codec := codec, pending := pending }
        record tail →
      P { r with source := source, codec := codec, pending := pending }
        (pending ++ bytes)) :
    P r (r.pending ++ ((data.map Sealing.text).flatten ++ bytes)) := by
  induction data generalizing r with
  | nil => exact hrest r.source r.codec r.pending h
  | cons c data ih =>
      obtain ⟨source, codec, hpull, hnext⟩ := Facing.next_unnumbered h hcounter
        (htakes c List.mem_cons_self)
      refine hback h hpull ?_
      have hlater := ih (r := { r with source := source, codec := codec, pending := c.text })
        hnext hcounter
        (fun c' hc' => htakes c' (List.mem_cons_of_mem c hc')) hrest
      simpa using hlater

/-- Through chunks that are numbered from the number that is due on. -/
theorem Facing.back_numbered {P : Reader σ → Bytes → Prop} (hback : CarriesBack P tail)
    {number : IntForm} {payloads : List Bytes} (h : Facing r (data ++ record) tail)
    (hcounter : r.layout.counter? = some number)
    (htexts : data.map Sealing.text =
      r.layout.numbered r.expected payloads)
    (hbound : r.expected + payloads.length ≤ number.capacity) (hdue : r.expected ≠ 0)
    (htakes : ∀ c ∈ data, r.Takes c.chunk) (bytes : Bytes)
    (hrest : ∀ (source : Source) (codec : σ) (pending : Bytes),
      Facing { r with
        source := source, codec := codec, pending := pending,
        expected := r.expected + payloads.length } record tail →
      P { r with
        source := source, codec := codec, pending := pending,
        expected := r.expected + payloads.length } (pending ++ bytes)) :
    P r (r.pending ++ (payloads.flatten ++ bytes)) := by
  induction payloads generalizing r data with
  | nil =>
      obtain rfl : data = [] := by simpa [Layout.numbered] using htexts
      exact hrest r.source r.codec r.pending h
  | cons payload payloads ih =>
      obtain ⟨c, data', rfl, htext, htexts'⟩ := List.map_eq_cons_iff.1 htexts
      rw [List.length_cons] at hbound
      obtain ⟨source, codec, hpull, hnext⟩ := Facing.next_due h hcounter
        (htakes c List.mem_cons_self) htext (by omega) hdue
      refine hback h hpull ?_
      -- Seen from the next reader, the numbers begin one later.
      have hlength : r.expected + (payloads.length + 1) =
          r.expected + 1 + payloads.length := by omega
      rw [List.length_cons, hlength] at hrest
      have hlater := ih
        (r := { r with
          source := source, codec := codec, pending := payload,
          expected := r.expected + 1 })
        hnext hcounter htexts' (by dsimp only; omega)
        (Nat.succ_ne_zero _)
        (fun c' hc' => htakes c' (List.mem_cons_of_mem c hc')) hrest
      simpa using hlater

theorem carriesBack_yields (ending : Except Failure Unit) :
    CarriesBack (fun (r : Reader σ) bytes => Yields r bytes ending) tail :=
  fun h hpull hrest => .of_pull h.sound h.reading hpull hrest

/-- Chunks without numbers are handed out one after the other. -/
theorem Facing.unnumbered (h : Facing r (data ++ record) tail)
    (hcounter : r.layout.counter? = none) (htakes : ∀ c ∈ data, r.Takes c.chunk)
    (bytes : Bytes) (ending : Except Failure Unit)
    (hrest : ∀ (source : Source) (codec : σ) (pending : Bytes),
      Facing { r with source := source, codec := codec, pending := pending }
        record tail →
      Yields { r with source := source, codec := codec, pending := pending }
        (pending ++ bytes) ending) :
    Yields r (r.pending ++ ((data.map Sealing.text).flatten ++ bytes)) ending :=
  h.back_unnumbered (P := fun r bytes => Yields r bytes ending) (carriesBack_yields ending)
    hcounter htakes bytes hrest

/-- Chunks that are numbered from the number that is due on are handed out one
after the other. -/
theorem Facing.numbered {number : IntForm} {payloads : List Bytes}
    (h : Facing r (data ++ record) tail) (hcounter : r.layout.counter? = some number)
    (htexts : data.map Sealing.text =
      r.layout.numbered r.expected payloads)
    (hbound : r.expected + payloads.length ≤ number.capacity) (hdue : r.expected ≠ 0)
    (htakes : ∀ c ∈ data, r.Takes c.chunk)
    (bytes : Bytes) (ending : Except Failure Unit)
    (hrest : ∀ (source : Source) (codec : σ) (pending : Bytes),
      Facing { r with
        source := source, codec := codec, pending := pending,
        expected := r.expected + payloads.length } record tail →
      Yields { r with
        source := source, codec := codec, pending := pending,
        expected := r.expected + payloads.length } (pending ++ bytes) ending) :
    Yields r (r.pending ++ (payloads.flatten ++ bytes)) ending :=
  h.back_numbered (P := fun r bytes => Yields r bytes ending) (carriesBack_yields ending)
    hcounter htexts hbound hdue htakes bytes hrest

/-! ## The end of the stream -/

/-- The chunk with the number zero is taken, and what stands behind it is left. -/
theorem Facing.pull_zero {number : IntForm} (h : Facing r (c :: record) tail)
    (hcounter : r.layout.counter? = some number) (htakes : r.Takes c.chunk)
    (htext : c.text = number.bytes 0) :
    ∃ (source : Source) (codec : σ), source.Flows ∧
      source.bytes = r.layout.frames record ++ tail ∧
        pull { r with pending := [] } = (.ok (), { r with
          source := source, codec := codec, pending := [], phase := .terminated }) := by
  obtain ⟨source, codec, hopen, hpull, hnext⟩ := h.next htakes
  rw [htext] at hopen
  have haccept := acceptChunk_end (r := { r with source := source, pending := [] })
    hcounter hopen
  have hbehind := hnext [] r.expected
  exact ⟨source, codec, hbehind.flows, hbehind.bytes_eq, hpull.trans haccept⟩

/-- The sealed number zero ends the stream, whatever stands behind it. -/
theorem Facing.sealed_end {number : IntForm} (h : Facing r (c :: record) tail)
    (hcounter : r.layout.counter? = some number) (htakes : r.Takes c.chunk)
    (htext : c.text = number.bytes 0) : Yields r r.pending (.ok ()) := by
  obtain ⟨source, codec, -, -, hpull⟩ := h.pull_zero hcounter htakes htext
  simpa using Yields.of_pull h.sound h.reading hpull (.terminated rfl)

/-- The bare length zero ends a stream without numbers. -/
theorem Facing.bare_end {form : IntForm} {rest : Bytes}
    (h : Facing r [] (form.bytes 0 ++ rest)) (hlength : r.layout.length? = some form)
    (hcounter : r.layout.counter? = none) : Yields r r.pending (.ok ()) := by
  obtain ⟨source, -, -, hpull⟩ := pull_terminator (r := { r with pending := [] })
    hlength hcounter h.flows h.bytes_eq
  simpa using Yields.of_pull h.sound h.reading hpull (.terminated rfl)

/-- A chunk that is not full ends a stream of fixed-size chunks, with its payload
at hand. -/
theorem Facing.pull_last (h : Facing r [c] []) (hlength : r.layout.length? = none)
    (hroom : r.layout.Allocatable r.opener.overhead)
    (hshort : c.chunk.length < r.fullChunk)
    (hoverhead : r.opener.overhead ≤ c.chunk.length) :
    ∃ (source : Source) (codec : σ), pull { r with pending := [] } = (.ok (), { r with
      source := source, codec := codec, pending := c.text, phase := .terminated }) := by
  obtain ⟨codec, hopen, -⟩ := h.opens
  have hbytes : r.source.bytes = c.chunk := by
    rw [h.bytes_eq]
    simp [Layout.frame, hlength]
  obtain ⟨source, hpull⟩ := pull_short (r := { r with pending := [] }) hlength hroom
    (Layout.counter_eq_none h.sound hlength) h.flows hbytes hshort hoverhead hopen
  exact ⟨source, codec, hpull⟩

theorem Facing.short_end (h : Facing r [c] []) (hlength : r.layout.length? = none)
    (hroom : r.layout.Allocatable r.opener.overhead)
    (hshort : c.chunk.length < r.fullChunk)
    (hoverhead : r.opener.overhead ≤ c.chunk.length) :
    Yields r (r.pending ++ c.text) (.ok ()) := by
  obtain ⟨source, codec, hpull⟩ := h.pull_last hlength hroom hshort hoverhead
  exact Yields.of_pull h.sound h.reading hpull (.terminated rfl)

/-! ## Chunks that are not accepted -/

/-- A chunk whose number is not due ends the reading. -/
theorem Facing.reordered {number : IntForm} (h : Facing r (c :: record) tail)
    (hcounter : r.layout.counter? = some number) (htakes : r.Takes c.chunk) {i : Nat}
    {payload : Bytes} (htext : c.text = number.bytes i ++ payload)
    (hbound : i < number.capacity) (hne : i ≠ 0) (hdue : i ≠ r.expected) :
    Yields r r.pending (.error (.chunksReordered r.expected i)) := by
  obtain ⟨source, codec, hopen, hpull, -⟩ := h.next htakes
  rw [htext] at hopen
  have haccept := acceptChunk_reordered (r := { r with source := source, pending := [] })
    hcounter hopen hbound hne hdue
  exact .cut h.reading (hpull.trans haccept)

/-- A chunk past the limit ends the reading. -/
theorem Facing.refused {form : IntForm} (h : Facing r (c :: record) tail)
    (hlength : r.layout.length? = some form)
    (hmarker : ¬ (c.chunk = [] ∧ r.layout.counter? = none))
    (hlimit : ¬ r.layout.Admits r.opener.overhead c.chunk) :
    ∃ limit : Nat, r.layout.chunkLimit? r.opener.overhead = some limit ∧
      Yields r r.pending (.error (.chunkTooBig c.chunk.length limit)) := by
  have hbytes : r.source.bytes =
      r.layout.frame c.chunk ++ (r.layout.frames record ++ tail) := by
    rw [h.bytes_eq, Layout.frames_cons, List.append_assoc]
  obtain ⟨limit, r', hsome, hpull⟩ := pull_refused (r := { r with pending := [] }) hlength
    h.flows hbytes (h.fits form hlength c List.mem_cons_self) hmarker hlimit
  exact ⟨limit, hsome, .cut h.reading hpull⟩

end Facing

end Reader

end SealedStream
