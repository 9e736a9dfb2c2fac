import SealedStream.Chunk.Plain
import SealedStream.Proofs.Calls
import SealedStream.Proofs.Closing
import SealedStream.Proofs.Recording
import SealedStream.Reader

/-!
# Completed sessions

A session is a run of a writer from its start to a successful `close`, with
every write in between successful.  Its sealer keeps a record, so that the
chunks of the session have names; `Session.of_completes` says that every
completed run is a session and that keeping the record changed nothing.

What the session has put out depends on the kind of stream, and the three kinds
are the three structures `Counted`, `Uncounted` and `FixedSize`.  Each says how
the plaintext was cut into chunks, how the chunks were numbered, which chunk
ends the stream and what stands in the sink.
-/

namespace SealedStream

/-- A completed session of a writer. -/
structure Session (σ : Type) where
  layout : Layout
  sealer : Sealer σ
  codec : σ
  sink : Sink
  writes : List Bytes
  final : Writer (Recorded σ)
  sink_empty : sink.bytes = []
  completed :
    Writer.Completes sealer.recording ⟨codec, []⟩ layout sink writes final

namespace Session

variable {σ τ : Type}

/-- Everything that was written. -/
def plaintext (S : Session σ) : Bytes :=
  S.writes.flatten

/-- The sealed chunks, in order, each with its plaintext. -/
def record (S : Session σ) : List Sealing :=
  S.final.codec.record

/-- What stands in the sink. -/
def output (S : Session σ) : Bytes :=
  S.final.sink.bytes

/-- Every completed run of a writer is a session, with the same bytes in the
sink at its end. -/
theorem of_completes {sealer : Sealer σ} {codec : σ} {l : Layout} {sink : Sink}
    {writes : List Bytes} {final : Writer σ} (hsink : sink.bytes = [])
    (h : Writer.Completes sealer codec l sink writes final) :
    ∃ S : Session σ, S.layout = l ∧ S.sealer = sealer ∧ S.codec = codec ∧
      S.sink = sink ∧ S.writes = writes ∧ S.output = final.sink.bytes := by
  obtain ⟨final', hcompletes, log, hmirror⟩ := h.recorded
  subst hmirror
  exact ⟨⟨l, sealer, codec, sink, writes, _, hsink, hcompletes⟩, rfl, rfl, rfl, rfl, rfl,
    rfl⟩

/-! ## The three kinds of stream -/

/-- What every session has done: its record lists what the sealer has sealed,
and the length of each chunk fits its form. -/
structure Ledger (S : Session σ) : Prop where
  seals : S.sealer.Seals S.codec S.record S.final.codec.state
  fits : ∀ form, S.layout.length? = some form →
    ∀ c ∈ S.record, c.chunk.length < form.capacity

/-- A session with lengths and counters: the chunks of the payloads, numbered
from one, and the sealed number zero alone in the last. -/
structure Counted (S : Session σ) (form number : IntForm) (payloads : List Bytes)
    (data : List Sealing) (last : Sealing) : Prop extends Ledger S where
  length_eq : S.layout.length? = some form
  counter_eq : S.layout.counter? = some number
  record_eq : S.record = data ++ [last]
  texts : data.map Sealing.text = S.layout.numbered 1 payloads
  last_text : last.text = number.bytes 0
  payload_ne : ∀ payload ∈ payloads, payload ≠ []
  count_lt : payloads.length < number.capacity
  plaintext_eq : S.plaintext = payloads.flatten
  output_eq : S.output = S.layout.frames S.record

/-- A session with lengths alone: the chunks hold the plaintext, and a bare
length of zero stands behind them. -/
structure Uncounted (S : Session σ) (form : IntForm) : Prop extends Ledger S where
  length_eq : S.layout.length? = some form
  counter_eq : S.layout.counter? = none
  text_ne : ∀ c ∈ S.record, c.text ≠ []
  plaintext_eq : S.plaintext = (S.record.map Sealing.text).flatten
  output_eq : S.output = S.layout.frames S.record ++ form.bytes 0

/-- A session of fixed-size chunks: the chunks hold the plaintext, and the last
one alone is not full. -/
structure FixedSize (S : Session σ) (data : List Sealing) (last : Sealing) :
    Prop extends Ledger S where
  length_eq : S.layout.length? = none
  counter_eq : S.layout.counter? = none
  record_eq : S.record = data ++ [last]
  full : ∀ c ∈ data, c.text.length = S.layout.bufferSize
  short : last.text.length < S.layout.bufferSize
  plaintext_eq : S.plaintext = (S.record.map Sealing.text).flatten
  output_eq : S.output = S.layout.frames S.record

/-- The state of the writer when it was asked to close, and what closing did. -/
theorem closing (S : Session σ) :
    ∃ (payloads : List Bytes) (current : Bytes) (w w' : Writer (Recorded σ)),
      S.layout.check = .ok () ∧ S.layout.divide S.writes = (payloads, current) ∧
        Writer.Ready S.layout S.sealer S.codec payloads current w ∧
        w.terminate = (.ok (), w') ∧ S.final.codec = w'.codec ∧
        S.output = w'.sink.bytes := by
  obtain ⟨w₀, w, hstart, hwrites, hclose⟩ := S.completed
  obtain ⟨hsound, -⟩ := Writer.start_ok hstart
  rw [Writer.takeAll_eq_performAll] at hwrites
  have hready := Writer.performAll_divides hsound
    (Writer.start_ready S.sink_empty hstart) hwrites
  rw [Writer.written_map_write] at hready
  obtain ⟨w', hterminate, hcodec, hbytes⟩ := Writer.close_ok hclose
  exact ⟨_, _, w, w', hsound, rfl, hready, hterminate, hcodec, hbytes⟩

/-- The chunks hold what the reference says. -/
theorem texts_eq (S : Session σ) :
    S.record.map Sealing.text = S.layout.chunkTexts S.writes := by
  obtain ⟨payloads, current, w, w', hsound, hdivide, hready, hterminate, hcodec, -⟩ := S.closing
  rw [record, hcodec]
  exact (Writer.Ready.terminate_stream hsound (by rwa [hdivide]) hterminate).2.1

/-- The sink holds the frames of the chunks and the mark behind them. -/
theorem output_frames (S : Session σ) :
    S.output = S.layout.frames S.record ++ S.layout.endMark := by
  obtain ⟨payloads, current, w, w', hsound, hdivide, hready, hterminate, hcodec, hsink⟩ :=
    S.closing
  rw [hsink, record, hcodec]
  exact (Writer.Ready.terminate_stream hsound (by rwa [hdivide]) hterminate).2.2

theorem sound (S : Session σ) : S.layout.check = .ok () := by
  obtain ⟨-, -, -, -, hsound, -⟩ := S.closing
  exact hsound

/-- There was a buffer for a full chunk. -/
theorem allocatable (S : Session σ) : S.layout.Allocatable S.sealer.overhead := by
  obtain ⟨w, -, hstart, -⟩ := S.completed
  have hroom := Writer.start_allocatable hstart
  exact hroom

theorem plaintext_of_divide (S : Session σ) {payloads : List Bytes} {current : Bytes}
    (h : S.layout.divide S.writes = (payloads, current)) :
    payloads.flatten ++ current = S.plaintext := by
  have hwritten := S.layout.flatten_divide S.writes
  rwa [h] at hwritten

/-- A session of fixed-size chunks has sealed what was held back as its last
chunk. -/
theorem fixedSize (S : Session σ) (hlength : S.layout.length? = none) :
    ∃ (data : List Sealing) (last : Sealing), S.FixedSize data last := by
  obtain ⟨payloads, current, w, w', hsound, hdivide, hready, hterminate, hcodec, hsink⟩ :=
    S.closing
  have hplain := S.plaintext_of_divide hdivide
  have hbuffer := Layout.bufferSize_ne_zero hsound hlength
  obtain ⟨hbooked, htexts, chunk, hrecord⟩ := hready.terminate_short hsound hlength hterminate
  have hrecord' : S.record = w.codec.record ++ [⟨current, chunk⟩] := by
    rw [record, hcodec, hrecord]
  refine ⟨w.codec.record, ⟨current, chunk⟩, ?_⟩
  exact {
    seals := by simpa [record, hcodec] using hbooked.seals
    fits := by simpa [record, hcodec] using hbooked.fits
    length_eq := hlength
    counter_eq := Layout.counter_eq_none hsound hlength
    record_eq := hrecord'
    full := hready.full hbuffer
    short := by
      by_cases hcurrent : current = []
      · simpa [hcurrent] using Nat.pos_of_ne_zero hbuffer
      · have hroom := hready.room hbuffer
        rw [hready.some_held hcurrent, List.length_append] at hroom
        dsimp only
        omega
    plaintext_eq := by
      rw [← hplain, hrecord', List.map_append, htexts]
      simp
    output_eq := by rw [hsink, hbooked.sink_eq, record, hcodec] }

/-- A session with counters has numbered the payloads of the reference, and ends
with the sealed number zero. -/
theorem counted_payloads (S : Session σ) {form number : IntForm}
    (hlength : S.layout.length? = some form)
    (hcounter : S.layout.counter? = some number) :
    ∃ (data : List Sealing) (last : Sealing),
      S.Counted form number (S.layout.payloads S.writes) data last := by
  obtain ⟨payloads, current, w, w', -, hdivide, hready, hterminate, hcodec, hsink⟩ :=
    S.closing
  have hplain := S.plaintext_of_divide hdivide
  obtain ⟨w₁, chunk, hstanding, hbooked, hrecord⟩ :=
    hready.terminate_numbered hlength hcounter hterminate
  rw [Layout.payloads, hdivide]
  refine ⟨w₁.codec.record, ⟨number.bytes 0, chunk⟩, ?_⟩
  exact {
    seals := by simpa [record, hcodec] using hbooked.seals
    fits := by simpa [record, hcodec] using hbooked.fits
    length_eq := hlength
    counter_eq := hcounter
    record_eq := by rw [record, hcodec, hrecord]
    texts := hstanding.texts
    last_text := rfl
    payload_ne := hstanding.payload_ne
    count_lt := by simpa using (hstanding.counts number hcounter).1
    plaintext_eq := by rw [← hplain, Layout.flatten_withRest]
    output_eq := by rw [hsink, hbooked.sink_eq, record, hcodec] }

theorem counted (S : Session σ) {form number : IntForm}
    (hlength : S.layout.length? = some form)
    (hcounter : S.layout.counter? = some number) :
    ∃ (payloads : List Bytes) (data : List Sealing) (last : Sealing),
      S.Counted form number payloads data last :=
  ⟨_, S.counted_payloads hlength hcounter⟩

/-- A session with lengths and no counters ends with a bare length of zero. -/
theorem uncounted (S : Session σ) {form : IntForm}
    (hlength : S.layout.length? = some form) (hcounter : S.layout.counter? = none) :
    S.Uncounted form := by
  obtain ⟨payloads, current, w, w', -, hdivide, hready, hterminate, hcodec, hsink⟩ :=
    S.closing
  have hplain := S.plaintext_of_divide hdivide
  obtain ⟨w₁, hstanding, hcodec₁, hbytes⟩ :=
    hready.terminate_bare hlength hcounter hterminate
  have htexts : S.record.map Sealing.text = Layout.withRest payloads current := by
    rw [record, hcodec, hcodec₁, hstanding.texts, Layout.numbered_of_uncounted hcounter]
  exact {
    seals := by simpa [record, hcodec, hcodec₁] using hstanding.seals
    fits := by simpa [record, hcodec, hcodec₁] using hstanding.fits
    length_eq := hlength
    counter_eq := hcounter
    text_ne := fun c hc =>
      hstanding.payload_ne c.text (htexts ▸ List.mem_map_of_mem hc)
    plaintext_eq := by rw [htexts, Layout.flatten_withRest, hplain]
    output_eq := by rw [hsink, hbytes, hstanding.sink_eq, record, hcodec, hcodec₁] }

/-- Every session keeps its ledger, whatever its kind. -/
theorem ledger (S : Session σ) : S.Ledger := by
  cases hlength : S.layout.length? with
  | none =>
      obtain ⟨data, last, hfixed⟩ := S.fixedSize hlength
      exact hfixed.toLedger
  | some form =>
      cases hcounter : S.layout.counter? with
      | none => exact (S.uncounted hlength hcounter).toLedger
      | some number =>
          obtain ⟨payloads, data, last, hcounted⟩ := S.counted hlength hcounter
          exact hcounted.toLedger

/-- A reader just started on a source, in the layout of a session. -/
def reader (S : Session σ) (source : Source) (opener : Opener τ) (t : τ) : Reader τ :=
  ⟨S.layout, opener, t, source, [], 1, .reading⟩

theorem start_reader (S : Session σ) (source : Source) (opener : Opener τ) (t : τ) :
    Reader.start source opener t S.layout = .ok (S.reader source opener t) := by
  simp [Reader.start, S.sound, reader]

/-- Two bytes written one by one, each in a numbered chunk of its own, under a
codec that puts the byte 255 behind every chunk. -/
def sample : Session Unit where
  layout := Layout.standard.unbuffered
  sealer := Chunk.tagSealer [255] 1
  codec := ()
  sink := .perfect
  writes := [[97], [98]]
  final :=
    { layout := Layout.standard.unbuffered
      sealer := (Chunk.tagSealer [255] 1).recording
      codec := ⟨(), [⟨[1, 97], [1, 97, 255]⟩, ⟨[2, 98], [2, 98, 255]⟩, ⟨[0], [0, 255]⟩]⟩
      sink :=
        { writes := [], flushes := []
          pieces := [[0, 255], [2], [2, 98, 255], [3], [1, 97, 255], [3]]
          writeCalls := 6, flushCalls := 1 }
      pending := []
      nextCounter := 3
      phase := .closed }
  sink_empty := Sink.bytes_perfect
  completed := ⟨_, _, rfl, rfl, rfl⟩

end Session

end SealedStream
