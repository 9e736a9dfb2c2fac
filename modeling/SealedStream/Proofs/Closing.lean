import SealedStream.Proofs.Blocks
import SealedStream.Proofs.Writing

/-!
# How a writer ends a stream

A writer that is asked to close seals what it holds back and puts the end of the
stream behind it.  There are three kinds of end: the sealed number zero, a bare
length of zero, and a chunk that is not full.  For each kind one lemma says what
the record and the sink have become, and `Ready.terminate_stream` puts the three
together: the chunks and the bytes are those of the reference.
-/

namespace SealedStream

namespace Writer

variable {σ : Type} {l : Layout} {sealer : Sealer σ} {codec : σ} {payloads : List Bytes}
  {current : Bytes} {w w' : Writer (Recorded σ)} {form number : IntForm}

/-- A stream of fixed-size chunks ends with what was held back, be it nothing. -/
theorem Ready.terminate_short (hl : l.check = .ok ())
    (h : Ready l sealer codec payloads current w) (hlength : l.length? = none)
    (hterminate : w.terminate = (.ok (), w')) :
    Booked l sealer codec w' ∧ w.codec.record.map Sealing.text = payloads ∧
      ∃ chunk, w'.codec.record = w.codec.record ++ [⟨current, chunk⟩] := by
  have hcounter := Layout.counter_eq_none hl hlength
  -- Without counters there is no number in front of what is held back.
  have hpending : w.pending = current := by
    by_cases hcurrent : current = []
    · rw [h.none_held hcurrent, hcurrent]
    · simpa [Layout.number, hcounter] using h.some_held hcurrent
  have hseal : w.sealPending = (.ok (), w') := by
    simpa [Writer.terminate, h.layout_eq, hlength] using hterminate
  obtain ⟨hbooked, -, -, chunk, hrecord⟩ := h.toBooked.seal hseal
  have htexts : w.codec.record.map Sealing.text = payloads := by
    rw [h.texts, Layout.numbered_of_uncounted hcounter]
  exact ⟨hbooked, htexts, chunk, by rw [hrecord, hpending]⟩

/-- With lengths and counters the sealed number zero ends the stream, after what
was held back has been sealed. -/
theorem Ready.terminate_numbered (h : Ready l sealer codec payloads current w)
    (hlength : l.length? = some form) (hcounter : l.counter? = some number)
    (hterminate : w.terminate = (.ok (), w')) :
    ∃ (w₁ : Writer (Recorded σ)) (chunk : Bytes),
      Standing l sealer codec (Layout.withRest payloads current) [] w₁ ∧
        Booked l sealer codec w' ∧
        w'.codec.record = w₁.codec.record ++ [⟨number.bytes 0, chunk⟩] := by
  simp only [Writer.terminate, h.layout_eq, hlength] at hterminate
  obtain ⟨w₁, hclear, hend⟩ := andThen_ok hterminate
  have hstanding := h.toStanding.clear hclear
  have hseal : sealPending { w₁ with pending := number.bytes 0 } = (.ok (), w') := by
    simpa [hstanding.layout_eq, hcounter, hstanding.none_held rfl,
      IntForm.encode_of_lt number.capacity_pos] using hend
  have hbooked : Booked l sealer codec { w₁ with pending := number.bytes 0 } :=
    { hstanding.toBooked with }
  obtain ⟨hbooked', -, -, chunk, hrecord⟩ := hbooked.seal hseal
  exact ⟨w₁, chunk, hstanding, hbooked', hrecord⟩

/-- With lengths alone a bare length of zero ends the stream; nothing is sealed
for it. -/
theorem Ready.terminate_bare (h : Ready l sealer codec payloads current w)
    (hlength : l.length? = some form) (hcounter : l.counter? = none)
    (hterminate : w.terminate = (.ok (), w')) :
    ∃ w₁ : Writer (Recorded σ),
      Standing l sealer codec (Layout.withRest payloads current) [] w₁ ∧
        w'.codec = w₁.codec ∧ w'.sink.bytes = w₁.sink.bytes ++ form.bytes 0 := by
  simp only [Writer.terminate, h.layout_eq, hlength] at hterminate
  obtain ⟨w₁, hclear, hend⟩ := andThen_ok hterminate
  have hstanding := h.toStanding.clear hclear
  have hsend : w₁.send (form.bytes 0) = (.ok (), w') := by
    simpa [hstanding.layout_eq, hcounter, IntForm.encode_of_lt form.capacity_pos] using hend
  obtain ⟨sink, rfl, hbytes⟩ := send_ok hsend
  exact ⟨w₁, hstanding, rfl, hbytes⟩

/-- A writer that stands where the reference says ends as the reference says. -/
theorem Ready.terminate_stream (hl : l.check = .ok ()) {writes : List Bytes}
    (h : Ready l sealer codec (l.divide writes).1 (l.divide writes).2 w)
    (hterminate : w.terminate = (.ok (), w')) :
    sealer.Seals codec w'.codec.record w'.codec.state ∧
      w'.codec.record.map Sealing.text = l.chunkTexts writes ∧
      w'.sink.bytes = l.frames w'.codec.record ++ l.endMark := by
  cases hlength : l.length? with
  | none =>
      obtain ⟨hbooked, htexts, chunk, hrecord⟩ := h.terminate_short hl hlength hterminate
      refine ⟨hbooked.seals, ?_, by simpa [Layout.endMark, hlength] using hbooked.sink_eq⟩
      simp [Layout.chunkTexts, hlength, hrecord, htexts]
  | some form =>
      rw [Layout.chunkTexts_framed hlength]
      unfold Layout.endTexts Layout.endMark
      cases hcounter : l.counter? with
      | none =>
          obtain ⟨w₁, hstanding, hcodec, hbytes⟩ := h.terminate_bare hlength hcounter hterminate
          rw [hcodec, hbytes, hlength]
          refine ⟨hstanding.seals, ?_, by rw [hstanding.sink_eq]⟩
          rw [hstanding.texts]
          exact (List.append_nil _).symm
      | some number =>
          obtain ⟨w₁, chunk, hstanding, hbooked, hrecord⟩ :=
            h.terminate_numbered hlength hcounter hterminate
          refine ⟨hbooked.seals, ?_, by simpa using hbooked.sink_eq⟩
          simp [hrecord, hstanding.texts, Layout.payloads]

/-- A successful close has written what ends the stream. -/
theorem close_ok {w final : Writer σ} (h : w.close = (.ok (), final)) :
    ∃ w' : Writer σ, w.terminate = (.ok (), w') ∧ final.codec = w'.codec ∧
      final.sink.bytes = w'.sink.bytes := by
  unfold close at h
  cases hphase : w.phase with
  | closed => simp [hphase] at h
  | failed f => simp [hphase] at h
  | writing =>
      simp only [hphase] at h
      split at h
      · rename_i w₁ hdone
        obtain rfl := (Prod.mk.inj h).2
        obtain ⟨w', hterminate, hflush⟩ := andThen_ok hdone
        refine ⟨w', hterminate, ?_⟩
        have hbytes := Sink.bytes_flush w'.sink
        unfold flushSink at hflush
        split at hflush
        · rename_i sink hsink
          obtain rfl := (Prod.mk.inj hflush).2
          rw [hsink] at hbytes
          exact ⟨rfl, hbytes⟩
        · simp at hflush
      · simp at h

end Writer

end SealedStream
