import SealedStream.Proofs.Transfers

/-!
# Opening into a sink

What is opened is written in blocks, one after the other.  Either the sink takes them all,
and the flush behind a confirmed end as well; then the transfer ends as the stream does.  Or
one of its calls ends with an error, which is what the transfer reports, and the sink has the
beginning of what has been opened.
-/

namespace SealedStream

namespace Transfer

variable {settings : Settings} {secret : Secret} {input : Source} {sink : Sink}

/-- Blocks are written to the last one, or up to the first error.  The induction is on the
blocks. -/
theorem pour_replies (blocks : List Bytes) (sink : Sink) :
    ((pour blocks sink).1 = .ok () ∧ sink.Unfaulted (pour blocks sink).2 ∧
      (pour blocks sink).2.bytes = sink.bytes ++ blocks.flatten) ∨
    ∃ e, (pour blocks sink).1 = .error e ∧ sink.Faulted e (pour blocks sink).2 ∧
      (pour blocks sink).2.bytes <+: sink.bytes ++ blocks.flatten := by
  induction blocks generalizing sink with
  | nil => exact .inl ⟨rfl, .refl sink, (List.append_nil _).symm⟩
  | cons block blocks ih =>
      have hreplies := sink.writeAll_replies block
      have hfront := sink.deliver_prefix sink.writes block
      rw [pour, List.flatten_cons, ← List.append_assoc]
      rw [← Sink.writeAll] at hfront
      rcases hwrite : sink.writeAll block with ⟨e | ⟨⟩, sink'⟩
      · rw [hwrite] at hreplies hfront
        obtain ⟨e', herror, hfault⟩ := hreplies.resolve_left (by simp)
        obtain rfl := Except.error.inj herror
        exact .inr ⟨e, rfl, hfault, hfront.trans (List.prefix_append _ _)⟩
      · rw [hwrite] at hreplies
        obtain ⟨-, hstep⟩ := hreplies.resolve_right (by simp)
        rw [← Sink.bytes_writeAll hwrite]
        rcases ih sink' with ⟨hok, hrest, hbytes⟩ | ⟨e, herror, hfault, hbytes⟩
        · exact .inl ⟨hok, hstep.trans hrest, hbytes⟩
        · exact .inr ⟨e, herror, hstep.faulted hfault, hbytes⟩

/-- The transfer has not been able to put out what it has opened. -/
inductive Problem.OfOutput : Problem → IoError → Prop
  | notWritten (e : IoError) : OfOutput (.outputNotWritten e) e
  | notFlushed (e : IoError) : OfOutput (.outputNotFlushed e) e

/-- Opening into an empty sink is the same as opening, unless a call of the sink ends with an
error. -/
theorem decryptOnto_eq_or (settings : Settings) (secret : Secret) (input : Source)
    (hsink : sink.bytes = []) :
    decryptOnto sink settings secret input = decrypt settings secret input ∨
    ∃ e ∈ sink.errors, ∃ output problem, problem.OfOutput e ∧
      output <+: (decrypt settings secret input).output ∧
      decryptOnto sink settings secret input = ⟨output, .error problem⟩ := by
  unfold decryptOnto
  generalize decrypt settings secret input = t
  obtain ⟨output, ending⟩ := t
  have hpour := pour_replies (Bytes.pieces blockSize output) sink
  rw [Bytes.flatten_pieces (by decide), hsink, List.nil_append] at hpour
  dsimp only
  rcases hanswer : pour (Bytes.pieces blockSize output) sink with ⟨e | ⟨⟩, sink'⟩
  · rw [hanswer] at hpour
    obtain ⟨e', herror, hfault, hbytes⟩ := hpour.resolve_left (by simp)
    obtain rfl := Except.error.inj herror
    exact .inr ⟨e, hfault.mem_errors, _, _, .notWritten e, hbytes, rfl⟩
  · rw [hanswer] at hpour
    obtain ⟨-, hgoes, hbytes⟩ := hpour.resolve_right (by simp)
    obtain rfl : sink'.bytes = output := hbytes
    cases ending with
    | error problem => exact .inl rfl
    | ok count =>
        -- The end is confirmed, and the sink is flushed.
        have hflush := sink'.flush_replies
        have hsame := sink'.bytes_flush
        rcases hflushed : sink'.flush with ⟨e | ⟨⟩, sink''⟩
        · rw [hflushed] at hflush hsame
          obtain ⟨e', herror, hfault⟩ := hflush.resolve_left (by simp)
          obtain rfl := Except.error.inj herror
          have hall : sink''.bytes <+: sink'.bytes := by rw [← hsame]
          refine .inr ⟨e, (hgoes.faulted hfault).mem_errors, _, _, .notFlushed e, hall, ?_⟩
          simp [hflushed]
        · rw [hflushed] at hsame
          exact .inl (by simp [hflushed, ← hsame])

/-- A sink whose calls cannot end with an error makes no difference. -/
theorem decryptOnto_of_errors_nil (settings : Settings) (secret : Secret) (input : Source)
    (hsink : sink.bytes = []) (hgoes : sink.errors = []) :
    decryptOnto sink settings secret input = decrypt settings secret input := by
  rcases decryptOnto_eq_or settings secret input hsink with hsame | ⟨e, he, -⟩
  · exact hsame
  · simp [hgoes] at he

end Transfer

end SealedStream
