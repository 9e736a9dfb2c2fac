import SealedStream.Proofs.Course
import SealedStream.Proofs.Recording
import SealedStream.Proofs.WireFormat

/-!
# Faults of the sink do not corrupt the stream

The same calls are made on two writers that differ in their sinks: one sink accepts
everything, the other one has faults.  The writers go through the same states, and
their sinks accept the same bytes, until a reply ends a call on the second sink.  From
then on the second writer refuses every call, and its sink keeps the beginning of what
the first one puts out.

A writer that fails while its sink does not stops where the first one stops: between
two frames.
-/

namespace SealedStream

namespace Writer

variable {σ : Type} {sealer : Sealer σ} {codec : σ} {l : Layout} {s : Sink}
  {P : Sink → Prop} {Q : IoError → Sink → Prop} {w v : Writer σ}

/-! ## One call -/

/-- A flush passed on to the two sinks, whatever they answer, leaves the writers level if
it keeps what is tracked. -/
theorem Like.flush (hkeeps : ∀ a, P a → P a.flush.2) (h : Like (Sink.Level P) w v) :
    Like (Sink.Level P) w.flush.2 v.flush.2 := by
  cases hphase : w.phase with
  | failed f =>
      rw [(refuses_of_failed hphase).flush, (refuses_of_failed (h.phase_eq.trans hphase)).flush]
      exact h
  | writing | closed =>
      rw [flush_passes (by simp [hphase]), flush_passes (by simp [h.phase_eq, hphase])]
      obtain ⟨sink, rfl, hlevel⟩ := h
      refine ⟨_, rfl, hlevel.perfect.flush.2, ?_, hkeeps _ hlevel.tracked⟩
      rw [Sink.bytes_flush, Sink.bytes_flush]
      exact hlevel.bytes_eq

/-- A call leaves two writers level, or it fails for the first sink. -/
theorem Like.serve (htracks : Sink.Tracks P Q) (h : Like (Sink.Level P) w v)
    {request : Request} (hflush : request ≠ .flush ∨ ∀ a, P a → P a.flush.2) :
    Like (Sink.Level P) (w.serve request) (v.serve request) ∨
      ¬ w.Succeeds request ∧ ∃ e, (w.serve request).phase = .failed (.io e) ∧
        Sink.Behind Q e (w.serve request).sink (v.serve request).sink := by
  cases request with
  | flush => exact .inl (h.flush (hflush.resolve_left fun hne => hne rfl))
  | write data =>
      rcases h.write htracks.flushPairing.toPairing data with ⟨-, hlike⟩ | ⟨e, herror, hkept⟩
      · exact .inl hlike
      · exact .inr ⟨by simp [Succeeds, herror], e, hkept⟩
  | writeSome data =>
      simp only [Writer.serve, writeSome_snd]
      rcases h.write htracks.flushPairing.toPairing data with ⟨-, hlike⟩ | ⟨e, herror, hkept⟩
      · exact .inl hlike
      · refine .inr ⟨?_, e, hkept⟩
        rintro ⟨n, hok⟩
        rw [writeSome_ok hok] at herror
        simp at herror
  | close =>
      rcases h.close htracks.flushPairing with ⟨-, hlike⟩ | ⟨e, herror, hkept⟩
      · exact .inl hlike
      · exact .inr ⟨by simp [Succeeds, herror], e, hkept⟩

/-! ## Runs -/

/-- A run of calls leaves two writers level, or one of them has failed for the first
sink.  The induction is on the calls: after the one that has failed the first writer
stands still, and the second one only adds to its sink. -/
theorem Like.serveAll (htracks : Sink.Tracks P Q) (h : Like (Sink.Level P) w v)
    {requests : List Request} (hflush : .flush ∉ requests ∨ ∀ a, P a → P a.flush.2) :
    Like (Sink.Level P) (w.serveAll requests) (v.serveAll requests) ∨
      ¬ w.AllSucceed requests ∧ ∃ e, (w.serveAll requests).phase = .failed (.io e) ∧
        Sink.Behind Q e (w.serveAll requests).sink (v.serveAll requests).sink := by
  induction requests generalizing w v with
  | nil => exact .inl h
  | cons request requests ih =>
      have hfirst : request ≠ .flush ∨ ∀ a, P a → P a.flush.2 :=
        hflush.imp_left fun hno heq => hno (heq ▸ List.mem_cons_self)
      have hothers : .flush ∉ requests ∨ ∀ a, P a → P a.flush.2 :=
        hflush.imp_left fun hno hmem => hno (List.mem_cons_of_mem request hmem)
      rcases h.serve htracks hfirst with hlike | ⟨hfails, e, hphase, hbehind⟩
      · rcases ih hlike hothers with hrest | ⟨hfails, hrest⟩
        · exact .inl hrest
        · exact .inr ⟨fun hall => hfails hall.2, hrest⟩
      · refine .inr ⟨fun hall => hfails hall.1, e, ?_⟩
        have hstill := (refuses_of_failed hphase).serveAll requests
        rw [Writer.serveAll, Writer.serveAll, hstill]
        exact ⟨hphase, serveAll_keeps (fun _ bs hs => hs.writeAll bs) (fun _ hs => hs.flush)
          hbehind requests⟩

/-! ## The law -/

theorem start_level (hsink : s.bytes = []) (h : start s sealer codec l = .ok w) (hP : P s) :
    Like (Sink.Level P) w { w with sink := .perfect } := by
  obtain ⟨-, rfl⟩ := start_ok h
  exact ⟨.perfect, rfl, ⟨rfl, rfl⟩, hsink.symm, hP⟩

theorem Like.bytes_eq (h : Like (Sink.Level P) w v) : v.sink.bytes = w.sink.bytes := by
  obtain ⟨sink, rfl, hlevel⟩ := h
  exact hlevel.bytes_eq

/-- Whatever the faults of its sink, what a writer has put out is at all times the
beginning of what the same calls put into a sink that accepts everything, and it is the
same as long as no call has failed.

When a writer has failed and its sink has not, it has been stopped by its sealer, a
counter or a length; it has put out the same as onto the other sink, and this is whole
frames of data chunks.  Else its failure is the error with which a reply has ended the
last call. -/
theorem sink_faults_contained (hsink : s.bytes = []) (h : start s sealer codec l = .ok w) :
    ∃ v, start .perfect sealer codec l = .ok v ∧ ∀ requests : List Request,
      (∀ k, (w.serveAll requests).sink.bytesAfter k <+: (v.serveAll requests).sink.bytes) ∧
      (w.AllSucceed requests →
        (w.serveAll requests).sink.bytes = (v.serveAll requests).sink.bytes) ∧
      (.flush ∉ requests → ∀ f, (w.serveAll requests).phase = .failed f →
        (s.Unfaulted (w.serveAll requests).sink →
          (w.serveAll requests).sink.bytes = (v.serveAll requests).sink.bytes ∧
            Halted l sealer codec f (w.serveAll requests).sink.bytes) ∧
        (¬ s.Unfaulted (w.serveAll requests).sink →
          ∃ e, f = .io e ∧ s.Faulted e (w.serveAll requests).sink)) := by
  refine ⟨_, start_onto h .perfect, fun requests => ?_⟩
  rw [← and_assoc]
  constructor
  · -- Of the sinks nothing is followed here but what they have accepted.
    rcases (start_level hsink h trivial).serveAll Sink.tracks_nothing (.inr fun _ _ => trivial) with
      hrun | ⟨hfails, e, -, hbehind⟩
    · exact ⟨fun k => hrun.bytes_eq ▸ Sink.bytesAfter_prefix _ k, fun _ => hrun.bytes_eq.symm⟩
    · exact ⟨fun k => (Sink.bytesAfter_prefix _ k).trans hbehind.bytes_prefix,
        fun hall => (hfails hall).elim⟩
  · intro hflush f hfailed
    rcases (start_level hsink h (.refl s)).serveAll s.tracks_faults (.inl hflush) with
      hrun | ⟨-, e, hphase, hbehind⟩
    · refine ⟨fun _ => ⟨hrun.bytes_eq.symm, ?_⟩, fun hfault => ?_⟩
      · -- The writer onto the other sink has failed in the same way.
        obtain ⟨v, ⟨log, rfl⟩, hcourse⟩ :=
          start_course rfl ⟨rfl, rfl⟩ (start_onto h .perfect) requests
        rw [← hrun.bytes_eq]
        exact hcourse.halted (hrun.phase_eq.trans hfailed)
      · obtain ⟨sink, -, hlevel⟩ := hrun
        exact (hfault hlevel.tracked).elim
    · obtain rfl : f = .io e := Phase.failed.inj (hfailed.symm.trans hphase)
      exact ⟨fun hno => (hbehind.tracked.not_unfaulted hno).elim,
        fun _ => ⟨e, rfl, hbehind.tracked⟩⟩

/-- Replies that accept little, interrupt once, and at last accept nothing. -/
def sampleReplies : List Sink.Reply :=
  [.accept 1, .failure ⟨.interrupted, none⟩, .accept 3, .accept 0]

/-- On the sample replies the first frame lacks its last byte.  With a sealer that fails
at the second chunk and a sink that only accepts little, the first frame stands alone. -/
theorem sample_faults_contained :
    (∃ w v, start (.scheduled sampleReplies []) (Chunk.tagSealer [255] 1) () sampleLayout = .ok w ∧
      start .perfect (Chunk.tagSealer [255] 1) () sampleLayout = .ok v ∧
      (w.serveAll [.write [97, 98, 99], .close]).sink.bytes = [4, 1, 97, 98] ∧
      (v.serveAll [.write [97, 98, 99], .close]).sink.bytes =
        [4, 1, 97, 98, 255, 3, 2, 99, 255, 2, 0, 255] ∧
      (w.serveAll [.write [97, 98, 99], .close]).sink.bytesAfter 1 <+:
        (v.serveAll [.write [97, 98, 99], .close]).sink.bytes) ∧
    ∃ w, start (.scheduled [.accept 2] []) (Chunk.failingSealer 0 .encryptionFailed) 1
        sampleLayout = .ok w ∧
      (w.serveAll [.write [97, 98, 99, 100]]).phase = .failed .encryptionFailed ∧
      (w.serveAll [.write [97, 98, 99, 100]]).sink.bytes = [3, 1, 97, 98] ∧
      Halted sampleLayout (Chunk.failingSealer 0 .encryptionFailed) 1 .encryptionFailed
        (w.serveAll [.write [97, 98, 99, 100]]).sink.bytes := by
  constructor
  · have hstart : start (.scheduled sampleReplies []) (Chunk.tagSealer [255] 1) ()
        sampleLayout = .ok _ := rfl
    obtain ⟨v, hv, hlaw⟩ := sink_faults_contained rfl hstart
    refine ⟨_, v, hstart, hv, rfl, ?_, (hlaw _).1 1⟩
    obtain rfl := Except.ok.inj hv
    rfl
  · have hstart : start (.scheduled [.accept 2] []) (Chunk.failingSealer 0 .encryptionFailed) 1
        sampleLayout = .ok _ := rfl
    obtain ⟨v, hv, hlaw⟩ := sink_faults_contained rfl hstart
    refine ⟨_, hstart, rfl, rfl, (((hlaw _).2.2 (by decide) _ rfl).1 ?_).2⟩
    exact ⟨[.accept 2], [], rfl, rfl, by decide, by decide⟩

end Writer

end SealedStream
