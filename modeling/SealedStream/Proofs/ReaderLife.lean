import SealedStream.Proofs.SealedEnd
import SealedStream.Proofs.WireFormat

/-!
# The life of a reader

A reader reads until a pull fails, the end of its stream is taken, or it is closed.  It
may fail behind payload that it still hands out: then the read is answered with the
payload, and the failure is the answer to everything after it.  At the end of its stream
it hands out what is at hand and answers with nothing from then on, until it is closed.

What a reader still has to hand out, and what comes behind it, is said by
`Reader.Yields`.  Every reader that calls have brought anywhere yields something, so the
laws stated here in terms of it leave no case out.
-/

namespace SealedStream

namespace Reader

variable {σ τ : Type} {r u : Reader σ} {f : Failure}

/-! ## Runs -/

/-- A call on a reader, of any kind. -/
inductive Request
  | read (n : Nat)
  | readSome (n : Nat)
  | close
  deriving DecidableEq, Repr

/-- The reader after a call, whatever the call has been answered. -/
def serve (r : Reader σ) : Request → Reader σ
  | .read n => (r.read n).2
  | .readSome n => (r.readSome n).2
  | .close => r.close.2

/-- The reader after these calls, made one after the other. -/
def serveAll : Reader σ → List Request → Reader σ
  | r, [] => r
  | r, request :: requests => serveAll (r.serve request) requests

/-- Reading as a byte channel is reading, with the failure wrapped. -/
theorem readSome_eq (r : Reader σ) (n : Nat) :
    r.readSome n = ((r.read n).1.mapError .stream, (r.read n).2) := by
  unfold readSome
  rcases r.read n with ⟨answer, r'⟩
  cases answer <;> rfl

/-- The call without its interface. -/
def Request.call : Request → Call
  | .read n | .readSome n => .read n
  | .close => .close

theorem serveAll_eq_after (r : Reader σ) (requests : List Request) :
    r.serveAll requests = r.after (requests.map Request.call) := by
  induction requests generalizing r with
  | nil => rfl
  | cons request requests ih =>
      cases request with
      | read n => exact ih _
      | readSome n =>
          rw [serveAll, serve, readSome_eq]
          exact ih _
      | close => exact ih _

/-! ## Readers that have come to rest -/

/-- From now on every call is refused with this failure and changes nothing. -/
structure Stuck (r : Reader σ) (f : Failure) : Prop where
  read (n : Nat) : r.read n = (.error f, r)
  readSome (n : Nat) : r.readSome n = (.error (.stream f), r)
  close : r.close = (.error f, r)
  still (later : List Request) : r.serveAll later = r

theorem stuck_of_calls (hread : ∀ n, r.read n = (.error f, r)) (hclose : r.close = (.error f, r)) :
    r.Stuck f := by
  have hsome (n : Nat) : r.readSome n = (.error (.stream f), r) := by
    rw [readSome_eq, hread]
    rfl
  refine ⟨hread, hsome, hclose, fun later => ?_⟩
  induction later with
  | nil => rfl
  | cons request later ih =>
      have hstill : r.serve request = r := by
        cases request with
        | read n => exact congrArg Prod.snd (hread n)
        | readSome n => exact congrArg Prod.snd (hsome n)
        | close => exact congrArg Prod.snd hclose
      rw [serveAll, hstill, ih]

theorem stuck_of_failed (h : r.phase = .failed f) : r.Stuck f :=
  stuck_of_calls (fun n => by simp [Reader.read, h]) (by simp [Reader.close, h])

theorem stuck_of_closed (h : r.phase = .closed) : r.Stuck .streamClosed :=
  stuck_of_calls (fun n => by simp [Reader.read, h]) (by simp [Reader.close, h])

/-- At the end of the stream, with nothing at hand: reads are answered with nothing and
change nothing, and closing succeeds, after which every call is refused. -/
structure Ended (r : Reader σ) : Prop where
  phase_eq : r.phase = .terminated
  pending_eq : r.pending = []
  read (n : Nat) : r.read n = (.ok [], r)
  readSome (n : Nat) : r.readSome n = (.ok [], r)
  close : r.close = (.ok (), { r with phase := .closed })
  closed : Stuck { r with phase := .closed } .streamClosed

/-- After the end of the stream reads hand out what is at hand. -/
theorem read_terminated (h : r.phase = .terminated) (n : Nat) :
    r.read n = (.ok (r.pending.take n), { r with pending := r.pending.drop n }) := by
  simp only [Reader.read, h]
  rw [supply_at_hand (.inr h), List.nil_append, h]

theorem ended_of_terminated (hphase : r.phase = .terminated) (hpending : r.pending = []) :
    r.Ended := by
  have hread (n : Nat) : r.read n = (.ok [], r) := by
    rw [read_terminated hphase, hpending, List.take_nil, List.drop_nil, ← hpending]
  refine ⟨hphase, hpending, hread, fun n => ?_, by simp [Reader.close, hphase],
    stuck_of_closed rfl⟩
  rw [readSome_eq, hread]
  rfl

/-- The same reader with another source and another opener. -/
def onto (r : Reader σ) (opener : Opener τ) (codec : τ) (source : Source) : Reader τ :=
  ⟨r.layout, opener, codec, source, r.pending, r.expected, r.phase⟩

/-- The reader leaves its source and its opener alone, and answers as it would with any
others in their places. -/
structure Idle (r : Reader σ) : Prop where
  source_eq (request : Request) : (r.serve request).source = r.source
  codec_eq (request : Request) : (r.serve request).codec = r.codec
  read_onto {τ : Type} (opener : Opener τ) (codec : τ) (source : Source) (n : Nat) :
    (r.onto opener codec source).read n = ((r.read n).1, (r.read n).2.onto opener codec source)
  close_onto {τ : Type} (opener : Opener τ) (codec : τ) (source : Source) :
    (r.onto opener codec source).close = (r.close.1, r.close.2.onto opener codec source)

theorem Stuck.serve (h : r.Stuck f) (request : Request) : r.serve request = r :=
  h.still [request]

theorem Stuck.idle (h : r.Stuck f)
    (honto : ∀ (τ : Type) (opener : Opener τ) codec source,
      (r.onto opener codec source).Stuck f) : r.Idle where
  source_eq request := by rw [h.serve]
  codec_eq request := by rw [h.serve]
  read_onto opener codec source n := by rw [(honto _ opener codec source).read, h.read]
  close_onto opener codec source := by rw [(honto _ opener codec source).close, h.close]

theorem idle_of_phase (h : r.phase ≠ .reading) : r.Idle := by
  cases hphase : r.phase with
  | reading => exact (h hphase).elim
  | closed => exact (stuck_of_closed hphase).idle fun _ _ _ _ => stuck_of_closed hphase
  | failed f => exact (stuck_of_failed hphase).idle fun _ _ _ _ => stuck_of_failed hphase
  | terminated =>
      have hclose : r.close = (.ok (), { r with phase := .closed }) := by
        simp [Reader.close, hphase]
      refine ⟨fun request => ?_, fun request => ?_, fun opener codec source n => ?_,
        fun opener codec source => ?_⟩
      · cases request <;> simp [serve, readSome_eq, read_terminated hphase, hclose]
      · cases request <;> simp [serve, readSome_eq, read_terminated hphase, hclose]
      · rw [read_terminated hphase, read_terminated (r := r.onto opener codec source) hphase]
        rfl
      · rw [hclose]
        simp [Reader.close, onto, hphase]

/-- A reader that no longer reads never reads again. -/
theorem serve_phase_ne (h : r.phase ≠ .reading) (request : Request) :
    (r.serve request).phase ≠ .reading := by
  cases hphase : r.phase with
  | reading => exact (h hphase).elim
  | closed => simp [(stuck_of_closed hphase).serve, hphase]
  | failed f => simp [(stuck_of_failed hphase).serve, hphase]
  | terminated =>
      cases request <;> simp [serve, readSome_eq, read_terminated hphase, Reader.close, hphase]

/-- So its source and its opener are left alone for good. -/
theorem idle_serveAll (h : r.phase ≠ .reading) (later : List Request) :
    (r.serveAll later).Idle ∧ (r.serveAll later).source = r.source ∧
      (r.serveAll later).codec = r.codec := by
  induction later generalizing r with
  | nil => exact ⟨idle_of_phase h, rfl, rfl⟩
  | cons request later ih =>
      obtain ⟨hidle, hsource, hcodec⟩ := ih (serve_phase_ne h request)
      have hfirst := idle_of_phase h
      exact ⟨hidle, hsource.trans (hfirst.source_eq request),
        hcodec.trans (hfirst.codec_eq request)⟩

/-! ## A failure or an end that a read comes upon -/

/-- A read for more than comes before a failure takes the pull that fails, and keeps the
failure.  The induction is on what is yielded, as for `Yields.supply`. -/
theorem Yields.supply_failed {bytes : Bytes} {ending : Except Failure Unit}
    (h : Yields r bytes ending) (hending : ending = .error f)
    (hlive : r.phase = .reading ∨ r.phase = .terminated) {k : Nat}
    (hk : r.phase = .reading → r.source.left < k) {want : Nat} (hwant : bytes.length < want)
    (got : Bytes) : (Reader.supply k want got r).2.phase = .failed f := by
  induction h generalizing k want got with
  | terminated => simp at hending
  | closed hphase | failed hphase => simp [hphase] at hlive
  | @cut r r' g hphase hpull =>
      obtain rfl := Except.error.inj hending
      obtain ⟨k, rfl⟩ := Nat.exists_eq_succ_of_ne_zero (Nat.ne_zero_of_lt (hk hphase))
      rw [supply_pull_error hphase hwant hpull]
      rfl
  | @more r r' bytes ending hphase hpull hnext hrest ih =>
      -- The pull has taken a part of the source, so the rounds left are enough for the rest.
      obtain ⟨k, rfl⟩ := Nat.exists_eq_succ_of_ne_zero (Nat.ne_zero_of_lt (hk hphase))
      rw [List.length_append] at hwant
      have hlive' : r'.phase = .reading ∨ r'.phase = .terminated :=
        hnext.symm.imp And.left id
      have hk' : r'.phase = .reading → r'.source.left < k := by
        intro hgoes
        have hleft := (hnext.resolve_left (by simp [hgoes])).2
        have hrounds := hk hphase
        omega
      rw [supply_pull_ok hphase (by omega) hpull]
      exact ih hending hlive' hk' (by omega) _

/-- Whether reported at once or handed-out bytes later, the failure is kept. -/
theorem Yields.stuck {bytes : Bytes} (h : Yields r bytes (.error f)) {n : Nat}
    (hn : bytes.length < n) :
    (r.read n).1 = (if bytes = [] then .error f else .ok bytes) ∧ (r.read n).2.Stuck f := by
  obtain ⟨-, -, hanswer, -⟩ := h.read n
  refine ⟨?_, ?_⟩
  · rw [hanswer (by omega), List.take_of_length_le hn.le]
    by_cases hbytes : bytes = [] <;> simp [hbytes, Except.map]
  · cases hphase : r.phase with
    | terminated => simpa using (h.at_end hphase).2
    | closed =>
        obtain rfl : f = .streamClosed := by
          cases h with
          | closed => rfl
          | failed hother | cut hother | more hother => simp [hphase] at hother
        rw [(stuck_of_closed hphase).read]
        exact stuck_of_closed hphase
    | failed g =>
        obtain rfl : f = g := by
          cases h with
          | failed hother =>
              rw [hphase] at hother
              exact (Phase.failed.inj hother).symm
          | closed hother | cut hother | more hother => simp [hphase] at hother
        rw [(stuck_of_failed hphase).read]
        exact stuck_of_failed hphase
    | reading =>
        apply stuck_of_failed
        simp only [Reader.read, hphase]
        exact h.supply_failed rfl (.inl hphase) (fun _ => by unfold weight; omega) hn []

/-- An answer with nothing to a request for some bytes comes from a reader that has
nothing more to hand out before the end of its stream. -/
theorem Yields.read_nil_iff {bytes : Bytes} {ending : Except Failure Unit}
    (h : Yields r bytes ending) {n : Nat} (hn : 0 < n) :
    (r.read n).1 = .ok [] ↔ bytes = [] ∧ ending = .ok () := by
  obtain ⟨-, -, hanswer, -⟩ := h.read n
  rw [hanswer hn]
  by_cases hbytes : bytes = []
  · cases ending <;> simp [hbytes, Except.map]
  · simp [hbytes, hn.ne']

theorem Yields.ended (h : Yields r [] (.ok ())) {n : Nat} (hn : 0 < n) : (r.read n).2.Ended := by
  obtain ⟨hrest, -, -, hclose⟩ := h.read n
  have hphase := Reader.close_ok_iff.1 (hclose hn)
  have hpending := (hrest.at_end hphase).1
  exact ended_of_terminated hphase (by simpa using hpending.symm)

theorem Yields.stuck_of_error {bytes : Bytes} {ending : Except Failure Unit}
    (h : Yields r bytes ending) {n : Nat} (herror : (r.read n).1 = .error f) :
    (r.read n).2.Stuck f := by
  by_cases hn : 0 < n
  · obtain ⟨-, -, hanswer, -⟩ := h.read n
    rw [hanswer hn] at herror
    split at herror
    · simp at herror
    · rename_i hbytes
      obtain rfl := not_not.1 hbytes
      cases ending with
      | ok u => simp [Except.map] at herror
      | error g =>
          obtain rfl : g = f := Except.error.inj herror
          exact (h.stuck (by simpa using hn)).2
  · -- Nothing has been asked for, so the reader had refused before.
    obtain rfl : n = 0 := by omega
    cases hphase : r.phase with
    | reading =>
        simp only [Reader.read, hphase] at herror
        rw [supply_at_hand (.inl (Nat.zero_le _))] at herror
        simp at herror
    | terminated => simp [read_terminated hphase] at herror
    | closed =>
        rw [(stuck_of_closed hphase).read] at herror ⊢
        exact Except.error.inj herror ▸ stuck_of_closed hphase
    | failed g =>
        rw [(stuck_of_failed hphase).read] at herror ⊢
        exact Except.error.inj herror ▸ stuck_of_failed hphase

/-! ## The life of a reader -/

/-- What every call is answered, and what becomes of the reader. -/
structure LifeCycle (r : Reader σ) : Prop where
  /-- Some bytes are still to come, and then a failure or the end of the stream. -/
  yields : ∃ bytes ending, r.Yields bytes ending
  /-- A read for more than comes before a failure hands out what does come before it, or
  reports the failure if nothing does.  Either way the failure is kept. -/
  fails {bytes : Bytes} {f : Failure} {n : Nat} : r.Yields bytes (.error f) →
    bytes.length < n →
      (r.read n).1 = (if bytes = [] then .error f else .ok bytes) ∧ (r.read n).2.Stuck f
  /-- Any failure that a call reports is kept. -/
  read_error {f : Failure} {n : Nat} : (r.read n).1 = .error f → (r.read n).2.Stuck f
  close_error {f : Failure} : r.close.1 = .error f → r.close.2.Stuck f
  /-- A request for some bytes is answered with nothing exactly if nothing is to come before
  the end of the stream; then the end has been taken, and nothing is at hand. -/
  read_nil_iff {n : Nat} : 0 < n → ((r.read n).1 = .ok [] ↔ r.Yields [] (.ok ()))
  ended_of_nil {n : Nat} : 0 < n → (r.read n).1 = .ok [] → (r.read n).2.Ended
  ended : r.phase = .terminated → r.pending = [] → r.Ended
  /-- Closing before the end is a truncation. -/
  close_reading : r.phase = .reading → r.close = (.error .streamTruncated, r.fail .streamTruncated)
  /-- A reader that no longer reads leaves its source and its opener alone for good. -/
  idle : r.phase ≠ .reading → ∀ later : List Request,
    (r.serveAll later).Idle ∧ (r.serveAll later).source = r.source ∧
      (r.serveAll later).codec = r.codec
  failed {f : Failure} : r.phase = .failed f → r.Stuck f
  closed : r.phase = .closed → r.Stuck .streamClosed

theorem stuck_of_close_error (h : r.close.1 = .error f) : r.close.2.Stuck f := by
  cases hphase : r.phase with
  | terminated => simp [Reader.close, hphase] at h
  | reading =>
      have hclose : r.close = (.error .streamTruncated, r.fail .streamTruncated) := by
        simp [Reader.close, hphase]
      rw [hclose] at h ⊢
      exact Except.error.inj h ▸ stuck_of_failed rfl
  | closed =>
      rw [(stuck_of_closed hphase).close] at h ⊢
      exact Except.error.inj h ▸ stuck_of_closed hphase
  | failed g =>
      rw [(stuck_of_failed hphase).close] at h ⊢
      exact Except.error.inj h ▸ stuck_of_failed hphase

/-- Wherever calls have brought a reader, it yields something: in a sound layout each pull
that goes on takes a part of the source. -/
theorem Reached.yields {l : Layout} {opener : Opener σ} {t : σ} {source : Source}
    (hl : l.check = .ok ()) (h : Reached l opener t source r) :
    ∃ bytes ending, r.Yields bytes ending := by
  cases hphase : r.phase with
  | reading => exact exists_yields r ((h.codec hphase).1 ▸ hl)
  | terminated => exact ⟨_, _, .terminated hphase⟩
  | closed => exact ⟨_, _, .closed hphase⟩
  | failed f => exact ⟨_, _, .failed hphase⟩

theorem Yields.lifeCycle {bytes : Bytes} {ending : Except Failure Unit}
    (h : Yields r bytes ending) : r.LifeCycle := by
  have hnil {n : Nat} (hn : 0 < n) (hempty : (r.read n).1 = .ok []) : Yields r [] (.ok ()) := by
    obtain ⟨rfl, rfl⟩ := (h.read_nil_iff hn).1 hempty
    exact h
  exact {
    yields := ⟨bytes, ending, h⟩
    fails := fun hfails hn => hfails.stuck hn
    read_error := h.stuck_of_error
    close_error := stuck_of_close_error
    read_nil_iff := fun hn => ⟨hnil hn, fun hend => (hend.read_nil_iff hn).2 ⟨rfl, rfl⟩⟩
    ended_of_nil := fun hn hempty => (hnil hn hempty).ended hn
    ended := ended_of_terminated
    close_reading := fun hphase => by simp [Reader.close, hphase]
    idle := idle_serveAll
    failed := stuck_of_failed
    closed := stuck_of_closed }

/-- Whatever the source and the opener do, and whatever calls have been made, a reader
keeps to these laws. -/
theorem reader_life_cycle {l : Layout} {opener : Opener σ} {t : σ} {source : Source}
    (h : start source opener t l = .ok r) (requests : List Request) :
    (r.serveAll requests).LifeCycle := by
  obtain ⟨hl, rfl⟩ := start_ok h
  have hreached : Reached l opener t source _ :=
    Reached.fresh.after hl (requests.map Request.call)
  rw [← serveAll_eq_after] at hreached
  obtain ⟨bytes, ending, hyields⟩ := hreached.yields hl
  exact hyields.lifeCycle

/-- A stream cut inside its second frame: the payload of the first frame is handed out
before the failure, which answers everything after it. -/
theorem cut_source_life :
    ∃ r, start (.ofBytes [4, 1, 97, 98, 255, 4, 2]) (Chunk.tagOpener [255] 1) ()
        Writer.sampleLayout = .ok r ∧
      (r.read 8).1 = .ok [97, 98] ∧
      ((r.read 8).2.serveAll [.readSome 0, .close]).read 0 =
        (.error .streamTruncated, (r.read 8).2) := by
  have hstart : start (.ofBytes [4, 1, 97, 98, 255, 4, 2]) (Chunk.tagOpener [255] 1) ()
      Writer.sampleLayout = .ok _ := rfl
  have hlaws := reader_life_cycle hstart [.read 8]
  have hstuck := hlaws.failed (f := .streamTruncated) rfl
  refine ⟨_, hstart, rfl, ?_⟩
  exact (congrArg (read · 0) (hstuck.still [.readSome 0, .close])).trans (hstuck.read 0)

end Reader

end SealedStream
