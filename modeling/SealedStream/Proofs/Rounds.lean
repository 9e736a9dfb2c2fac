import SealedStream.Proofs.Uniform
import SealedStream.Proofs.WireFormat

/-!
# The rounds of a write

With a buffer a write goes round a loop: it begins a chunk unless one has been begun,
takes in as much as the chunk still has room for, and seals the chunk once it is full.
Nothing in the loop looks at how much is left, so that it ends hangs on the writer: what
it holds back between two calls is shorter than the buffer, and begins with the number of
its chunk if it is not empty.

`Writer.Holding` says this of a writer, with no regard to its sealer and its sink; every
successful round keeps it and takes in at least one byte, and so does every call that
leaves the writer open.
-/

namespace SealedStream

namespace Writer

variable {σ : Type} {l : Layout} {w w' v : Writer σ} {data rest : Bytes} {k : Nat}

/-! ## One round -/

/-- What begins a round: a chunk is begun, unless one has been. -/
def prepare (w : Writer σ) : Outcome σ :=
  if w.pending.isEmpty then w.beginChunk else (.ok (), w)

/-- What ends a round: the chunk takes in what it has room for, and is sealed if that
makes it full. -/
def pack (w : Writer σ) (data : Bytes) : Outcome σ :=
  let w' := { w with pending := w.pending ++ data.take w.room }
  if w'.room = 0 then w'.sealPending else (.ok (), w')

/-- A round of a write that has this data left to take in. -/
def round (w : Writer σ) (data : Bytes) : Outcome σ :=
  w.prepare.andThen fun w => w.pack data

/-- So many rounds, all of them successful, lead from a writer with some data to take in
to a writer with the rest of it. -/
inductive Rounds : Nat → Writer σ → Bytes → Writer σ → Bytes → Prop
  | none (w : Writer σ) (data : Bytes) : Rounds 0 w data w data
  | next {k : Nat} {w w₁ w₂ v : Writer σ} {data rest : Bytes} :
      data ≠ [] → w.prepare = (.ok (), w₁) → w₁.pack data = (.ok (), w₂) →
      Rounds k w₂ (data.drop w₁.room) v rest → Rounds (k + 1) w data v rest

/-- Filling chunks is one round and the others. -/
theorem fill_round (k : Nat) (w : Writer σ) (hdata : data ≠ []) :
    fill (k + 1) w data =
      w.prepare.andThen fun w₁ =>
        (w₁.pack data).andThen fun w₂ => fill k w₂ (data.drop w₁.room) := by
  simp only [fill, List.isEmpty_iff, hdata, if_false, prepare, pack]

/-! ## What is held back -/

/-- What is held back begins with the number of its chunk, the one before the next. -/
def Numbered (w : Writer σ) : Prop :=
  ∀ form, w.layout.counter? = some form → ∃ i, w.nextCounter = i + 1 ∧
    form.encode i = .ok (form.bytes i) ∧ form.bytes i <+: w.pending

/-- What is held back between two calls is shorter than the buffer, and empty or
numbered. -/
structure Holding (l : Layout) (w : Writer σ) : Prop where
  layout_eq : w.layout = l
  short : w.pending.length < l.bufferSize
  numbered : w.pending = [] ∨ w.Numbered

/-- A chunk that has been begun is numbered and has room left. -/
structure Begun (l : Layout) (w : Writer σ) : Prop where
  layout_eq : w.layout = l
  short : w.pending.length < l.bufferSize
  numbered : w.Numbered

theorem Begun.room_pos (h : Begun l w) : 0 < w.room := by
  have hshort := h.short
  rw [room, h.layout_eq]
  omega

/-- What a chunk that has been begun takes in does not make it longer than the buffer. -/
theorem Begun.length_le (h : Begun l w) (data : Bytes) :
    (w.pending ++ data.take w.room).length ≤ l.bufferSize := by
  have hshort := h.short
  rw [List.length_append, List.length_take, room, h.layout_eq]
  omega

/-- Nothing is held back at first. -/
theorem start_holding {sink : Sink} {sealer : Sealer σ} {codec : σ}
    (h : start sink sealer codec l = .ok w) (hbuffer : l.bufferSize ≠ 0) : Holding l w := by
  obtain ⟨-, rfl⟩ := start_ok h
  exact ⟨rfl, Nat.pos_of_ne_zero hbuffer, .inl rfl⟩

/-- In a sound layout the number with which a round begins leaves room in its chunk. -/
theorem Holding.prepare (hl : l.check = .ok ()) (h : Holding l w)
    (hprepare : w.prepare = (.ok (), w')) : Begun l w' := by
  obtain ⟨hlayout, hshort, hnumbered⟩ := h
  unfold Writer.prepare at hprepare
  split at hprepare
  · rename_i hempty
    obtain ⟨next, rfl, hnext⟩ := beginChunk_ok hprepare
    have hpending : w.pending = [] := List.isEmpty_iff.1 hempty
    refine ⟨hlayout, ?_, fun form hform => ?_⟩
    · rw [hpending, List.nil_append, hlayout]
      exact Layout.length_number_lt hl (by omega) _
    · obtain ⟨rfl, hfits⟩ := hnext form hform
      refine ⟨w.nextCounter, rfl, IntForm.encode_of_lt hfits, ?_⟩
      have hform' : w.layout.counter? = some form := hform
      simp only [hpending, List.nil_append, Layout.number, hform']
      exact List.prefix_rfl
  · rename_i hne
    obtain rfl := (Prod.mk.inj hprepare).2
    exact ⟨hlayout, hshort, hnumbered.resolve_left (by simpa using hne)⟩

/-- A chunk that is not full is held back as it is; one that is full is sealed, and nothing
is held back. -/
theorem Begun.pack (h : Begun l w) (hpack : w.pack data = (.ok (), w')) : Holding l w' := by
  have hroom := h.room_pos
  obtain ⟨hlayout, hshort, hnumbered⟩ := h
  unfold Writer.pack at hpack
  dsimp only at hpack
  split at hpack
  · obtain ⟨chunk, codec, sink, -, rfl, -⟩ := sealPending_ok hpack
    exact ⟨hlayout, Nat.zero_lt_of_lt hshort, .inl rfl⟩
  · rename_i hnotfull
    obtain rfl := (Prod.mk.inj hpack).2
    refine ⟨hlayout, ?_, .inr fun form hform => ?_⟩
    · rw [room, hlayout] at hnotfull
      dsimp only at hnotfull ⊢
      omega
    · obtain ⟨i, hnext, hfits, hprefix⟩ := hnumbered form hform
      exact ⟨i, hnext, hfits, hprefix.trans (List.prefix_append _ _)⟩

/-! ## The run of the loop -/

/-- Rounds keep what is held back short, and each takes in at least one byte. -/
theorem Rounds.holding (hl : l.check = .ok ()) (h : Holding l w)
    (hrounds : Rounds k w data v rest) : Holding l v ∧ k + rest.length ≤ data.length := by
  induction hrounds with
  | none w data => exact ⟨h, by omega⟩
  | next hdata hprepare hpack _ ih =>
      have hbegun := h.prepare hl hprepare
      obtain ⟨hholding, hfewer⟩ := ih (hbegun.pack hpack)
      have hroom := hbegun.room_pos
      have hpos := List.length_pos_iff.2 hdata
      rw [List.length_drop] at hfewer
      exact ⟨hholding, by omega⟩

/-- Filling chunks is a run of rounds that ends because nothing is left to take in, or
because a round has failed; it is never cut short.  The induction is on the bound on the
rounds, which the data never exceeds. -/
theorem Holding.fill (hl : l.check = .ok ()) (h : Holding l w) (hk : data.length ≤ k) :
    ∃ n v rest, Rounds n w data v rest ∧
      ((rest = [] ∧ fill k w data = (.ok (), v)) ∨
        ∃ f v', rest ≠ [] ∧ v.round rest = (.error f, v') ∧
          fill k w data = (.error f, v')) := by
  induction k generalizing w data with
  | zero =>
      obtain rfl := List.eq_nil_of_length_eq_zero (Nat.le_zero.1 hk)
      exact ⟨0, w, [], .none w [], .inl ⟨rfl, rfl⟩⟩
  | succ k ih =>
      by_cases hdata : data = []
      · subst hdata
        exact ⟨0, w, [], .none w [], .inl ⟨rfl, rfl⟩⟩
      · rw [fill_round k w hdata]
        rcases hprepare : w.prepare with ⟨answer, w₁⟩
        cases answer with
        | error f =>
            refine ⟨0, w, data, .none w data, .inr ⟨f, w₁, hdata, ?_, rfl⟩⟩
            rw [round, hprepare]
            rfl
        | ok u =>
            have hbegun := h.prepare hl hprepare
            have hshorter : (data.drop w₁.room).length ≤ k := by
              have hroom := hbegun.room_pos
              rw [List.length_drop]
              omega
            rcases hpack : w₁.pack data with ⟨answer, w₂⟩
            cases answer with
            | error f =>
                refine ⟨0, w, data, .none w data, .inr ⟨f, w₂, hdata, ?_, ?_⟩⟩
                · rw [round, hprepare]
                  exact hpack
                · simp only [Outcome.andThen, hpack]
            | ok u =>
                obtain ⟨n, v, rest, hrounds, hend⟩ := ih (hbegun.pack hpack) hshorter
                refine ⟨n + 1, v, rest, .next hdata hprepare hpack hrounds, ?_⟩
                simpa only [Outcome.andThen, hpack] using hend

/-! ## Calls -/

/-- A write to an open writer is the run of its rounds. -/
theorem Holding.write (hl : l.check = .ok ()) (h : Holding l w) (hopen : w.phase = .writing)
    (data : Bytes) :
    ∃ n v rest, Rounds n w data v rest ∧
      ((rest = [] ∧ w.write data = (.ok data.length, v)) ∨
        ∃ f v', rest ≠ [] ∧ v.round rest = (.error f, v') ∧
          w.write data = (.error f, v'.fail f)) := by
  by_cases hdata : data = []
  · subst hdata
    exact ⟨0, w, [], .none w [], .inl ⟨rfl, write_nil hopen⟩⟩
  · have hbuffer : w.layout.bufferSize ≠ 0 := by
      have hshort := h.short
      rw [h.layout_eq]
      omega
    have hwrite := write_eq hopen hdata
    rw [take, if_neg hbuffer] at hwrite
    obtain ⟨n, v, rest, hrounds, hend⟩ := h.fill hl (le_refl data.length)
    refine ⟨n, v, rest, hrounds, ?_⟩
    rcases hend with ⟨hrest, hfill⟩ | ⟨f, v', hrest, hround, hfill⟩
    · rw [hwrite, hfill]
      exact .inl ⟨hrest, rfl⟩
    · rw [hwrite, hfill]
      exact .inr ⟨f, v', hrest, hround, rfl⟩

/-- Whatever call an open writer takes, it holds back what it may, or is no longer open. -/
theorem Holding.serve (hl : l.check = .ok ()) (h : w.phase = .writing → Holding l w)
    (request : Request) (hopen : (w.serve request).phase = .writing) :
    Holding l (w.serve request) := by
  cases hphase : w.phase with
  | failed f =>
      rw [(refuses_of_failed hphase).serve] at hopen
      simp [hphase] at hopen
  | closed =>
      obtain ⟨flushes, calls, hserve⟩ := closed_serve hphase request
      rw [hserve] at hopen
      simp [hphase] at hopen
  | writing =>
      have hholding := h hphase
      have hwrite (data : Bytes) (hdone : (w.write data).2.phase = .writing) :
          Holding l (w.write data).2 := by
        obtain ⟨n, v, rest, hrounds, hend⟩ := hholding.write hl hphase data
        rcases hend with ⟨-, heq⟩ | ⟨f, v', -, -, heq⟩
        · rw [heq]
          exact (hrounds.holding hl hholding).1
        · rw [heq] at hdone
          simp [fail] at hdone
      cases request with
      | write data => exact hwrite data hopen
      | writeSome data =>
          rw [Writer.serve, writeSome_snd] at hopen ⊢
          exact hwrite data hopen
      | flush =>
          obtain ⟨sink, hflush, -⟩ := w.flush_snd
          rw [Writer.serve, hflush]
          exact ⟨hholding.layout_eq, hholding.short, hholding.numbered⟩
      | close =>
          -- After a close a writer is closed or has failed.
          rw [Writer.serve, close_eq hphase] at hopen
          rcases hfinish : w.finish with ⟨answer, w'⟩
          rw [hfinish] at hopen
          cases answer <;> simp [Outcome.kept, fail] at hopen

theorem Holding.serveAll (hl : l.check = .ok ()) (h : w.phase = .writing → Holding l w)
    (requests : List Request) (hopen : (w.serveAll requests).phase = .writing) :
    Holding l (w.serveAll requests) := by
  induction requests generalizing w with
  | nil => exact h hopen
  | cons request requests ih => exact ih (Holding.serve hl h request) hopen

/-- The loop of a write makes progress.  Of a writer with a buffer that is open after any
calls, what is held back is shorter than the buffer, and empty or numbered.  Whatever it is
then given to write, each round finds room for at least one byte behind the number of its
chunk, so that there are no more rounds than bytes; and the rounds come to an end, either
with nothing left to take in or with the failure of a round, which the write answers. -/
theorem write_progresses {sink : Sink} {sealer : Sealer σ} {codec : σ}
    (h : start sink sealer codec l = .ok w) (hbuffer : l.bufferSize ≠ 0)
    (requests : List Request) (hv : w.serveAll requests = v) (hopen : v.phase = .writing) :
    (v.pending.length < l.bufferSize ∧ (v.pending = [] ∨ v.Numbered)) ∧
      ∀ data,
        (∀ n u rest, Rounds n v data u rest → n + rest.length ≤ data.length ∧
          ∀ u', rest ≠ [] → u.prepare = (.ok (), u') →
            u'.layout = l ∧ u'.pending.length < l.bufferSize ∧ u'.Numbered ∧
              1 ≤ u'.room ∧ 1 ≤ (rest.take u'.room).length) ∧
        ∃ n u rest, Rounds n v data u rest ∧
          ((rest = [] ∧ v.write data = (.ok data.length, u)) ∨
            ∃ f u', rest ≠ [] ∧ u.round rest = (.error f, u') ∧
              v.write data = (.error f, u'.fail f)) := by
  obtain ⟨hl, -⟩ := start_ok h
  subst hv
  have hholding := Holding.serveAll hl (fun _ => start_holding h hbuffer) requests hopen
  refine ⟨⟨hholding.short, hholding.numbered⟩, fun data => ⟨?_, hholding.write hl hopen data⟩⟩
  intro n u rest hrounds
  obtain ⟨hu, hfewer⟩ := hrounds.holding hl hholding
  refine ⟨hfewer, fun u' hrest hprepare => ?_⟩
  have hbegun := hu.prepare hl hprepare
  have hroom := hbegun.room_pos
  have hpos := List.length_pos_iff.2 hrest
  refine ⟨hbegun.layout_eq, hbegun.short, hbegun.numbered, hroom, ?_⟩
  rw [List.length_take]
  omega

/-- The sample calls leave one byte behind the number three; three more bytes take two
rounds. -/
theorem write_progresses_sample :
    ∃ w v, start .perfect (Chunk.tagSealer [255] 1) () sampleLayout = .ok w ∧
      w.serveAll [.write [97], .flush, .write [98, 99, 100, 101]] = v ∧
      v.phase = .writing ∧ v.pending = [3, 101] ∧ v.Numbered ∧
      ∃ n u rest, Rounds n v [102, 103, 104] u rest ∧ n ≤ 3 ∧ rest = [] ∧
        v.write [102, 103, 104] = (.ok 3, u) := by
  have hstart : start .perfect (Chunk.tagSealer [255] 1) () sampleLayout = .ok _ := rfl
  obtain ⟨⟨-, hnumbered⟩, hwrites⟩ := write_progresses hstart (by decide)
    [.write [97], .flush, .write [98, 99, 100, 101]] rfl rfl
  obtain ⟨hbound, n, u, rest, hrounds, hend⟩ := hwrites [102, 103, 104]
  refine ⟨_, _, hstart, rfl, rfl, rfl, hnumbered.resolve_left (by decide), n, u, rest, hrounds,
    Nat.le_of_add_right_le (hbound n u rest hrounds).1, ?_⟩
  rcases hend with hdone | ⟨f, u', -, -, hfailed⟩
  · exact hdone
  · have hanswer : (Except.ok 3 : Except Failure Nat) = .error f := congrArg Prod.fst hfailed
    simp at hanswer

end Writer

end SealedStream
