import SealedStream.Chunk.Plain

/-!
# What a codec has sealed

A sealer can be made to keep a record of the chunks it has sealed, each with
its plaintext, in order.  The record is read by nobody, so the sealer answers
as it did before; it only gives a name to the chunks of a stream.

`Sealer.Seals` and `Opener.Opens` say what a run of calls does to such a list
of chunks.  A sealer and an opener match if whatever the one seals in order the
other opens in order, and if both know by how much a chunk grows.  Nothing is
asked of a call that fails.
-/

namespace SealedStream

/-- A sealed chunk with its plaintext. -/
structure Sealing where
  text : Bytes
  chunk : Bytes
  deriving DecidableEq, Repr

/-- The state of a sealer that keeps a record, oldest chunk first. -/
structure Recorded (σ : Type) where
  state : σ
  record : List Sealing

variable {σ τ : Type}

namespace Sealer

/-- The same sealer, keeping a record. -/
def recording (sealer : Sealer σ) : Sealer (Recorded σ) where
  overhead := sealer.overhead
  sealChunk r text :=
    match sealer.sealChunk r.state text with
    | (.ok chunk, state) => (.ok chunk, ⟨state, r.record ++ [⟨text, chunk⟩]⟩)
    | (.error f, state) => (.error f, ⟨state, r.record⟩)

/-- A successful call adds one entry to the record and does nothing else. -/
theorem recording_ok {sealer : Sealer σ} {r r' : Recorded σ} {text chunk : Bytes}
    (h : sealer.recording.sealChunk r text = (.ok chunk, r')) :
    sealer.sealChunk r.state text = (.ok chunk, r'.state) ∧
      r'.record = r.record ++ [⟨text, chunk⟩] := by
  simp only [recording] at h
  cases hseal : sealer.sealChunk r.state text with
  | mk answer state =>
      cases answer with
      | error f => simp [hseal] at h
      | ok sealed =>
          simp only [hseal, Prod.mk.injEq, Except.ok.injEq] at h
          obtain ⟨rfl, rfl⟩ := h
          exact ⟨rfl, rfl⟩

/-- Sealing the texts one after the other gives the chunks. -/
inductive Seals (sealer : Sealer σ) : σ → List Sealing → σ → Prop
  | nil (s : σ) : Seals sealer s [] s
  | cons {s s₁ s' : σ} {c : Sealing} {record : List Sealing} :
      sealer.sealChunk s c.text = (.ok c.chunk, s₁) →
      Seals sealer s₁ record s' → Seals sealer s (c :: record) s'

theorem Seals.concat {sealer : Sealer σ} {s s₁ s' : σ} {record : List Sealing}
    {c : Sealing} (h : sealer.Seals s record s₁)
    (hc : sealer.sealChunk s₁ c.text = (.ok c.chunk, s')) :
    sealer.Seals s (record ++ [c]) s' := by
  induction h with
  | nil s => exact .cons hc (.nil s')
  | cons hfirst _ ih => exact .cons hfirst (ih hc)

end Sealer

namespace Opener

/-- Opening the chunks one after the other gives the texts. -/
def Opens (opener : Opener τ) : τ → List Sealing → Prop
  | _, [] => True
  | t, c :: record =>
      ∃ t' : τ, opener.openChunk t c.chunk = (.ok c.text, t') ∧
        Opens opener t' record

/-- The state that an opener has reached from `t` after it has opened `k`
chunks. -/
inductive After (opener : Opener τ) (t : τ) : (k : Nat) → τ → Prop
  | start : After opener t 0 t
  | opened {k : Nat} {t₁ t₂ : τ} {chunk text : Bytes} :
      After opener t k t₁ → opener.openChunk t₁ chunk = (.ok text, t₂) →
      After opener t (k + 1) t₂

/-- The opener opens each chunk of this record, whatever it has opened before. -/
def OpensAnywhere (opener : Opener τ) (t : τ) (record : List Sealing) : Prop :=
  ∀ k t₁, opener.After t k t₁ → ∀ c ∈ record,
    ∃ t₂, opener.openChunk t₁ c.chunk = (.ok c.text, t₂)

/-- The opener opens nothing but chunks of this record, and to their
plaintexts. -/
def OpensOnly (opener : Opener τ) (t : τ) (record : List Sealing) : Prop :=
  ∀ k t₁ chunk text t₂, opener.After t k t₁ →
    opener.openChunk t₁ chunk = (.ok text, t₂) → ⟨text, chunk⟩ ∈ record

/-- After `k` chunks the opener opens nothing but the chunk of this record that
comes next, and to its plaintext. -/
def BoundTo (opener : Opener τ) (t : τ) (record : List Sealing) : Prop :=
  ∀ k t₁ chunk text t₂, opener.After t k t₁ →
    opener.openChunk t₁ chunk = (.ok text, t₂) → record[k]? = some ⟨text, chunk⟩

theorem BoundTo.opensOnly {opener : Opener τ} {t : τ} {record : List Sealing}
    (h : opener.BoundTo t record) : opener.OpensOnly t record :=
  fun k t₁ chunk text t₂ hafter hopen =>
    List.mem_of_getElem? (h k t₁ chunk text t₂ hafter hopen)

/-- Chunks that are opened anywhere are opened in any order. -/
theorem OpensAnywhere.opens {opener : Opener τ} {t t₁ : τ} {record kept : List Sealing}
    (h : opener.OpensAnywhere t record) (hkept : ∀ c ∈ kept, c ∈ record) {k : Nat}
    (hafter : opener.After t k t₁) : opener.Opens t₁ kept := by
  induction kept generalizing k t₁ with
  | nil => exact trivial
  | cons c kept ih =>
      obtain ⟨t₂, hopen⟩ := h k t₁ hafter c (hkept c List.mem_cons_self)
      exact ⟨t₂, hopen, ih (fun c' hc' => hkept c' (List.mem_cons_of_mem c hc'))
        (.opened hafter hopen)⟩

/-- The opener that finds the chunks of a record in it, in any order. -/
def ofRecord (record : List Sealing) (overhead : Nat) : Opener Unit where
  overhead := overhead
  openChunk t chunk :=
    match record.find? fun c => c.chunk = chunk with
    | some c => (.ok c.text, t)
    | none => (.error .authenticationFailed, t)

theorem ofRecord_opensOnly (record : List Sealing) (overhead : Nat) :
    (ofRecord record overhead).OpensOnly () record := by
  intro k t chunk text t' _ hopen
  simp only [ofRecord] at hopen
  split at hopen
  · rename_i c hfind
    obtain rfl := Except.ok.inj (Prod.mk.inj hopen).1
    obtain rfl : c.chunk = chunk := by simpa using List.find?_some hfind
    exact List.mem_of_find?_eq_some hfind
  · simp at hopen

/-- The opener that opens the chunks of a record one after the other, and
nothing else; its state is how many it has opened. -/
def inOrder (record : List Sealing) (overhead : Nat) : Opener Nat where
  overhead := overhead
  openChunk k chunk :=
    match record[k]? with
    | some c => if c.chunk = chunk then (.ok c.text, k + 1) else (.error .authenticationFailed, k)
    | none => (.error .authenticationFailed, k)

theorem inOrder_ok {record : List Sealing} {overhead k k' : Nat} {chunk text : Bytes}
    (h : (inOrder record overhead).openChunk k chunk = (.ok text, k')) :
    record[k]? = some ⟨text, chunk⟩ ∧ k' = k + 1 := by
  simp only [inOrder] at h
  split at h
  · rename_i c hc
    split at h
    · rename_i hchunk
      obtain ⟨htext, rfl⟩ := Prod.mk.inj h
      obtain rfl := Except.ok.inj htext
      exact ⟨by rw [hc, ← hchunk], rfl⟩
    · simp at h
  · simp at h

theorem inOrder_boundTo (record : List Sealing) (overhead : Nat) :
    (inOrder record overhead).BoundTo 0 record := by
  have hposition : ∀ {k t}, (inOrder record overhead).After 0 k t → t = k := by
    intro k t hafter
    induction hafter with
    | start => rfl
    | opened _ hopen ih => rw [(inOrder_ok hopen).2, ih]
  intro k t chunk text t' hafter hopen
  obtain rfl := hposition hafter
  exact (inOrder_ok hopen).1

end Opener

/-- Whatever the sealer seals from its state on, the opener opens in the same
order from its own. -/
structure Matched (sealer : Sealer σ) (s : σ) (opener : Opener τ) (t : τ) :
    Prop where
  overhead_eq : opener.overhead = sealer.overhead
  /-- A sealed chunk is longer than its plaintext by exactly the overhead. -/
  length_chunk {record : List Sealing} {s' : σ} :
    sealer.Seals s record s' →
      ∀ c ∈ record, c.chunk.length = c.text.length + sealer.overhead
  opens {record : List Sealing} {s' : σ} :
    sealer.Seals s record s' → opener.Opens t record

/-- Two codecs match if their states are related in a way that every
successful sealing carries over to an opening. -/
theorem Matched.of_related {sealer : Sealer σ} {opener : Opener τ}
    (related : σ → τ → Prop) (hoverhead : opener.overhead = sealer.overhead)
    (step : ∀ {s t text chunk s'}, related s t →
      sealer.sealChunk s text = (.ok chunk, s') →
        chunk.length = text.length + sealer.overhead ∧
          ∃ t', opener.openChunk t chunk = (.ok text, t') ∧ related s' t')
    {s : σ} {t : τ} (h : related s t) : Matched sealer s opener t where
  overhead_eq := hoverhead
  length_chunk hseals := by
    induction hseals generalizing t with
    | nil s => simp
    | cons hfirst _ ih =>
        obtain ⟨hlength, t', -, hnext⟩ := step h hfirst
        intro c hc
        rcases List.mem_cons.1 hc with rfl | hmem
        · exact hlength
        · exact ih hnext c hmem
  opens hseals := by
    induction hseals generalizing t with
    | nil s => exact trivial
    | cons hfirst _ ih =>
        obtain ⟨-, t', hopen, hnext⟩ := step h hfirst
        exact ⟨t', hopen, ih hnext⟩

/-- A codec that puts a tag behind every chunk matches the one that takes it
off. -/
theorem Chunk.tag_matched (tag : Bytes) :
    Matched (Chunk.tagSealer tag tag.length) () (Chunk.tagOpener tag tag.length) () := by
  refine Matched.of_related (fun _ _ => True) rfl ?_ trivial
  intro s t text chunk s' _ hseal
  obtain ⟨rfl, -⟩ : text ++ tag = chunk ∧ s = s' := by
    simpa [Chunk.tagSealer] using hseal
  exact ⟨List.length_append, t, by simp [Chunk.tagOpener], trivial⟩

/-- A tag is taken off a chunk wherever the chunk stands. -/
theorem Chunk.tag_opensAnywhere (tag : Bytes) (overhead : Nat) {record : List Sealing}
    (h : ∀ c ∈ record, c.chunk = c.text ++ tag) :
    (Chunk.tagOpener tag overhead).OpensAnywhere () record := by
  intro k t _ c hc
  exact ⟨t, by simp [Chunk.tagOpener, h c hc]⟩

end SealedStream
