import SealedStream.Proofs.Faults
import SealedStream.Proofs.Flow
import SealedStream.Proofs.WireFormat
import SealedStream.Transfer

/-!
# Sealing a whole input

To seal an input is to copy it into a writer: what one read has brought is written
before the next read.  A source that flows is read in the pieces of its deliveries,
none of them longer than the size of a read, and the writes of the run are these
blocks.

The sink need not be empty at the start, nor take everything.  A writer knows its sink only
by its answers, so a run that none of them has ended puts out the same behind a salt, and in
pieces of any size, as onto an empty sink that takes everything.
-/

namespace SealedStream

/-! ## Blocks of a source -/

namespace Bytes

theorem foldPieces_enough {α : Type} {n : Nat} (hn : 0 < n) (f : α → Bytes → α) {k k' : Nat}
    {bs : Bytes} (hk : bs.length ≤ k) (hk' : bs.length ≤ k') (a : α) :
    foldPieces n f k a bs = foldPieces n f k' a bs := by
  induction k generalizing k' a bs with
  | zero =>
      obtain rfl := List.eq_nil_of_length_eq_zero (Nat.le_zero.1 hk)
      cases k' <;> rfl
  | succ k ih =>
      by_cases hbs : bs = []
      · subst hbs
        cases k' <;> rfl
      · have hpos := List.length_pos_iff.2 hbs
        obtain ⟨k', rfl⟩ := Nat.exists_eq_succ_of_ne_zero (show k' ≠ 0 by omega)
        simp only [foldPieces, List.isEmpty_iff, hbs, if_false]
        apply ih
        · rw [List.length_drop]
          omega
        · rw [List.length_drop]
          omega

/-- Pieces that are put before others are put before them in the end. -/
theorem foldPieces_append (n k : Nat) (ps : List Bytes) (bs : Bytes) :
    foldPieces n (fun ps p => p :: ps) k ps bs =
      foldPieces n (fun ps p => p :: ps) k [] bs ++ ps := by
  induction k generalizing ps bs with
  | zero => rfl
  | succ k ih =>
      simp only [foldPieces]
      split
      · rfl
      · rw [ih (bs.take n :: ps), ih [bs.take n], List.append_assoc, List.singleton_append]

@[simp] theorem pieces_nil (n : Nat) : pieces n [] = [] := rfl

theorem pieces_of_ne_nil {n : Nat} (hn : 0 < n) {bs : Bytes} (hbs : bs ≠ []) :
    pieces n bs = bs.take n :: pieces n (bs.drop n) := by
  have hpos := List.length_pos_iff.2 hbs
  obtain ⟨m, hm⟩ := Nat.exists_eq_succ_of_ne_zero hpos.ne'
  have hrest : (bs.drop n).length ≤ m := by
    rw [List.length_drop]
    omega
  rw [pieces, hm, foldPieces]
  simp only [List.isEmpty_iff, hbs, if_false]
  rw [foldPieces_append, List.reverse_append, foldPieces_enough hn _ hrest le_rfl]
  rfl

theorem flatten_pieces {n : Nat} (hn : 0 < n) (bs : Bytes) : (pieces n bs).flatten = bs := by
  induction hlength : bs.length using Nat.strongRecOn generalizing bs with
  | ind m ih =>
      by_cases hbs : bs = []
      · subst hbs
        rfl
      · have hpos := List.length_pos_iff.2 hbs
        have hshorter : (bs.drop n).length < m := by
          rw [List.length_drop]
          omega
        rw [pieces_of_ne_nil hn hbs, List.flatten_cons, ih _ hshorter _ rfl,
          List.take_append_drop]

end Bytes

namespace Source

variable {s : Source} {n : Nat}

/-- What reads for `n` bytes each bring of a source that flows: the pieces of all that
it delivers. -/
def blocks (n : Nat) (s : Source) : List Bytes :=
  s.flatMap fun e => Bytes.pieces n e.bytes

theorem flatten_blocks (hn : 0 < n) (s : Source) : (s.blocks n).flatten = s.bytes := by
  induction s with
  | nil => rfl
  | cons e s ih =>
      have hcons : Source.blocks n (e :: s) = Bytes.pieces n e.bytes ++ Source.blocks n s := by
        simp [blocks]
      have hbytes : Source.bytes (e :: s) = e.bytes ++ Source.bytes s := by simp [bytes]
      rw [hcons, hbytes, List.flatten_append, Bytes.flatten_pieces hn, ih]

/-- What a read of a source that flows can come to, and what it leaves. -/
inductive Serves (n : Nat) (s : Source) : Except IoError Bytes × Source → Prop
  | nothing {s' : Source} : s.blocks n = [] → Serves n s (.ok [], s')
  | block {b : Bytes} {s' : Source} :
      b ≠ [] → s.blocks n = b :: s'.blocks n → s'.Flows →
      s'.left + s'.length < s.left + s.length → Serves n s (.ok b, s')
  | interruption {e : IoError} {s' : Source} :
      e.isInterrupted = true → s.blocks n = s'.blocks n → s'.Flows →
      s'.left + s'.length < s.left + s.length → Serves n s (.error e, s')

/-- Events that deliver nothing are passed over. -/
theorem Serves.cons {e : Event} {r : Except IoError Bytes × Source} (he : e.bytes = [])
    (h : Serves n s r) : Serves n (e :: s) r := by
  have hblocks : Source.blocks n (e :: s) = Source.blocks n s := by simp [blocks, he]
  have hleft : Source.left (e :: s) = Source.left s := by simp [left, he]
  cases h with
  | nothing hnone => exact .nothing (hblocks.trans hnone)
  | block hb hnext hflows hless =>
      refine .block hb (hblocks.trans hnext) hflows ?_
      rw [hleft, List.length_cons]
      omega
  | interruption hint hsame hflows hless =>
      refine .interruption hint (hblocks.trans hsame) hflows ?_
      rw [hleft, List.length_cons]
      omega

theorem serves_read (hs : s.Flows) (hn : 0 < n) : s.Serves n (s.read n) := by
  induction s with
  | nil => exact .nothing rfl
  | cons e s ih =>
      have htail : Flows s := fun e' he' => hs e' (List.mem_cons_of_mem e he')
      cases e with
      | ended => exact (hs .ended List.mem_cons_self).elim
      | failure e =>
          simp only [read, hn.ne', if_false]
          exact .interruption (hs (.failure e) List.mem_cons_self) (by simp [blocks, Event.bytes])
            htail (by simp [left, Event.bytes])
      | data bs =>
          simp only [read, hn.ne', if_false, List.isEmpty_iff]
          split
          · rename_i hbs
            exact (ih htail).cons hbs
          · rename_i hbs
            have hpieces := Bytes.pieces_of_ne_nil hn hbs
            split
            · rename_i hle
              rw [List.take_of_length_le hle, List.drop_eq_nil_of_le hle] at hpieces
              refine .block hbs ?_ htail ?_
              · simp [blocks, Event.bytes, hpieces]
              · simp only [left, Event.bytes, List.length_cons]
                omega
            · rename_i hlong
              refine .block (by simp [hbs, hn.ne']) ?_ ?_ ?_
              · simp [blocks, Event.bytes, hpieces]
              · intro e' he'
                rcases List.mem_cons.1 he' with rfl | hmem
                · exact trivial
                · exact htail e' hmem
              · simp [left, Event.bytes]
                omega

end Source

/-! ## Feeding a writer -/

namespace Writer

variable {σ : Type} {w w' : Writer σ}

/-- Bytes that have all been written have been taken in by one write. -/
theorem writeAll_ok {data : Bytes} (hdata : data ≠ [])
    (h : w.writeAll data = (.ok (), w')) : ∃ n, w.write data = (.ok n, w') := by
  simp only [writeAll, List.isEmpty_iff, hdata, if_false, writeSome] at h
  cases hwrite : w.write data with
  | mk answer w₁ =>
      cases answer with
      | error f => simp [hwrite] at h
      | ok n =>
          simp only [hwrite, Prod.mk.injEq, true_and] at h
          exact ⟨n, by rw [h]⟩

end Writer

namespace Transfer

/-- Feeding a writer from a source that flows has written the blocks of the source.
The induction is on the reads, of which there are enough for all events and bytes. -/
theorem feed_ok {σ : Type} {k count total : Nat} {source : Source} {w w' : Writer σ}
    (hflows : source.Flows) (hk : source.left + source.length < k)
    (h : feed k count source w = (.ok total, w')) :
    w.takeAll (source.blocks blockSize) = some w' ∧
      total = count + (source.blocks blockSize).flatten.length := by
  induction k generalizing count source w with
  | zero => simp at hk
  | succ k ih =>
      have hserves := Source.serves_read hflows (n := blockSize) (by decide)
      unfold feed at h
      cases hread : source.read blockSize with
      | mk answer source' =>
          rw [hread] at h hserves
          cases hserves with
          | nothing hnone =>
              simp only [List.isEmpty_nil, if_true, Prod.mk.injEq, Except.ok.injEq] at h
              obtain ⟨rfl, rfl⟩ := h
              simp [hnone, Writer.takeAll]
          | interruption hint hsame hflows' hless =>
              simp only [hint, if_true] at h
              rw [hsame]
              exact ih hflows' (by omega) h
          | @block b _ hb hnext hflows' hless =>
              simp only [List.isEmpty_iff, hb, if_false] at h
              split at h
              · rename_i w₁ hwrite
                obtain ⟨n, hwritten⟩ := Writer.writeAll_ok hb hwrite
                obtain ⟨htaken, hcount⟩ := ih hflows' (by omega) h
                rw [hnext, Writer.takeAll, hwritten, List.flatten_cons, List.length_append]
                exact ⟨htaken, by omega⟩
              · simp at h

variable {ρ : Type}

/-- A transfer that has sealed its input under a key is a completed run of a writer,
whose writes are the blocks of the input. -/
theorem encryptUnder_ok {key : Key} {layout : Layout} {sink : Sink} {input : Source}
    {entropy : Entropy ρ} {s : ρ} {count : Nat} (hflows : input.Flows)
    (h : (encryptUnder key layout sink input entropy s).ending = .ok count) :
    count = input.bytes.length ∧ ∃ final,
      Writer.Completes (key.sealer layout.nonceMode entropy) (key.sealState layout.nonceMode s)
        layout sink (input.blocks blockSize) final ∧
      (encryptUnder key layout sink input entropy s).output = final.sink.bytes := by
  unfold encryptUnder at h ⊢
  split at h
  · simp at h
  · rename_i w hstart
    split at h
    · simp at h
    · rename_i total w' hfeed
      obtain ⟨htaken, htotal⟩ := feed_ok hflows (by unfold readsOf; omega) hfeed
      rw [Source.flatten_blocks (by decide), Nat.zero_add] at htotal
      split at h
      · simp at h
      · rename_i final hclose
        obtain rfl := Except.ok.inj h
        refine ⟨htotal, final, ⟨w, w', hstart, htaken, hclose⟩, ?_⟩
        rfl

end Transfer

/-! ## Onto a sink that holds something -/

namespace Sink

/-- One sink has accepted these bytes and then what the other one has, which has no faults
to come. -/
structure Beyond (front : Bytes) (a b : Sink) : Prop where
  perfect : b.Perfect
  bytes_eq : a.bytes = front ++ b.bytes

/-- Nothing is said of the two once a call of the first one has failed. -/
theorem beyond_pairing (front : Bytes) : FlushPairing (Beyond front) fun _ _ _ => True where
  goesOn _ _ := trivial
  flushesOn _ := trivial
  writeAll {a b} bs h := by
    obtain ⟨hok, hperfect, hbytes⟩ := h.perfect.writeAll bs
    cases hanswer : (a.writeAll bs).1 with
    | ok u =>
        refine .inl ⟨hok, hperfect, ?_⟩
        rw [hbytes, bytes_writeAll (Prod.ext hanswer rfl), h.bytes_eq, List.append_assoc]
    | error e => exact .inr ⟨e, rfl, trivial⟩
  flush {a b} h := by
    obtain ⟨hok, hperfect⟩ := h.perfect.flush
    cases hanswer : a.flush.1 with
    | ok u =>
        refine .inl ⟨hok, hperfect, ?_⟩
        rw [bytes_flush, bytes_flush, h.bytes_eq]
    | error e => exact .inr ⟨e, rfl, trivial⟩

end Sink

namespace Writer

variable {σ : Type} {sealer : Sealer σ} {codec : σ} {l : Layout} {sink sink' : Sink}
  {together : Sink → Sink → Prop} {apart : IoError → Sink → Sink → Prop} {w w' v : Writer σ}

/-- Where the sinks stay together while the calls of the first one succeed, all writes that
its writer takes the other takes. -/
theorem Like.takeAll (hpair : Sink.Pairing together apart) (h : Like together w v)
    {writes : List Bytes} (hwrites : w.takeAll writes = some w') :
    ∃ v', v.takeAll writes = some v' ∧ Like together w' v' := by
  induction writes generalizing w v with
  | nil =>
      obtain rfl := Option.some.inj hwrites
      exact ⟨v, rfl, h⟩
  | cons data rest ih =>
      simp only [Writer.takeAll] at hwrites ⊢
      cases hw : w.write data with
      | mk answer w₁ =>
          rw [hw] at hwrites
          cases answer with
          | error f => simp at hwrites
          | ok n =>
              rcases h.write hpair data with ⟨hanswer, hlike⟩ | ⟨e, herror, -⟩
              · cases hv : v.write data with
                | mk answer' v₁ =>
                    rw [hw, hv] at hanswer hlike
                    obtain rfl : answer' = .ok n := hanswer
                    exact ih hlike hwrites
              · simp [hw] at herror

/-- A run that completes on one sink completes on the other. -/
theorem Completes.like (hpair : Sink.FlushPairing together apart)
    (hsinks : together sink sink') {writes : List Bytes} {final : Writer σ}
    (h : Completes sealer codec l sink writes final) :
    ∃ final', Completes sealer codec l sink' writes final' ∧ Like together final final' := by
  obtain ⟨w, w', hstart, hwrites, hclose⟩ := h
  have hstart' := start_onto hstart sink'
  obtain ⟨-, rfl⟩ := start_ok hstart
  have hlike : Like together ⟨l, sealer, codec, sink, [], 1, .writing⟩
      ⟨l, sealer, codec, sink', [], 1, .writing⟩ := ⟨sink', rfl, hsinks⟩
  obtain ⟨v', hwrites', hlike'⟩ := hlike.takeAll hpair.toPairing hwrites
  rcases hlike'.close hpair with ⟨hanswer, hfinal⟩ | ⟨e, herror, -⟩
  · rw [hclose] at hanswer hfinal
    exact ⟨v'.close.2, ⟨_, v', hstart', hwrites', Prod.ext hanswer rfl⟩, hfinal⟩
  · simp [hclose] at herror

/-- Behind what is in its sink a writer that fails nowhere puts out what it would have put
into an empty sink that takes everything. -/
theorem Completes.behind {writes : List Bytes} {final : Writer σ}
    (h : Completes sealer codec l sink writes final) :
    ∃ final', Completes sealer codec l .perfect writes final' ∧
      final.sink.bytes = sink.bytes ++ final'.sink.bytes := by
  have hsinks : Sink.Beyond sink.bytes sink .perfect := ⟨⟨rfl, rfl⟩, by simp⟩
  obtain ⟨final', hcompletes, sink, rfl, hbeyond⟩ := h.like (Sink.beyond_pairing _) hsinks
  exact ⟨_, hcompletes, hbeyond.bytes_eq⟩

/-- A completed run has put out the reference stream. -/
theorem Completes.stream_eq {writes : List Bytes} {final : Writer σ} (hsink : sink.bytes = [])
    (h : Completes sealer codec l sink writes final) :
    l.stream sealer codec writes = some final.sink.bytes := by
  obtain ⟨w, w', hstart, hwrites, hclose⟩ := h
  rw [takeAll_eq_performAll] at hwrites
  have hstream := Reaches.stream_eq hsink ⟨w, hstart, hwrites⟩ hclose
  rwa [written_map_write] at hstream

end Writer

end SealedStream
