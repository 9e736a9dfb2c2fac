import SealedStream.Proofs.Decoding
import SealedStream.Proofs.Widths
import SealedStream.Proofs.Slicing

/-!
# The wire forms of an integer

What is decoded as a number is what the form writes for it, with one exception: a varint may
be padded.  An empty group can be put behind its last one, and another behind that, as long
as there are no more than ten bytes.  Nothing else stands for the number.  A fixed width
leaves no choice at all, and no two wire forms of a number are of the same length.

So the lengths in front of chunks can be padded under way and mean what they did, and a
reader reads the stream as before.
-/

namespace SealedStream

namespace Varint

/-- A varint that leaves room for a byte is read as the same number when it is padded. -/
theorem scanFrom_pad {bs : Bytes} {p : Partial} {n : Nat}
    (h : scanFrom p bs = .whole n (p.count + bs.length))
    (hroom : p.count + bs.length < maxWidth) :
    scanFrom p (pad bs) = .whole n (p.count + (pad bs).length) := by
  rw [length_pad]
  induction bs generalizing p with
  | nil => simp [scanFrom] at h
  | cons b bs ih =>
      rw [List.length_cons] at h hroom ⊢
      cases hpush : p.push b with
      | malformed => simp [scanFrom, hpush] at h
      | done value =>
          obtain ⟨-, hlast, hvalue⟩ := push_eq_done hpush
          obtain ⟨rfl, hused⟩ : value = n ∧ p.count + 1 = p.count + (bs.length + 1) := by
            simpa [scanFrom, hpush] using h
          obtain rfl : bs = [] := List.eq_nil_of_length_eq_zero (by omega)
          have hmore : p.push (announce b) = .more ⟨value, p.count + 1⟩ := by
            rw [announce, push_more (by simpa using hroom), Nat.mod_eq_of_lt hlast, hvalue]
          have hzero : Partial.push ⟨value, p.count + 1⟩ 0 = .done value := by
            simpa using push_last (p := ⟨value, p.count + 1⟩) (n := 0) (by simpa using hroom)
              (Nat.zero_lt_succ 127) fun _ => Nat.zero_le 1
          simp [pad, scanFrom, hmore, hzero]
      | more q =>
          obtain ⟨hcount, -⟩ := push_eq_more hpush
          obtain ⟨-, hb, -⟩ := value_of_push_more hpush
          have hrest : scanFrom q bs = .whole n (q.count + bs.length) := by
            simp only [scanFrom, hpush] at h
            rw [h, hcount, Nat.add_assoc, Nat.add_comm 1]
          have hpad := iterate_pad_cons hb 1 bs
          simp only [Function.iterate_one] at hpad
          rw [hpad, scanFrom, hpush]
          dsimp only
          rw [ih hrest (by omega), hcount, Nat.add_assoc, Nat.add_comm 1]

/-- A number that is read as a varint takes ten bytes at most and is below the bound. -/
theorem scanFrom_bounds {bs : Bytes} {p : Partial} {n used : Nat}
    (h : scanFrom p bs = .whole n used) (hvalue : p.value < 2 ^ (7 * p.count)) :
    used ≤ maxWidth ∧ n < intBound := by
  induction bs generalizing p with
  | nil => simp [scanFrom] at h
  | cons b bs ih =>
      cases hpush : p.push b with
      | malformed => simp [scanFrom, hpush] at h
      | done value =>
          obtain ⟨hcount, hlast, hdone⟩ := push_eq_done hpush
          obtain ⟨rfl, rfl⟩ : value = n ∧ p.count + 1 = used := by
            simpa [scanFrom, hpush] using h
          refine ⟨hcount, ?_⟩
          have hsum : value < (b.toNat + 1) * 2 ^ (7 * p.count) := by
            rw [Nat.add_mul, Nat.one_mul]
            omega
          refine lt_of_lt_of_le hsum ?_
          -- The tenth byte holds bit 63 alone.
          by_cases htenth : p.count + 1 = maxWidth
          · have hb : b.toNat ≤ 1 := by
              by_contra hlarge
              have hrefused := (push_eq_malformed (b := b) hcount).2 ⟨htenth, by omega⟩
              simp [hpush] at hrefused
            have hplace : p.count = 9 := Nat.succ.inj htenth
            rw [hplace]
            calc (b.toNat + 1) * 2 ^ (7 * 9) ≤ 2 * 2 ^ (7 * 9) :=
                  Nat.mul_le_mul_right _ (by omega)
              _ = intBound := by decide
          · have hplace : 7 + 7 * p.count ≤ 64 := by
              have hwidth : maxWidth = 10 := rfl
              omega
            calc (b.toNat + 1) * 2 ^ (7 * p.count) ≤ 2 ^ 7 * 2 ^ (7 * p.count) :=
                  Nat.mul_le_mul_right _ (by omega)
              _ = 2 ^ (7 + 7 * p.count) := (pow_add _ _ _).symm
              _ ≤ 2 ^ 64 := Nat.pow_le_pow_right (by decide) hplace
              _ = intBound := by decide
      | more q =>
          obtain ⟨-, hopen, rfl⟩ := value_of_push_more hpush
          simp only [scanFrom, hpush] at h
          refine ih h ?_
          have hgroup : b.toNat % 128 * 2 ^ (7 * p.count) ≤ 127 * 2 ^ (7 * p.count) :=
            Nat.mul_le_mul_right _ (by omega)
          calc p.value + b.toNat % 128 * 2 ^ (7 * p.count) < 128 * 2 ^ (7 * p.count) := by omega
            _ = 2 ^ (7 * (p.count + 1)) := by ring

/-- What comes behind a varint is not looked at. -/
theorem scanFrom_append {bs : Bytes} {p : Partial} {n used : Nat}
    (h : scanFrom p bs = .whole n used) (rest : Bytes) :
    scanFrom p (bs ++ rest) = .whole n used := by
  induction bs generalizing p with
  | nil => simp [scanFrom] at h
  | cons b bs ih =>
      rw [List.cons_append]
      cases hpush : p.push b with
      | malformed => simp [scanFrom, hpush] at h
      | done value =>
          simp only [scanFrom, hpush] at h ⊢
          exact h
      | more q =>
          simp only [scanFrom, hpush] at h ⊢
          exact ih h

/-- A varint is read from its own bytes as it is with others behind them. -/
theorem scanFrom_take {bs : Bytes} {p : Partial} {n used : Nat}
    (h : scanFrom p bs = .whole n used) :
    ∃ front rest, bs = front ++ rest ∧ used = p.count + front.length ∧
      scanFrom p front = .whole n used := by
  induction bs generalizing p with
  | nil => simp [scanFrom] at h
  | cons b bs ih =>
      cases hpush : p.push b with
      | malformed => simp [scanFrom, hpush] at h
      | done value =>
          obtain ⟨rfl, rfl⟩ : value = n ∧ p.count + 1 = used := by
            simpa [scanFrom, hpush] using h
          exact ⟨[b], bs, rfl, rfl, by simp [scanFrom, hpush]⟩
      | more q =>
          obtain ⟨hcount, -⟩ := push_eq_more hpush
          simp only [scanFrom, hpush] at h
          obtain ⟨front, rest, rfl, rfl, hfront⟩ := ih h
          refine ⟨b :: front, rest, rfl, ?_, by simpa only [scanFrom, hpush] using hfront⟩
          rw [hcount, List.length_cons]
          omega

end Varint

namespace IntForm

/-- The wire forms of a number: its bytes, and for a varint its bytes with empty groups
behind them as long as they are ten at most. -/
def WireForm (f : IntForm) (n : Nat) (bs : Bytes) : Prop :=
  ∃ width extra, f.width? n = some width ∧ bs = Varint.pad^[extra] (f.bytes n) ∧
    (extra = 0 ∨ f = .varint ∧ width + extra ≤ Varint.maxWidth)

theorem Spells.pad {bs : Bytes} {n extra : Nat} (h : IntForm.varint.Spells bs n)
    (hroom : bs.length + extra ≤ Varint.maxWidth) :
    IntForm.varint.Spells (Varint.pad^[extra] bs) n := by
  induction extra with
  | zero => exact h
  | succ extra ih =>
      have hshort : Varint.scanFrom .start (Varint.pad^[extra] bs) =
          .whole n (Varint.Partial.start.count + (Varint.pad^[extra] bs).length) := by
        simpa [Spells, scan, Varint.Partial.start] using ih (by omega)
      have hpad := Varint.scanFrom_pad hshort (by simp [Varint.Partial.start]; omega)
      rw [Function.iterate_succ_apply']
      simpa [Spells, scan, Varint.Partial.start] using hpad

/-- What is read as a number and read to its end is a wire form of it, and the other way
round. -/
theorem spells_iff {f : IntForm} {bs : Bytes} {n : Nat} : f.Spells bs n ↔ f.WireForm n bs := by
  constructor
  · intro h
    cases f with
    | varint =>
        have hscan : Varint.scanFrom .start bs =
            .whole n (Varint.Partial.start.count + bs.length) := by
          simpa [Spells, scan, Varint.Partial.start] using h
        obtain ⟨hle, hn⟩ := Varint.scanFrom_bounds hscan Nat.one_pos
        obtain ⟨m, extra, hvalue, heq⟩ := Varint.padded_of_scanFrom hscan
          (k := Varint.maxWidth) (by simp [Varint.Partial.start])
        obtain rfl : n = m := by simpa [Varint.Partial.start] using hvalue
        have hlength := congrArg List.length heq
        rw [Varint.length_iterate_pad] at hlength
        refine ⟨_, extra, width?_eq_some.2 ⟨hn, rfl⟩, heq, .inr ⟨rfl, ?_⟩⟩
        show (Varint.groups Varint.maxWidth n).length + extra ≤ Varint.maxWidth
        simp only [Varint.Partial.start] at hle
        omega
    | fixed1 | fixed2 | fixed4 | fixed8 =>
        obtain ⟨hn, heq⟩ := eq_of_scanFixed h
        exact ⟨_, 0, width?_eq_some.2 ⟨hn, rfl⟩, heq, .inl rfl⟩
  · rintro ⟨width, extra, hwidth, rfl, hextra⟩
    obtain ⟨hn, rfl⟩ := width?_eq_some.1 hwidth
    rcases hextra with rfl | ⟨rfl, hroom⟩
    · exact spells_bytes hn
    · exact (spells_bytes hn).pad hroom

/-- A number is found at the front of a byte string exactly if a spelling of it stands
there. -/
theorem scan_eq_whole {f : IntForm} {bs : Bytes} {n used : Nat} :
    f.scan bs = .whole n used ↔ used ≤ bs.length ∧ f.Spells (bs.take used) n := by
  have fixed {w : Nat} : scanFixed w bs = .whole n used ↔ used ≤ bs.length ∧
      scanFixed w (bs.take used) = .whole n (bs.take used).length := by
    unfold scanFixed
    by_cases hshort : bs.length < w
    · simp [hshort]
    · rw [if_neg hshort, List.length_take]
      constructor
      · intro h
        obtain ⟨rfl, rfl⟩ := Scan.whole.inj h
        simp [Nat.le_of_not_lt hshort, List.take_take]
      · rintro ⟨hle, h⟩
        split at h
        · simp at h
        · obtain ⟨rfl, hused⟩ := Scan.whole.inj h
          obtain rfl : w = used := by omega
          rw [List.take_take, Nat.min_self]
  cases f with
  | varint =>
      constructor
      · intro h
        obtain ⟨front, rest, rfl, rfl, hfront⟩ := Varint.scanFrom_take h
        rw [show Varint.Partial.start.count = 0 from rfl, Nat.zero_add] at hfront ⊢
        rw [List.take_left, List.length_append]
        exact ⟨by omega, hfront⟩
      · rintro ⟨hle, h⟩
        have hscan := Varint.scanFrom_append h (bs.drop used)
        rw [List.take_append_drop, List.length_take, Nat.min_eq_left hle] at hscan
        exact hscan
  | fixed1 | fixed2 | fixed4 | fixed8 => exact fixed

/-- Decoding finds a number exactly if a wire form of it stands at the front. -/
theorem decode_iff_wireForm {f : IntForm} {bs : Bytes} {n used : Nat} :
    f.decode bs = .ok (n, used) ↔ used ≤ bs.length ∧ f.WireForm n (bs.take used) := by
  rw [decode_eq_ok, scan_eq_whole, spells_iff]

/-- Wire forms of one number that are of the same length are the same. -/
theorem WireForm.eq_of_length {f : IntForm} {n : Nat} {a b : Bytes} (ha : f.WireForm n a)
    (hb : f.WireForm n b) (h : a.length = b.length) : a = b := by
  obtain ⟨width, extra, -, rfl, -⟩ := ha
  obtain ⟨width', extra', -, rfl, -⟩ := hb
  obtain rfl : extra = extra' := by simpa using h
  rfl

/-- A fixed width has one wire form for a number, its bytes. -/
theorem WireForm.eq_bytes {f : IntForm} {n : Nat} {bs : Bytes} (h : f.WireForm n bs)
    (hf : f ≠ .varint) : bs = f.bytes n := by
  obtain ⟨width, extra, -, rfl, rfl | ⟨hvarint, -⟩⟩ := h
  · rfl
  · exact (hf hvarint).elim

/-- A wire form is found whatever follows it. -/
theorem WireForm.scan_append {f : IntForm} {n : Nat} {bs : Bytes} (h : f.WireForm n bs)
    (rest : Bytes) : f.scan (bs ++ rest) = .whole n bs.length := by
  rw [scan_eq_whole, List.take_left, List.length_append]
  exact ⟨Nat.le_add_right _ _, spells_iff.2 h⟩

/-- A source that flows is left behind a wire form at its front. -/
theorem WireForm.fromSource {f : IntForm} {n : Nat} {bs rest : Bytes} (h : f.WireForm n bs)
    {s : Source} (hs : s.Flows) (hbytes : s.bytes = bs ++ rest) :
    ∃ t : Source, f.fromSource s = (.ok (some n), t) ∧ t.Flows ∧ t.bytes = rest := by
  obtain ⟨t, hflows, hagree⟩ := f.fromSource_of_flows hs
  rw [hbytes, h.scan_append] at hagree
  exact ⟨t, hagree.1, hflows, by rw [hagree.2, List.drop_left]⟩

/-- Two streams that differ in nothing but how the lengths in front of their chunks are
spelled. -/
inductive Respelled (f : IntForm) : Bytes → Bytes → Prop
  | same (bs : Bytes) : Respelled f bs bs
  | frame {a b chunk bs bs' : Bytes} :
      f.WireForm chunk.length a → f.WireForm chunk.length b → Respelled f bs bs' →
      Respelled f (a ++ (chunk ++ bs)) (b ++ (chunk ++ bs'))

end IntForm

/-- Two sources that only hand out bytes, the same but for the spelling of lengths. -/
structure Source.Respelled (f : IntForm) (s s' : Source) : Prop where
  flows : s.Flows
  flows' : s'.Flows
  bytes : f.Respelled s.bytes s'.bytes

/-! ## A stream whose lengths are respelled -/

namespace Reader

variable {σ : Type} {r : Reader σ} {s' : Source} {form : IntForm}

/-- Padded or not, the same length leads to the same frame. -/
theorem lengthFrame_respelled (h : r.source.Respelled form s') :
    ∃ t', lengthFrame { r with source := s' } form =
        ((r.lengthFrame form).1, { (r.lengthFrame form).2 with source := t' }) ∧
      ∀ frame, (r.lengthFrame form).1 = .ok frame → frame ≠ .endOfInput →
        (r.lengthFrame form).2.source.Respelled form t' := by
  obtain ⟨hflows, hflows', hbytes⟩ := h
  generalize hs : r.source.bytes = whole at hbytes
  generalize hs' : s'.bytes = whole' at hbytes
  cases hbytes with
  | same =>
      have hsources : r.source.Alike s' := ⟨hflows, hflows', hs.trans hs'.symm⟩
      obtain ⟨t', hframe, halike⟩ := lengthFrame_agree hsources form
      refine ⟨t', hframe, fun frame hok hmore => ?_⟩
      have hsame := halike frame hok hmore
      exact ⟨hsame.flows, hsame.flows', hsame.bytes_eq ▸ .same _⟩
  | @frame a b chunk bs bs' ha hb hrest =>
      obtain ⟨t, hread, hflows, ht⟩ := ha.fromSource hflows hs
      obtain ⟨t', hread', hflows', ht'⟩ := hb.fromSource hflows' hs'
      simp only [lengthFrame, hread, hread']
      split
      · rename_i hend
        obtain rfl := List.eq_nil_of_length_eq_zero hend.1
        exact ⟨t', rfl, fun _ _ _ => ⟨hflows, hflows', by rw [ht, ht']; exact hrest⟩⟩
      · split
        · exact ⟨t', rfl, by simp⟩
        · obtain ⟨u, hgather, hflows, hu⟩ := Source.gather_append hflows ht
          obtain ⟨u', hgather', hflows', hu'⟩ := Source.gather_append hflows' ht'
          simp only [chunkOfLength, hgather, hgather']
          exact ⟨u', rfl, fun _ _ _ => ⟨hflows, hflows', by rw [hu, hu']; exact hrest⟩⟩

theorem sameFrames_respelled {l : Layout} (hlength : l.length? = some form) :
    SameFrames σ l (Source.Respelled form) := by
  rintro r s' rfl h
  simpa only [nextFrame, hlength] using lengthFrame_respelled h

end Reader

/-! ## What stands for a number -/

namespace IntForm

/-- What stands for a number is what the form writes for it, and for a varint also that with
empty groups behind it, up to ten bytes.  Decoding finds a number exactly if one of these
stands at the front, and reading from a source takes one of these and finds each of them.  A
varint that goes past ten bytes or past bit 63 is refused by both.  Two different wire forms
of a number are varints, and one is longer.

So a length can be respelled in no other way.  A stream is read as before where any of its
lengths have been, a bare terminator among them, and a chunk means what it did with another
wire form of its number, the sealed terminator included. -/
theorem wire_forms (f : IntForm) :
    (∀ bs n used, f.decode bs = .ok (n, used) ↔
      used ≤ bs.length ∧ f.WireForm n (bs.take used)) ∧
    (∀ (s s' : Source) n, f.fromSource s = (.ok (some n), s') →
      ∃ taken, s.bytes = taken ++ s'.bytes ∧ f.WireForm n taken) ∧
    (∀ (s tail : Source) n bs rest, f.WireForm n bs → s.EndsAfter (bs ++ rest) tail →
      ∃ s', f.fromSource s = (.ok (some n), s') ∧ s'.EndsAfter rest tail) ∧
    (∀ bs, f.Overlong bs → f.decode bs = .error .ciphertextInvalid ∧
      ∀ s tail : Source, s.EndsAfter bs tail →
        (f.fromSource s).1 = .error .ciphertextInvalid) ∧
    (∀ n a b, f.WireForm n a → f.WireForm n b → a ≠ b →
      f = .varint ∧ a.length ≠ b.length) ∧
    (∀ (σ : Type) (l : Layout) (opener : Opener σ) (t : σ) (s s' : Source),
      l.check = .ok () → l.length? = some f → s.Respelled f s' →
        ∃ r r' bytes ending, Reader.start s opener t l = .ok r ∧
          Reader.start s' opener t l = .ok r' ∧ r.Brings bytes ending ∧
          r'.Brings bytes ending) ∧
    (∀ (σ : Type) (r : Reader σ) n a b payload, f.WireForm n a → f.WireForm n b →
      r.acceptNumbered f (a ++ payload) = r.acceptNumbered f (b ++ payload)) := by
  refine ⟨fun bs n used => decode_iff_wireForm, fun s s' n h => ?_, fun s tail n bs rest h hs => ?_,
    fun bs h => ⟨?_, fun s tail hs => ?_⟩, fun n a b ha hb hne => ?_,
    fun σ l opener t s s' hl hlength h => ?_, fun σ r n a b payload ha hb => ?_⟩
  · obtain ⟨taken, hbytes, hspells⟩ := spells_of_fromSource h
    exact ⟨taken, hbytes, spells_iff.1 hspells⟩
  · have hagree := f.fromSource_of_delivers (Source.delivers_endsAfter tail) hs
    rw [h.scan_append] at hagree
    obtain ⟨-, s', hread, hleft⟩ := hagree
    rw [List.drop_left] at hleft
    exact ⟨s', hread, hleft⟩
  · exact decode_eq_error.2 ⟨rfl, .inr h⟩
  · have hagree := f.fromSource_of_delivers (Source.delivers_endsAfter tail) hs
    rw [scan_eq_malformed.2 h] at hagree
    obtain ⟨s', -, hread, -⟩ := hagree
    rw [hread]
  · by_cases hf : f = .varint
    · exact ⟨hf, fun hlength => hne (ha.eq_of_length hb hlength)⟩
    · exact (hne ((ha.eq_bytes hf).trans (hb.eq_bytes hf).symm)).elim
  · obtain ⟨bytes, ending, hyields⟩ :=
      Reader.exists_yields ⟨l, opener, t, s, [], 1, .reading⟩ hl
    have hyields' := (Reader.sameFrames_respelled hlength).yields hl hyields rfl h
    exact ⟨_, _, bytes, ending, Reader.start_of_sound hl s opener t,
      Reader.start_of_sound hl s' opener t, hyields.brings, hyields'.brings⟩
  · have hdecode {bs : Bytes} (h : f.WireForm n bs) :
        f.decode (bs ++ payload) = .ok (n, bs.length) :=
      decode_eq_ok.2 (h.scan_append payload)
    simp only [Reader.acceptNumbered, hdecode ha, hdecode hb, List.length_append,
      List.drop_left, Nat.left_eq_add]

/-- Not every number that is decoded takes the bytes that are written for it: a zero behind
a byte with its top bit set is a zero in two bytes.  The length of a chunk can be spelled in
this way, and the stream is opened all the same. -/
theorem zero_in_two_bytes :
    IntForm.varint.decode [0x80, 0] = .ok (0, 2) ∧
      IntForm.varint.fromSource (.ofBytes [0x80, 0]) = (.ok (some 0), []) ∧
      IntForm.varint.width? 0 = some 1 ∧
      (¬ ∀ (f : IntForm) (bs : Bytes) (n used : Nat), f.decode bs = .ok (n, used) →
        f.width? n = some used ∧ bs.take used = f.bytes n) ∧
      ∃ r r', Reader.start (.ofBytes [4, 1, 97, 98, 255, 2, 0, 255])
          (Chunk.tagOpener [255] 1) () Layout.standard = .ok r ∧
        Reader.start (.ofBytes [0x84, 0, 1, 97, 98, 255, 2, 0, 255])
          (Chunk.tagOpener [255] 1) () Layout.standard = .ok r' ∧
        r.readUntil [8, 8] = ([97, 98], some (.ok ())) ∧
        r'.readUntil [8, 8] = ([97, 98], some (.ok ())) := by
  refine ⟨by decide, by decide, by decide, fun h => ?_, _, _, rfl, rfl, rfl, rfl⟩
  have hzero := (h .varint [0x80, 0] 0 2 (by decide)).2
  simp [bytes, Varint.encode, Varint.groups, Varint.maxWidth] at hzero

/-- The length of a chunk with an empty group behind it, in a stream of two bytes. -/
theorem padded_length_read :
    IntForm.varint.WireForm 4 [0x84, 0] ∧
      ∃ r r' bytes ending, Reader.start (.ofBytes [4, 1, 97, 98, 255, 2, 0, 255])
          (Chunk.tagOpener [255] 1) () Layout.standard = .ok r ∧
        Reader.start (.ofBytes [0x84, 0, 1, 97, 98, 255, 2, 0, 255])
          (Chunk.tagOpener [255] 1) () Layout.standard = .ok r' ∧
        r.Brings bytes ending ∧ r'.Brings bytes ending := by
  have hshort : IntForm.varint.WireForm [1, 97, 98, 255].length [4] :=
    ⟨1, 0, by decide, by decide, .inl rfl⟩
  have hlong : IntForm.varint.WireForm [1, 97, 98, 255].length [0x84, 0] :=
    ⟨1, 1, by decide, by decide, .inr ⟨rfl, by decide⟩⟩
  have hrespelled : IntForm.varint.Respelled ([4] ++ ([1, 97, 98, 255] ++ [2, 0, 255]))
      ([0x84, 0] ++ ([1, 97, 98, 255] ++ [2, 0, 255])) := .frame hshort hlong (.same _)
  obtain ⟨-, -, -, -, -, hread, -⟩ := wire_forms .varint
  refine ⟨hlong, hread Unit Layout.standard (Chunk.tagOpener [255] 1) ()
    (.ofBytes [4, 1, 97, 98, 255, 2, 0, 255]) (.ofBytes [0x84, 0, 1, 97, 98, 255, 2, 0, 255])
    rfl rfl ⟨Source.flows_ofBytes _, Source.flows_ofBytes _, ?_⟩⟩
  rw [Source.bytes_ofBytes, Source.bytes_ofBytes]
  exact hrespelled

end IntForm

end SealedStream
