import SealedStream.Proofs.Spelling

/-!
# Integers in memory and from a source

The same bytes can be decoded in memory or read from a source that hands them out in pieces,
with interruptions in between, and then ends.  Both find the same number and take the same
bytes for it.

They differ in what they say of bytes that hold no number.  In memory these are invalid, in
whatever way.  A source tells three cases apart: there was nothing at all; the bytes end
before the number does, so that more of them would complete it; a varint goes on for too
long or is too large, and nothing that follows could mend it.
-/

namespace SealedStream

namespace Varint

/-- Every byte announces another. -/
def Open (bs : Bytes) : Prop :=
  ∀ b ∈ bs, 128 ≤ b.toNat

/-- So many bytes announce another, and then comes one that is more than one. -/
def Overruns (k : Nat) (bs : Bytes) : Prop :=
  ∃ front b rest, bs = front ++ b :: rest ∧ front.length = k ∧ Open front ∧ 1 < b.toNat

theorem open_cons {b : UInt8} {bs : Bytes} : Open (b :: bs) ↔ 128 ≤ b.toNat ∧ Open bs :=
  List.forall_mem_cons

theorem not_overruns_nil {k : Nat} : ¬ Overruns k [] := by
  rintro ⟨front, b, rest, h, -⟩
  simp at h

theorem overruns_zero {b : UInt8} {bs : Bytes} : Overruns 0 (b :: bs) ↔ 1 < b.toNat := by
  constructor
  · rintro ⟨front, c, rest, h, hlength, -, hc⟩
    obtain rfl := List.eq_nil_of_length_eq_zero hlength
    obtain ⟨rfl, -⟩ := List.cons.inj h
    exact hc
  · exact fun hb => ⟨[], b, bs, rfl, rfl, by simp [Open], hb⟩

theorem overruns_succ {k : Nat} {b : UInt8} {bs : Bytes} :
    Overruns (k + 1) (b :: bs) ↔ 128 ≤ b.toNat ∧ Overruns k bs := by
  constructor
  · rintro ⟨_ | ⟨c, front⟩, d, rest, h, hlength, hopen, hd⟩
    · simp at hlength
    · obtain ⟨rfl, rfl⟩ := List.cons.inj h
      obtain ⟨hb, hopen⟩ := open_cons.1 hopen
      exact ⟨hb, front, d, rest, rfl, by simpa using hlength, hopen, hd⟩
  · rintro ⟨hb, front, d, rest, rfl, rfl, hopen, hd⟩
    exact ⟨b :: front, d, rest, rfl, rfl, open_cons.2 ⟨hb, hopen⟩, hd⟩

theorem Overruns.append {k : Nat} {bs : Bytes} (h : Overruns k bs) (more : Bytes) :
    Overruns k (bs ++ more) := by
  obtain ⟨front, b, rest, rfl, hlength, hopen, hb⟩ := h
  exact ⟨front, b, rest ++ more, by simp, hlength, hopen, hb⟩

/-- A byte is refused only as the tenth, where all but bit 63 would be lost. -/
theorem push_eq_malformed {p : Partial} {b : UInt8} (hopen : p.count < maxWidth) :
    p.push b = .malformed ↔ p.count + 1 = maxWidth ∧ 1 < b.toNat := by
  unfold Partial.push
  by_cases hroom : maxWidth ≤ p.count ∨ p.count + 1 = maxWidth ∧ 1 < b.toNat
  · rw [if_pos hroom]
    simpa using hroom.resolve_left (by omega)
  · rw [if_neg hroom]
    refine iff_of_false ?_ fun h => hroom (.inr h)
    dsimp only
    split <;> simp

/-- A varint has not come to its end exactly if every byte so far announces another and
there can be one. -/
theorem scanFrom_eq_incomplete {p : Partial} {bs : Bytes} (hopen : p.count < maxWidth) :
    scanFrom p bs = .incomplete ↔ p.count + bs.length < maxWidth ∧ Open bs := by
  induction bs generalizing p with
  | nil => simp [scanFrom, Open, hopen]
  | cons b bs ih =>
      rw [open_cons, List.length_cons]
      cases hpush : p.push b with
      | malformed =>
          obtain ⟨hlast, -⟩ := (push_eq_malformed hopen).1 hpush
          simp only [scanFrom, hpush, reduceCtorEq, false_iff, not_and]
          omega
      | done value =>
          obtain ⟨-, hends, -⟩ := push_eq_done hpush
          simp only [scanFrom, hpush, reduceCtorEq, false_iff, not_and]
          omega
      | more q =>
          obtain ⟨hcount, hopen'⟩ := push_eq_more hpush
          obtain ⟨-, hb, -⟩ := value_of_push_more hpush
          simp only [scanFrom, hpush, ih hopen', hcount, hb, true_and, Nat.add_assoc,
            Nat.add_comm 1]

/-- A varint is refused exactly if every byte before the tenth announces another and the
tenth is more than one. -/
theorem scanFrom_eq_malformed {p : Partial} {bs : Bytes} {k : Nat}
    (hk : p.count + (k + 1) = maxWidth) : scanFrom p bs = .malformed ↔ Overruns k bs := by
  induction bs generalizing p k with
  | nil => simp [scanFrom, not_overruns_nil]
  | cons b bs ih =>
      have hrefused := push_eq_malformed (p := p) (b := b) (by omega)
      cases hpush : p.push b with
      | malformed =>
          obtain ⟨hlast, hb⟩ := hrefused.1 hpush
          obtain rfl : k = 0 := by omega
          simp [scanFrom, hpush, overruns_zero, hb]
      | done value =>
          obtain ⟨-, hends, -⟩ := push_eq_done hpush
          simp only [scanFrom, hpush, reduceCtorEq, false_iff]
          cases k with
          | zero =>
              rw [overruns_zero]
              intro hb
              simp [hrefused.2 ⟨hk, hb⟩] at hpush
          | succ k =>
              rw [overruns_succ]
              omega
      | more q =>
          obtain ⟨hcount, hopen⟩ := push_eq_more hpush
          obtain ⟨-, hb, -⟩ := value_of_push_more hpush
          obtain ⟨k, rfl⟩ := Nat.exists_eq_succ_of_ne_zero (show k ≠ 0 by omega)
          simp only [scanFrom, hpush, ih (show q.count + (k + 1) = maxWidth by omega),
            overruns_succ, hb, true_and]

end Varint

/-! ## Bytes that hold no number -/

namespace IntForm

/-- The bytes end before the number does. -/
def Cut (f : IntForm) (bs : Bytes) : Prop :=
  bs.length < f.maxWidth ∧ (f = .varint → Varint.Open bs)

/-- A varint that has no end among its first ten bytes, or reaches past bit 63 with the
tenth. -/
def Overlong (f : IntForm) (bs : Bytes) : Prop :=
  f = .varint ∧ Varint.Overruns 9 bs

theorem scan_eq_incomplete {f : IntForm} {bs : Bytes} : f.scan bs = .incomplete ↔ f.Cut bs := by
  have fixed {w : Nat} : scanFixed w bs = .incomplete ↔ bs.length < w := by
    unfold scanFixed
    split <;> simp_all
  cases f with
  | varint =>
      rw [scan, Varint.scanFrom_eq_incomplete (by decide)]
      simp [Cut, maxWidth, Varint.Partial.start]
  | fixed1 | fixed2 | fixed4 | fixed8 => simp [scan, Cut, fixed]

theorem scan_eq_malformed {f : IntForm} {bs : Bytes} : f.scan bs = .malformed ↔ f.Overlong bs := by
  have fixed {w : Nat} : scanFixed w bs ≠ .malformed := by
    unfold scanFixed
    split <;> simp
  cases f with
  | varint =>
      rw [scan,
        Varint.scanFrom_eq_malformed (show Varint.Partial.start.count + (9 + 1) = _ from rfl)]
      simp [Overlong]
  | fixed1 | fixed2 | fixed4 | fixed8 => simp [scan, Overlong, fixed]

theorem cut_nil (f : IntForm) : f.Cut [] :=
  ⟨by cases f <;> decide, by simp [Varint.Open]⟩

/-- A number in memory is what is found at the front, and all else is invalid. -/
theorem decode_eq_ok {f : IntForm} {bs : Bytes} {n used : Nat} :
    f.decode bs = .ok (n, used) ↔ f.scan bs = .whole n used := by
  unfold decode
  cases f.scan bs <;> simp

theorem decode_eq_error {f : IntForm} {bs : Bytes} {e : Failure} :
    f.decode bs = .error e ↔ e = .ciphertextInvalid ∧ (f.Cut bs ∨ f.Overlong bs) := by
  rw [← scan_eq_incomplete, ← scan_eq_malformed]
  unfold decode
  cases f.scan bs <;> simp [eq_comm]

/-- What is cut can be completed; zeros will do in every form. -/
theorem Cut.completed {f : IntForm} {bs : Bytes} (h : f.Cut bs) :
    ∃ more n used, f.decode (bs ++ more) = .ok (n, used) := by
  refine ⟨List.replicate f.maxWidth 0, ?_⟩
  cases hdecode : f.decode (bs ++ List.replicate f.maxWidth 0) with
  | ok answer => exact ⟨answer.1, answer.2, rfl⟩
  | error e =>
      obtain ⟨-, ⟨hshort, -⟩ | ⟨rfl, front, b, rest, hsplit, hfront, -, hb⟩⟩ :=
        decode_eq_error.1 hdecode
      · rw [List.length_append, List.length_replicate] at hshort
        omega
      · -- The tenth byte is a zero.
        have hlength : bs.length < 10 := h.1
        have htenth : (bs ++ List.replicate (maxWidth .varint) 0)[9]? = some b := by
          rw [hsplit, List.getElem?_append_right hfront.le, hfront]
          rfl
        rw [List.getElem?_append_right (by omega), List.getElem?_replicate] at htenth
        split at htenth
        · obtain rfl := Option.some.inj htenth
          simp at hb
        · simp at htenth

/-- Bytes are cut exactly if they are invalid for now and can be completed. -/
theorem cut_iff {f : IntForm} {bs : Bytes} :
    f.Cut bs ↔ f.decode bs = .error .ciphertextInvalid ∧
      ∃ more n used, f.decode (bs ++ more) = .ok (n, used) := by
  refine ⟨fun h => ⟨decode_eq_error.2 ⟨rfl, .inl h⟩, h.completed⟩, ?_⟩
  rintro ⟨hinvalid, more, n, used, hmore⟩
  refine (decode_eq_error.1 hinvalid).2.resolve_right fun ⟨hvarint, hover⟩ => ?_
  have hstill := decode_eq_error.2 ⟨rfl, .inr ⟨hvarint, hover.append more⟩⟩
  rw [hmore] at hstill
  simp at hstill

/-- A varint is overlong exactly if it is invalid whatever follows. -/
theorem overlong_iff {f : IntForm} {bs : Bytes} :
    f.Overlong bs ↔ ∀ more, f.decode (bs ++ more) = .error .ciphertextInvalid := by
  refine ⟨fun ⟨hvarint, hover⟩ more =>
    decode_eq_error.2 ⟨rfl, .inr ⟨hvarint, hover.append more⟩⟩, fun hinvalid => ?_⟩
  have hnow := hinvalid []
  rw [List.append_nil] at hnow
  refine (decode_eq_error.1 hnow).2.resolve_left fun hcut => ?_
  obtain ⟨more, n, used, hmore⟩ := hcut.completed
  rw [hinvalid more] at hmore
  simp at hmore

end IntForm

/-! ## Reading up to an end -/

namespace Source

theorem EndsAfter.left {s tail : Source} {bs : Bytes} (h : s.EndsAfter bs tail) :
    s.left = bs.length + tail.left := by
  induction h with
  | out => rfl
  | ended => simp [Source.left, Event.bytes]
  | data _ ih => simp [Source.left, Event.bytes, ih, Nat.add_assoc]
  | interrupted _ _ ih => simpa [Source.left, Event.bytes] using ih

end Source

namespace IntForm

/-- A source that hands out some bytes, in pieces of any sizes and with any interruptions,
and then ends is read as those bytes are decoded in memory.  A number is found by the one
exactly if it is by the other, with as many bytes taken for it, and the rest of them are
still to come.  There is none without an error exactly if there are no bytes.  The stream is
cut exactly if there are some and they end before the number does: they are invalid in
memory, and more bytes would make a number of them.  The ciphertext is invalid exactly if
they begin with a varint that is too long or too large: in memory they are invalid whatever
follows. -/
theorem fromSource_as_decode {f : IntForm} {s tail : Source} {bs : Bytes}
    (h : s.EndsAfter bs tail) :
    ∃ answer s', f.fromSource s = (answer, s') ∧
      (∀ n used, answer = .ok (some n) ∧ s.left = used + s'.left ↔
        f.decode bs = .ok (n, used)) ∧
      (∀ n used, f.decode bs = .ok (n, used) →
        used ≤ bs.length ∧ s'.EndsAfter (bs.drop used) tail) ∧
      (answer = .ok none ↔ bs = []) ∧
      (answer = .error .streamTruncated ↔ bs ≠ [] ∧ f.Cut bs) ∧
      (answer = .error .ciphertextInvalid ↔ f.Overlong bs) ∧
      (f.Cut bs ↔ f.decode bs = .error .ciphertextInvalid ∧
        ∃ more n used, f.decode (bs ++ more) = .ok (n, used)) ∧
      (f.Overlong bs ↔ ∀ more, f.decode (bs ++ more) = .error .ciphertextInvalid) := by
  have hagree := f.fromSource_of_delivers (Source.delivers_endsAfter tail) h
  have hcut : f.scan bs = .incomplete ↔ f.Cut bs := scan_eq_incomplete
  have hover : f.scan bs = .malformed ↔ f.Overlong bs := scan_eq_malformed
  have hempty : bs = [] → f.scan bs = .incomplete := by
    rintro rfl
    exact hcut.2 f.cut_nil
  cases hscan : f.scan bs with
  | whole value count =>
      rw [hscan] at hagree hcut hover hempty
      obtain ⟨hle, s', hread, hleft⟩ := hagree
      have htaken : s.left = count + s'.left := by
        rw [h.left, hleft.left, List.length_drop]
        omega
      refine ⟨_, s', hread, fun n used => ?_, fun n used hdecode => ?_, by simpa using hempty,
        by simp [← hcut], by simp [← hover], cut_iff, overlong_iff⟩
      · rw [decode_eq_ok, hscan, Except.ok.injEq, Option.some.injEq, Scan.whole.injEq]
        exact and_congr_right fun _ => by omega
      · rw [decode_eq_ok, hscan] at hdecode
        obtain ⟨-, rfl⟩ := Scan.whole.inj hdecode
        exact ⟨hle, hleft⟩
  | malformed =>
      rw [hscan] at hagree hcut hover hempty
      obtain ⟨s', -, hread, -⟩ := hagree
      exact ⟨_, s', hread, by simp [decode_eq_ok, hscan], by simp [decode_eq_ok, hscan],
        by simpa using hempty, by simp [← hcut], by simp [← hover], cut_iff, overlong_iff⟩
  | incomplete =>
      rw [hscan] at hagree hcut hover
      obtain ⟨s', hread, -⟩ := hagree
      by_cases hnil : bs = []
      · rw [if_pos hnil] at hread
        exact ⟨_, s', hread, by simp [decode_eq_ok, hscan], by simp [decode_eq_ok, hscan],
          by simp [hnil], by simp [hnil], by simp [← hover], cut_iff, overlong_iff⟩
      · rw [if_neg hnil] at hread
        exact ⟨_, s', hread, by simp [decode_eq_ok, hscan], by simp [decode_eq_ok, hscan],
          by simp [hnil], by simp [hnil, ← hcut], by simp [← hover], cut_iff, overlong_iff⟩

/-- A varint of three bytes, cut into two pieces with an interruption between them, and a
nine in front of the end that the source reports. -/
theorem varint_in_pieces_read :
    Source.EndsAfter
        [.data [0x80], .failure ⟨.interrupted, none⟩, .data [0x80, 1], .data [9], .ended, .data [5]]
        [0x80, 0x80, 1, 9] [.data [5]] ∧
      ∃ s', IntForm.varint.fromSource
          [.data [0x80], .failure ⟨.interrupted, none⟩, .data [0x80, 1], .data [9], .ended,
            .data [5]] = (.ok (some 16384), s') ∧ s'.EndsAfter [9] [.data [5]] := by
  have hends : Source.EndsAfter
      [.data [0x80], .failure ⟨.interrupted, none⟩, .data [0x80, 1], .data [9], .ended, .data [5]]
      ([0x80] ++ ([0x80, 1] ++ ([9] ++ []))) [.data [5]] :=
    .data (.interrupted rfl (.data (.data .ended)))
  obtain ⟨answer, s', hread, hfound, hrest, -⟩ := fromSource_as_decode (f := .varint) hends
  have hdecode : IntForm.varint.decode [0x80, 0x80, 1, 9] = .ok (16384, 3) := by decide
  obtain ⟨rfl, -⟩ := (hfound 16384 3).2 hdecode
  exact ⟨hends, s', hread, (hrest 16384 3 hdecode).2⟩

end IntForm

end SealedStream
