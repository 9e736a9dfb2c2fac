import Mathlib.Data.List.TakeWhile
import SealedStream.Proofs.Base64
import SealedStream.Proofs.Places

/-!
# Which texts are those of keys

A text is read for what stands between the blanks at its two ends: a name, the first colon, and
the digits of a key.  Names and digits are visible characters of ASCII, and no name has a colon,
so what is written for a key comes back whatever blanks are put around it, and in any letter
case of the name.  Nothing else is read as a key.
-/

namespace SealedStream

namespace Text

/-! ## Blanks at the ends -/

/-- Nothing but blanks. -/
def Blank (s : List Char) : Prop :=
  ∀ c ∈ s, isBlank c = true

theorem blank_nil : Blank [] :=
  fun _ hc => (List.not_mem_nil hc).elim

/-- A letter, digit or sign of ASCII. -/
def isVisible (c : Char) : Bool :=
  33 ≤ c.toNat && c.toNat < 127

theorem not_isBlank_of_isVisible {c : Char} (h : isVisible c = true) : isBlank c = false := by
  simp only [isVisible, Bool.and_eq_true, decide_eq_true_eq] at h
  simp only [isBlank, inRanges, blankRanges, List.any_toArray, List.any_cons, List.any_nil,
    Bool.or_false, Bool.or_eq_false_iff, Bool.and_eq_false_iff, decide_eq_false_iff_not]
  omega

theorem dropWhile_of_visible {s : List Char} (hs : ∀ c ∈ s, isVisible c = true)
    (rest : List Char) (hne : s ≠ []) : (s ++ rest).dropWhile isBlank = s ++ rest := by
  cases s with
  | nil => exact (hne rfl).elim
  | cons c s =>
      have hc : isBlank c = false := not_isBlank_of_isVisible (hs c List.mem_cons_self)
      rw [List.cons_append, List.dropWhile_cons, hc]
      rfl

/-- Blanks around visible characters are all that is taken off. -/
theorem trim_pad {before s after : List Char} (hbefore : Blank before) (hafter : Blank after)
    (hs : ∀ c ∈ s, isVisible c = true) (hne : s ≠ []) : trim (before ++ s ++ after) = s := by
  have hback : ∀ c ∈ after.reverse, isBlank c = true := fun c hc => hafter c (List.mem_reverse.1 hc)
  have hreverse : ∀ c ∈ s.reverse, isVisible c = true := fun c hc => hs c (List.mem_reverse.1 hc)
  have hdrop := dropWhile_of_visible hreverse [] (by simpa using hne)
  rw [trim, List.append_assoc, List.dropWhile_append_of_pos hbefore,
    dropWhile_of_visible hs after hne, List.reverse_append, List.dropWhile_append_of_pos hback]
  rw [List.append_nil] at hdrop
  rw [hdrop, List.reverse_reverse]

/-- What is taken off is blank. -/
theorem exists_trim (s : List Char) :
    ∃ before after, Blank before ∧ Blank after ∧ s = before ++ trim s ++ after := by
  refine ⟨s.takeWhile isBlank, ((s.dropWhile isBlank).reverse.takeWhile isBlank).reverse,
    ?_, ?_, ?_⟩
  · exact fun c hc => List.mem_takeWhile_imp hc
  · exact fun c hc => List.mem_takeWhile_imp (List.mem_reverse.1 hc)
  · rw [trim, List.append_assoc, ← List.reverse_append, List.takeWhile_append_dropWhile,
      List.reverse_reverse, List.takeWhile_append_dropWhile]

end Text

namespace Base64

/-! ## Visible characters -/

theorem isVisible_digit {n : Nat} (h : n < 64) : Text.isVisible (digit n) = true := by
  revert n
  decide

theorem isVisible_of_mem_digits {k n : Nat} {c : Char} (h : c ∈ digits k n) :
    Text.isVisible c = true := by
  induction k generalizing n with
  | zero => simp [digits] at h
  | succ k ih =>
      rw [digits, List.mem_append, List.mem_singleton] at h
      rcases h with hfront | rfl
      · exact ih hfront
      · exact isVisible_digit (Nat.mod_lt n (by decide))

theorem isVisible_of_mem_group {k n : Nat} {rest : List Char} {c : Char}
    (hrest : ∀ c ∈ rest, Text.isVisible c = true) (h : c ∈ digits k n ++ rest) :
    Text.isVisible c = true := by
  rcases List.mem_append.1 h with hdigit | hbehind
  · exact isVisible_of_mem_digits hdigit
  · exact hrest c hbehind

theorem isVisible_of_mem_encode (bs : Bytes) : ∀ c ∈ encode bs, Text.isVisible c = true := by
  have hfill : Text.isVisible '=' = true := by decide
  induction bs using encode.induct with
  | case1 => exact fun c hc => (List.not_mem_nil hc).elim
  | case2 x => exact fun c hc => isVisible_of_mem_group (by simp [hfill]) hc
  | case3 x y => exact fun c hc => isVisible_of_mem_group (by simp [hfill]) hc
  | case4 x y z rest ih => exact fun c hc => isVisible_of_mem_group ih hc

end Base64

namespace Suite

/-! ## Names -/

theorem isVisible_name (suite : Suite) :
    suite.name.toList.all (fun c => Text.isVisible c && c != ':') = true := by
  cases suite <;> rfl

theorem lowerAscii_name (suite : Suite) : lowerAscii suite.name.toList = suite.name.toList := by
  cases suite <;> rfl

theorem name_injective {suite suite' : Suite} (h : suite.name.toList = suite'.name.toList) :
    suite = suite' := by
  revert h
  cases suite <;> cases suite' <;> decide +kernel

/-- Only letters are changed, and those are visible before as well. -/
theorem isVisible_of_toLower {c : Char} (h : Text.isVisible c.toLower = true) :
    Text.isVisible c = true := by
  by_cases hupper : c.val ≥ 'A'.val ∧ c.val ≤ 'Z'.val
  · have hlow : 65 ≤ c.toNat := hupper.1
    have hhigh : c.toNat ≤ 90 := hupper.2
    simp only [Text.isVisible, Bool.and_eq_true, decide_eq_true_eq]
    omega
  · have hsame : c.toLower = c := dif_neg hupper
    rwa [hsame] at h

/-- A name in any letter case is made of visible characters, none of them a colon. -/
theorem visible_of_lowerAscii {s : List Char} {suite : Suite}
    (h : lowerAscii s = lowerAscii suite.name.toList) {c : Char} (hc : c ∈ s) :
    Text.isVisible c = true ∧ c ≠ ':' := by
  have hlower : c.toLower ∈ suite.name.toList := by
    rw [← lowerAscii_name, ← h]
    exact List.mem_map_of_mem hc
  have hall := List.all_eq_true.1 (isVisible_name suite) c.toLower hlower
  rw [Bool.and_eq_true, bne_iff_ne] at hall
  refine ⟨isVisible_of_toLower hall.1, ?_⟩
  rintro rfl
  exact hall.2 rfl

theorem ofNameAnyCase?_eq_some_iff {s : List Char} {suite : Suite} :
    ofNameAnyCase? s = some suite ↔ lowerAscii s = lowerAscii suite.name.toList := by
  have hfits : ∀ {suite : Suite}, ofNameAnyCase? s = some suite →
      suite.name.toList = lowerAscii s := fun h => by simpa using List.find?_some h
  have hall : suite ∈ all := by cases suite <;> decide
  rw [lowerAscii_name]
  constructor
  · exact fun h => (hfits h).symm
  · intro h
    cases hfind : ofNameAnyCase? s with
    | none => exact (List.find?_eq_none.1 hfind suite hall (by rw [h, beq_self_eq_true])).elim
    | some suite' => rw [name_injective ((hfits hfind).trans h)]

theorem ofNameAnyCase?_eq_none {s : List Char}
    (h : ∀ suite : Suite, lowerAscii s ≠ lowerAscii suite.name.toList) :
    ofNameAnyCase? s = none := by
  cases hfind : ofNameAnyCase? s with
  | none => rfl
  | some suite => exact (h suite (ofNameAnyCase?_eq_some_iff.1 hfind)).elim

end Suite

namespace Key

variable {k : Key} {s text : List Char} {problem : TextProblem}

/-! ## Around the first colon -/

theorem ne_colon_of_not_mem (h : ':' ∉ s) : ∀ c ∈ s, (c != ':') = true := by
  intro c hc
  rw [bne_iff_ne]
  rintro rfl
  exact h hc

theorem splitAtColon_append {name : List Char} (hname : ':' ∉ name) (digits : List Char) :
    splitAtColon (name ++ ':' :: digits) = some (name, digits) := by
  have hplain := ne_colon_of_not_mem hname
  unfold splitAtColon
  rw [List.dropWhile_append_of_pos hplain, List.takeWhile_append_of_pos hplain]
  simp

theorem splitAtColon_eq_none (h : ':' ∉ s) : splitAtColon s = none := by
  have hall : s.dropWhile (· != ':') = [] := List.dropWhile_eq_nil_iff.2 (ne_colon_of_not_mem h)
  rw [splitAtColon, hall]

/-! ## What is read, and what is not -/

/-- The text of a key, with its name in any letter case. -/
def Spelling (k : Key) (s : List Char) : Prop :=
  ∃ name, Suite.lowerAscii name = Suite.lowerAscii k.suite.name.toList ∧
    s = name ++ ':' :: Base64.encode k.bytes

/-- What is wrong with a text that is not that of a key. -/
inductive Refused (s : List Char) : TextProblem → Prop
  | noColon : ':' ∉ s → Refused s .noColon
  | unknownSuite {name digits : List Char} :
      s = name ++ ':' :: digits → ':' ∉ name →
      (∀ suite : Suite, Suite.lowerAscii name ≠ Suite.lowerAscii suite.name.toList) →
      Refused s (.unknownSuite name)
  | notBase64 {name digits : List Char} {suite : Suite} :
      s = name ++ ':' :: digits →
      Suite.lowerAscii name = Suite.lowerAscii suite.name.toList →
      (∀ bs, digits ≠ Base64.encode bs) → Refused s .notBase64
  | wrongLength {name : List Char} {suite : Suite} {bs : Bytes} :
      s = name ++ ':' :: Base64.encode bs →
      Suite.lowerAscii name = Suite.lowerAscii suite.name.toList →
      bs.length ≠ suite.keySize →
      Refused s (.unusable (.keyInvalid suite.keySize bs.length))

theorem spelling_toText (k : Key) : k.Spelling k.toText :=
  ⟨k.suite.name.toList, rfl, rfl⟩

theorem not_colon_mem {name : List Char} {suite : Suite}
    (h : Suite.lowerAscii name = Suite.lowerAscii suite.name.toList) : ':' ∉ name :=
  fun hc => (Suite.visible_of_lowerAscii h hc).2 rfl

theorem Spelling.visible (h : k.Spelling s) : (∀ c ∈ s, Text.isVisible c = true) ∧ s ≠ [] := by
  obtain ⟨name, hname, rfl⟩ := h
  refine ⟨?_, by simp⟩
  intro c hc
  rw [List.mem_append, List.mem_cons] at hc
  rcases hc with hc | rfl | hc
  · exact (Suite.visible_of_lowerAscii hname hc).1
  · decide
  · exact Base64.isVisible_of_mem_encode k.bytes c hc

theorem ofText_of_spelling (h : k.Spelling (Text.trim text)) : ofText text = .ok k := by
  obtain ⟨name, hname, htext⟩ := h
  have hbytes : ofBytes k.suite k.bytes = .ok k := dif_pos k.length_bytes
  simp only [ofText, htext, splitAtColon_append (not_colon_mem hname),
    Suite.ofNameAnyCase?_eq_some_iff.2 hname, Base64.decode_encode, hbytes]

theorem ofText_of_refused (h : Refused (Text.trim text) problem) :
    ofText text = .error problem := by
  cases h with
  | noColon hcolon => simp only [ofText, splitAtColon_eq_none hcolon]
  | unknownSuite htext hcolon hname =>
      simp only [ofText, htext, splitAtColon_append hcolon, Suite.ofNameAnyCase?_eq_none hname]
  | notBase64 htext hname hdigits =>
      have hdecode : Base64.decode _ = none :=
        Option.eq_none_iff_forall_ne_some.2 fun bs h => hdigits bs (Base64.decode_eq_some_iff.1 h)
      simp only [ofText, htext, splitAtColon_append (not_colon_mem hname),
        Suite.ofNameAnyCase?_eq_some_iff.2 hname, hdecode]
  | @wrongLength name suite bs htext hname hlength =>
      have hbytes : ofBytes suite bs = .error (.keyInvalid suite.keySize bs.length) :=
        dif_neg hlength
      simp only [ofText, htext, splitAtColon_append (not_colon_mem hname),
        Suite.ofNameAnyCase?_eq_some_iff.2 hname, Base64.decode_encode, hbytes]

/-- A text is that of a key, or something is wrong with it. -/
theorem spelling_or_refused (s : List Char) :
    (∃ k : Key, k.Spelling s) ∨ ∃ problem, Refused s problem := by
  by_cases hcolon : ':' ∈ s
  · obtain ⟨name, digits, hs, hplain⟩ := List.eq_append_cons_of_mem hcolon
    by_cases hsuite : ∃ suite : Suite,
        Suite.lowerAscii name = Suite.lowerAscii suite.name.toList
    · obtain ⟨suite, hname⟩ := hsuite
      by_cases hdigits : ∃ bs, digits = Base64.encode bs
      · obtain ⟨bs, rfl⟩ := hdigits
        by_cases hlength : bs.length = suite.keySize
        · exact .inl ⟨⟨suite, bs, hlength⟩, name, hname, hs⟩
        · exact .inr ⟨_, .wrongLength hs hname hlength⟩
      · exact .inr ⟨_, .notBase64 hs hname (not_exists.1 hdigits)⟩
    · exact .inr ⟨_, .unknownSuite hs hplain (not_exists.1 hsuite)⟩
  · exact .inr ⟨_, .noColon hcolon⟩

theorem ofText_eq_ok_iff : ofText text = .ok k ↔ k.Spelling (Text.trim text) := by
  constructor
  · intro h
    rcases spelling_or_refused (Text.trim text) with ⟨k', hk'⟩ | ⟨problem, hproblem⟩
    · obtain rfl := Except.ok.inj ((ofText_of_spelling hk').symm.trans h)
      exact hk'
    · simp [ofText_of_refused hproblem] at h
  · exact ofText_of_spelling

/-- What is written for a key is read whatever blanks are around it. -/
theorem ofText_pad (h : k.Spelling s) {before after : List Char} (hbefore : Text.Blank before)
    (hafter : Text.Blank after) : ofText (before ++ s ++ after) = .ok k := by
  apply ofText_of_spelling
  rwa [Text.trim_pad hbefore hafter h.visible.1 h.visible.2]

/-- In a key file the text of a key ends its line. -/
theorem ofText_line (k : Key) : ofText (k.toText ++ ['\n']) = .ok k := by
  have hbreak : Text.Blank ['\n'] := by
    simp [Text.Blank, Text.isBlank, Text.inRanges, Text.blankRanges]
  have hread := ofText_pad (spelling_toText k) Text.blank_nil hbreak
  rwa [List.nil_append] at hread

end Key

/-! ## Key files -/

namespace Files

theorem toList_loop (bs : ByteArray) (i : Nat) (r : Bytes) :
    ByteArray.toList.loop bs i r = r.reverse ++ bs.data.toList.drop i := by
  fun_induction ByteArray.toList.loop bs i r with
  | case1 i r hi ih =>
      have hbyte : bs.data.toList.get ⟨i, hi⟩ = bs.get! i := (getElem!_pos bs.data i hi).symm
      have hrest : bs.data.toList.drop i = bs.get! i :: bs.data.toList.drop (i + 1) := by
        rw [← hbyte]
        exact List.drop_eq_getElem_cons hi
      rw [ih, hrest, List.reverse_cons, List.append_assoc, List.singleton_append]
  | case2 i r hi => rw [List.drop_eq_nil_of_le (Nat.le_of_not_lt hi), List.append_nil]

/-- A text that has been written is read again. -/
theorem textOf_toUTF8 (text : String) : textOf text.toUTF8.toList = .ok text := by
  have hbytes : (⟨text.toUTF8.toList.toArray⟩ : ByteArray) = text.toUTF8 := by
    rw [ByteArray.toList, toList_loop]
    simp
  have hread : String.fromUTF8? text.toUTF8 = some text := dif_pos text.isValidUTF8
  rw [textOf, hbytes, hread]

/-- A file that has just been made is read by the path it was made under. -/
theorem readText_createSecret {fs fs' : Files} {path : String} {contents : Bytes}
    (hfs : fs.Anchored) (h : fs.createSecret path contents = .ok fs') :
    fs'.readText path = textOf contents := by
  obtain ⟨p, hplace, hfresh, rfl⟩ := createSecret_ok h
  have hnode : fs p ≠ some .folder := by simp [hfresh]
  have hleads := leads_of_placeFor hfs hplace hnode
  have hopen : (fs.put p (.file contents true)).openPlace path = .ok p :=
    openPlace_ok_iff.2 ⟨(leads_put hnode contents true).2 hleads, by simp⟩
  simp [readText, hopen]

end Files

namespace Key

variable {ρ : Type}

theorem suite_of_generate {k : Key} {suite : Suite} {entropy : Entropy ρ} {s : ρ}
    (h : (generate suite entropy s).1 = .ok k) : k.suite = suite := by
  unfold generate ofBytes at h
  split at h
  · simp at h
  · dsimp only at h
    split at h
    · rw [← Except.ok.inj h]
    · simp at h

/-- A generated key is found in the file that it was written to. -/
theorem readKey_keygen {now : Command.Situation} {suite : Suite} {path : String}
    {entropy : Entropy ρ} {s : ρ} (hfs : now.files.Anchored)
    (hok : (Command.keygen now suite (some path) entropy s).ending = .ok ()) :
    ∃ k, (generate suite entropy s).1 = .ok k ∧
      Command.readKey (Command.keygen now suite (some path) entropy s).files path = .ok k := by
  unfold Command.keygen at hok ⊢
  cases hkey : (generate suite entropy s).1 with
  | error failure => simp [hkey, Command.Outcome.unchanged] at hok
  | ok k =>
      simp only [hkey] at hok ⊢
      cases hcreate : now.files.createSecret path
          (String.ofList (k.toText ++ ['\n'])).toUTF8.toList with
      | error e =>
          rw [hcreate] at hok
          simp [Command.Outcome.unchanged] at hok
      | ok files =>
          refine ⟨k, rfl, ?_⟩
          rw [Command.readKey, Files.readText_createSecret hfs hcreate, Files.textOf_toUTF8]
          dsimp only
          rw [String.toList_ofList, ofText_line]

/-- Key files round trip.  The text of a key is read as this key, whatever blanks are around it
and in any letter case of the name; so a key that has been generated into a file is read from
there.  A key that a text gives is the one that is named before the first colon of what stands
between the blanks, with the bytes that are written behind it, as many as the suite needs.  Any
other text is an error, and it is said what is wrong with it. -/
theorem files_round_trip :
    (∀ (k : Key) (before s after : List Char), k.Spelling s → Text.Blank before →
      Text.Blank after → ofText (before ++ s ++ after) = .ok k) ∧
    (∀ k : Key, k.Spelling k.toText ∧ ofText (k.toText ++ ['\n']) = .ok k) ∧
    (∀ {ρ : Type} (now : Command.Situation) (suite : Suite) (path : String)
      (entropy : Entropy ρ) (s : ρ), now.files.Anchored →
      (Command.keygen now suite (some path) entropy s).ending = .ok () →
      ∃ k, (generate suite entropy s).1 = .ok k ∧ k.suite = suite ∧
        Command.readKey (Command.keygen now suite (some path) entropy s).files path = .ok k) ∧
    (∀ (text : List Char) (k : Key), ofText text = .ok k →
      k.bytes.length = k.suite.keySize ∧
      ∃ before name digits after, Text.Blank before ∧ Text.Blank after ∧
        text = before ++ Text.trim text ++ after ∧
        Text.trim text = name ++ ':' :: digits ∧ ':' ∉ name ∧
        Suite.lowerAscii name = Suite.lowerAscii k.suite.name.toList ∧
        digits = Base64.encode k.bytes) ∧
    ∀ text : List Char, (∀ k : Key, ¬ k.Spelling (Text.trim text)) →
      ∃ problem, Refused (Text.trim text) problem ∧ ofText text = .error problem := by
  refine ⟨?_, ?_, ?_, ?_, ?_⟩
  · exact fun k before s after hs hbefore hafter => ofText_pad hs hbefore hafter
  · exact fun k => ⟨spelling_toText k, ofText_line k⟩
  · intro ρ now suite path entropy s hfs hok
    obtain ⟨k, hk, hread⟩ := readKey_keygen hfs hok
    exact ⟨k, hk, suite_of_generate hk, hread⟩
  · intro text k h
    obtain ⟨name, hname, htext⟩ := ofText_eq_ok_iff.1 h
    obtain ⟨before, after, hbefore, hafter, hpad⟩ := Text.exists_trim text
    exact ⟨k.length_bytes, before, name, _, after, hbefore, hafter, hpad, htext,
      not_colon_mem hname, hname, rfl⟩
  · intro text hnone
    rcases spelling_or_refused (Text.trim text) with ⟨k, hk⟩ | ⟨problem, hproblem⟩
    · exact (hnone k hk).elim
    · exact ⟨problem, hproblem, ofText_of_refused hproblem⟩

/-- A key of sixteen bytes. -/
def sample : Key :=
  ⟨.aes128Gcm, [0, 1, 2, 3, 4, 5, 6, 7, 8, 9, 10, 11, 12, 13, 14, 15], rfl⟩

/-- It is read in capitals and between blanks, and from the file that it is generated into; its
name alone is an error. -/
theorem sample_read :
    (∃ k, ofText ("  ".toList ++ "AES128-GCM:AAECAwQFBgcICQoLDA0ODw==".toList ++ "\r\n".toList) =
      .ok k ∧ k = sample ∧ k.bytes.length = 16) ∧
    (∃ k, Command.readKey (Command.keygen (.ofFiles Files.empty) .aes128Gcm (some "k")
      Entropy.tape sample.bytes).files "k" = .ok k) ∧
    ∃ problem, ofText "aes128-gcm".toList = .error problem := by
  obtain ⟨hread, -, hfile, hnamed, hrefused⟩ := files_round_trip
  have hblank : Text.Blank "  ".toList ∧ Text.Blank "\r\n".toList := by
    constructor <;> simp [Text.Blank, Text.isBlank, Text.inRanges, Text.blankRanges]
  have hspelling : sample.Spelling "AES128-GCM:AAECAwQFBgcICQoLDA0ODw==".toList :=
    ⟨"AES128-GCM".toList, by decide +kernel, by decide +kernel⟩
  have hok := hread sample _ _ _ hspelling hblank.1 hblank.2
  have hmade : (Command.keygen (.ofFiles Files.empty) .aes128Gcm (some "k") Entropy.tape
      sample.bytes).ending = .ok () := by decide +kernel
  have hnone : ∀ k : Key, ¬ k.Spelling (Text.trim "aes128-gcm".toList) := by
    rintro k ⟨name, -, htext⟩
    have hcolon : ':' ∈ Text.trim "aes128-gcm".toList := by
      rw [htext]
      exact List.mem_append_right name List.mem_cons_self
    exact absurd hcolon (by decide +kernel)
  refine ⟨⟨sample, hok, rfl, (hnamed _ _ hok).1⟩, ?_, ?_⟩
  · obtain ⟨k, -, -, hk⟩ := hfile (.ofFiles Files.empty) .aes128Gcm "k" Entropy.tape sample.bytes
      Files.anchored_empty hmade
    exact ⟨k, hk⟩
  · obtain ⟨problem, -, herror⟩ := hrefused _ hnone
    exact ⟨problem, herror⟩

end Key

end SealedStream
