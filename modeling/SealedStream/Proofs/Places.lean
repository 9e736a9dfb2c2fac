import Mathlib.Tactic.Linarith
import SealedStream.Command.Run

/-!
# Places and what is written there

A run knows its files by paths and changes them at places.  Here is what one written
place does to the paths: a file is written only where no folder is, so no way leads
through it, and all paths lead where they led before.  What is read by a path depends on
the written place only if the path leads there.

A path under which a file can be created leads to the place of that file.  A path that
ends in one dot or two leads to a folder instead, provided that the folders are there
that always are.
-/

namespace SealedStream

namespace Files

variable {fs fs' : Files} {p q : Place} {path : String}

/-! ## Written places -/

@[simp] theorem put_put (fs : Files) (p : Place) (a b : Node) :
    (fs.put p a).put p b = fs.put p b := by
  funext q
  by_cases hq : q = p <;> simp [put, hq]

@[simp] theorem erase_put (fs : Files) (p : Place) (node : Node) :
    (fs.put p node).erase p = fs.erase p := by
  funext q
  by_cases hq : q = p <;> simp [put, erase, hq]

@[simp] theorem fill_put (fs : Files) (p : Place) (before contents : Bytes) (ownerOnly : Bool) :
    (fs.put p (.file before ownerOnly)).fill p contents =
      fs.put p (.file contents ownerOnly) := by
  simp [fill]

/-- Whether only its owner may use the file at a place; it is not so of a file that is
still to be made. -/
def ownerOnly (fs : Files) (p : Place) : Bool :=
  match fs p with
  | some (.file _ ownerOnly) => ownerOnly
  | _ => false

/-- A file is created where the path says, and nowhere but in place of a file or of
nothing. -/
theorem create_ok (h : fs.create path = .ok (q, fs')) :
    fs.placeFor path = .ok q ∧ fs q ≠ some .folder ∧
      fs' = fs.put q (.file [] (fs.ownerOnly q)) := by
  unfold create at h
  cases hplace : fs.placeFor path with
  | error e => simp [hplace] at h
  | ok r =>
      simp only [hplace] at h
      cases hnode : fs r with
      | none =>
          simp only [hnode, Except.ok.injEq, Prod.mk.injEq] at h
          obtain ⟨rfl, rfl⟩ := h
          exact ⟨rfl, by simp [hnode], by simp [ownerOnly, hnode]⟩
      | some node =>
          cases node with
          | folder => simp [hnode] at h
          | file contents owner =>
              simp only [hnode, Except.ok.injEq, Prod.mk.injEq] at h
              obtain ⟨rfl, rfl⟩ := h
              exact ⟨rfl, by simp [hnode], by simp [ownerOnly, hnode]⟩

theorem create_fresh (hplace : fs.placeFor path = .ok q) (hfresh : fs q = none) :
    fs.create path = .ok (q, fs.put q (.file [] false)) := by
  simp [create, hplace, hfresh]

/-- A secret is written where the path says, and only if nothing has been there. -/
theorem createSecret_ok {contents : Bytes} (h : fs.createSecret path contents = .ok fs') :
    ∃ q, fs.placeFor path = .ok q ∧ fs q = none ∧ fs' = fs.put q (.file contents true) := by
  unfold createSecret at h
  cases hplace : fs.placeFor path with
  | error e => simp [hplace] at h
  | ok q =>
      cases hnode : fs q with
      | some node => simp [hplace, hnode] at h
      | none =>
          simp only [hplace, hnode, Except.ok.injEq] at h
          exact ⟨q, rfl, hnode, h.symm⟩

/-! ## Where paths lead -/

/-- Following the path from name to name, one comes to the place. -/
def Leads (fs : Files) (path : String) (p : Place) : Prop :=
  fs.follow (way path).1 (way path).2 = .ok p

/-- No place is at the end of both paths. -/
def Apart (fs : Files) (path path' : String) : Prop :=
  ∀ p, fs.Leads path p → ¬ fs.Leads path' p

theorem Leads.unique (h : fs.Leads path p) (h' : fs.Leads path q) : p = q :=
  Except.ok.inj (h.symm.trans h')

theorem apart_of_leads {path' : String} (h : fs.Leads path p) (h' : fs.Leads path' q)
    (hne : p ≠ q) : fs.Apart path path' := by
  intro r hr hr'
  exact hne ((h.unique hr).trans (hr'.unique h'))

theorem openPlace_ok_iff :
    fs.openPlace path = .ok p ↔ fs.Leads path p ∧ (fs p).isSome = true := by
  unfold openPlace Leads
  dsimp only
  cases hfollow : fs.follow (way path).1 (way path).2 with
  | error e => simp
  | ok r =>
      by_cases hthere : (fs r).isSome = true
      · simp only [hthere, if_true, Except.ok.injEq]
        constructor
        · rintro rfl
          exact ⟨rfl, hthere⟩
        · exact fun h => h.1
      · simp only [hthere]
        constructor
        · simp
        · rintro ⟨hp, hsome⟩
          obtain rfl := Except.ok.inj hp
          exact (hthere hsome).elim

theorem has_iff : fs.has path = true ↔ ∃ p, fs.openPlace path = .ok p := by
  unfold has
  cases fs.openPlace path with
  | error e => simp [Except.isOk, Except.toBool]
  | ok p => simp [Except.isOk, Except.toBool]

/-- A last name is looked up in a folder. -/
theorem follow_concat {start : Place} {names : List String} {name : String}
    (h : fs.follow start (names ++ [name]) = .ok p) :
    ∃ m, fs.follow start names = .ok m ∧ fs m = some .folder ∧ p = m.step name := by
  induction names generalizing start with
  | nil =>
      rw [List.nil_append, follow] at h
      split at h
      · simp at h
      · simp at h
      · rename_i hfolder
        exact ⟨start, rfl, hfolder, (Except.ok.inj h).symm⟩
  | cons first names ih =>
      rw [List.cons_append, follow] at h
      split at h
      · simp at h
      · simp at h
      · rename_i hfolder
        obtain ⟨m, hm, hlast⟩ := ih h
        exact ⟨m, by rw [follow, hfolder]; exact hm, hlast⟩

/-- A file that is written where no folder is leaves all ways as they are. -/
theorem follow_put (hq : fs q ≠ some .folder) (contents : Bytes) (owner : Bool) (start : Place)
    (names : List String) :
    (fs.put q (.file contents owner)).follow start names = .ok p ↔
      fs.follow start names = .ok p := by
  induction names generalizing start with
  | nil => exact Iff.rfl
  | cons name names ih =>
      by_cases hstart : start = q
      · -- At the written place both ways end, for there is no folder.
        subst hstart
        rw [follow, follow, put_same]
        cases hnode : fs start with
        | none => simp
        | some node =>
            cases node with
            | folder => exact (hq hnode).elim
            | file contents' owner' => simp
      · rw [follow, follow, put_other fs _ hstart]
        split
        · exact Iff.rfl
        · exact Iff.rfl
        · exact ih (start.step name)

theorem leads_put (hq : fs q ≠ some .folder) (contents : Bytes) (owner : Bool) :
    (fs.put q (.file contents owner)).Leads path p ↔ fs.Leads path p :=
  follow_put hq contents owner _ _

section Elsewhere

/-! ## Paths that do not lead to the written place -/

variable (hq : fs q ≠ some .folder) (hpath : ¬ fs.Leads path q) (contents : Bytes) (owner : Bool)

include hq hpath

theorem openPlace_put :
    (fs.put q (.file contents owner)).openPlace path = .ok p ↔ fs.openPlace path = .ok p := by
  rw [openPlace_ok_iff, openPlace_ok_iff, leads_put hq]
  apply and_congr_right
  intro hleads
  have hother : p ≠ q := by
    rintro rfl
    exact hpath hleads
  rw [put_other fs _ hother]

theorem readText_put (hopen : fs.openPlace path = .ok p) :
    (fs.put q (.file contents owner)).readText path = fs.readText path := by
  have hother : p ≠ q := by
    rintro rfl
    exact hpath (openPlace_ok_iff.1 hopen).1
  rw [readText, readText, hopen, (openPlace_put hq hpath contents owner).2 hopen]
  simp only [put_other fs _ hother]

theorem load_put :
    Settings.load (fs.put q (.file contents owner)) path = Settings.load fs path := by
  have hsame : (fs.put q (.file contents owner)).has path = fs.has path := by
    rw [Bool.eq_iff_iff, has_iff, has_iff]
    simp only [openPlace_put hq hpath]
  unfold Settings.load
  rw [hsame]
  split
  · rename_i hthere
    obtain ⟨p, hopen⟩ := has_iff.1 hthere
    rw [readText_put hq hpath contents owner hopen]
  · rfl

theorem readKey_put {k : Key} (h : Command.readKey fs path = .ok k) :
    Command.readKey (fs.put q (.file contents owner)) path = .ok k := by
  have hopen : ∃ p, fs.openPlace path = .ok p := by
    cases hopen : fs.openPlace path with
    | ok p => exact ⟨p, rfl⟩
    | error e => simp [Command.readKey, readText, hopen] at h
  obtain ⟨p, hopen⟩ := hopen
  rw [Command.readKey, readText_put hq hpath contents owner hopen]
  exact h

end Elsewhere

/-- What is read from an opened place once a file has been created: nothing if this is the
place of the file, and the old contents otherwise. -/
theorem sourceAt_created (hopen : fs.openPlace path = .ok p) (hq : fs q ≠ some .folder)
    (owner : Bool) :
    (fs p = some .folder ∧ (fs.put q (.file [] owner)).sourceAt p = [.failure aFolder]) ∨
      ∃ contents owner', fs p = some (.file contents owner') ∧
        (fs.put q (.file [] owner)).sourceAt p = .ofBytes (if p = q then [] else contents) := by
  obtain ⟨-, hthere⟩ := openPlace_ok_iff.1 hopen
  obtain ⟨node, hnode⟩ := Option.isSome_iff_exists.1 hthere
  by_cases hpq : p = q
  · subst hpq
    cases node with
    | folder => exact (hq hnode).elim
    | file contents owner' => exact .inr ⟨contents, owner', hnode, by simp [sourceAt]⟩
  · rw [sourceAt, put_other fs _ hpq, hnode]
    cases node with
    | folder => exact .inl ⟨rfl, rfl⟩
    | file contents owner' => exact .inr ⟨contents, owner', rfl, by rw [if_neg hpq]⟩

/-! ## Where files can be created -/

/-- The folders are there that always are. -/
def Anchored (fs : Files) : Prop :=
  ∀ p : Place, p.isAnchor = true → fs p = some .folder

theorem anchored_empty : empty.Anchored :=
  fun _ hp => if_pos hp

/-- A file that is written where no folder is leaves all folders as they are. -/
theorem put_folder_iff (hq : fs q ≠ some .folder) (contents : Bytes) (owner : Bool) :
    fs.put q (.file contents owner) p = some .folder ↔ fs p = some .folder := by
  by_cases hpq : p = q
  · subst hpq
    simp [hq]
  · rw [put_other fs _ hpq]

theorem Anchored.put (h : fs.Anchored) (hq : fs q ≠ some .folder) (contents : Bytes)
    (owner : Bool) : (fs.put q (.file contents owner)).Anchored :=
  fun p hp => (put_folder_iff hq contents owner).2 (h p hp)

/-- A place to which names can lead: every place on the way to it is a folder. -/
inductive OnWay (fs : Files) : Place → Prop
  | anchor {p : Place} : p.isAnchor = true → OnWay fs p
  | under {p : Place} {name : String} :
      OnWay fs p → fs p = some .folder → name ≠ ".." → OnWay fs (p ++ [name])

/-- Two dots lead from a folder to a folder. -/
theorem OnWay.step_up (hfs : fs.Anchored) (h : fs.OnWay p) :
    fs.OnWay (p.step "..") ∧ fs (p.step "..") = some .folder := by
  have hdots : p.step ".." = if p = Place.root then p
      else if p.getLast?.all (· = "..") then p ++ [".."] else p.dropLast := by
    simp [Place.step]
  rw [hdots]
  by_cases hroot : p = Place.root
  · rw [if_pos hroot]
    have hanchor : p.isAnchor = true := by simp [Place.isAnchor, hroot]
    exact ⟨.anchor hanchor, hfs p hanchor⟩
  · rw [if_neg hroot]
    cases h with
    | anchor hanchor =>
        -- Above a folder that is above the working folder there is one more.
        have hall : p.all (· = "..") = true := by simpa [Place.isAnchor, hroot] using hanchor
        have hlast : p.getLast?.all (· = "..") = true := by
          cases hp : p.getLast? with
          | none => rfl
          | some name => simpa [hp] using List.all_eq_true.1 hall name (List.mem_of_getLast? hp)
        have hup : Place.isAnchor (p ++ [".."]) = true := by
          simp only [Place.isAnchor, List.all_append, hall]
          simp
        rw [if_pos hlast]
        exact ⟨.anchor hup, hfs _ hup⟩
    | @under parent name hparent hfolder hname =>
        have hlast : ¬ ((parent ++ [name]).getLast?.all (· = "..") = true) := by simp [hname]
        rw [if_neg hlast, List.dropLast_concat]
        exact ⟨hparent, hfolder⟩

theorem OnWay.step (hfs : fs.Anchored) (h : fs.OnWay p) (hfolder : fs p = some .folder)
    (name : String) : fs.OnWay (p.step name) := by
  by_cases hup : name = ".."
  · rw [hup]
    exact (h.step_up hfs).1
  · simp only [Place.step, hup, if_false]
    split
    · exact h
    · exact .under h hfolder hup

theorem OnWay.follow (hfs : fs.Anchored) {start : Place} {names : List String}
    (h : fs.OnWay start) (hfollow : fs.follow start names = .ok p) : fs.OnWay p := by
  induction names generalizing start with
  | nil =>
      obtain rfl := Except.ok.inj hfollow
      exact h
  | cons name names ih =>
      rw [Files.follow] at hfollow
      split at hfollow
      · simp at hfollow
      · simp at hfollow
      · rename_i hfolder
        exact ih (h.step hfs hfolder name) hfollow

theorem isAnchor_way (path : String) : (way path).1.isAnchor = true := by
  unfold way
  dsimp only
  split <;> simp [Place.isAnchor, Place.here]

/-- A path under which a file can be created leads to its place. -/
theorem leads_of_placeFor (hfs : fs.Anchored) (h : fs.placeFor path = .ok q)
    (hq : fs q ≠ some .folder) : fs.Leads path q := by
  have hstart : fs.OnWay (way path).1 := .anchor (isAnchor_way path)
  unfold placeFor at h
  dsimp only at h
  generalize hnames : ((way path).2.reverse.dropWhile (· = "")).reverse = names at h
  have hprefix : names <+: (way path).2 := by
    rw [← hnames, ← List.reverse_suffix, List.reverse_reverse]
    exact List.dropWhile_suffix _
  cases hfollow : fs.follow (way path).1 names with
  | error e => simp [hfollow] at h
  | ok p =>
      simp only [hfollow] at h
      cases hlast : names.getLast? with
      | none =>
          simp only [hlast, Except.ok.injEq] at h
          subst h
          obtain rfl := List.getLast?_eq_none_iff.1 hlast
          obtain rfl := Except.ok.inj hfollow
          exact (hq (hfs _ (isAnchor_way path))).elim
      | some last =>
          simp only [hlast] at h
          split at h
          · simp at h
          · rename_i hplain
            obtain rfl := Except.ok.inj h
            by_cases hshort : names.length < (way path).2.length
            · -- One dot leads to the folder it is looked up in, two to the one above.
              obtain ⟨front, rfl⟩ := List.getLast?_eq_some_iff.1 hlast
              obtain ⟨m, hm, hfolder, rfl⟩ := follow_concat hfollow
              by_cases hdot : last = "."
              · rw [hdot] at hq
                exact (hq (by simpa [Place.step] using hfolder)).elim
              · have hup : last = ".." := by
                  by_contra hup
                  exact hplain ⟨hshort, hdot, hup⟩
                rw [hup] at hq
                exact (hq ((hstart.follow hfs hm).step_up hfs).2).elim
            · rw [Leads, ← hprefix.eq_of_length_le (Nat.le_of_not_lt hshort)]
              exact hfollow

end Files

namespace Command

/-! ## What a run begins with -/

variable {now : Situation} {ends : Ends} {choice : SecretChoice} {ready : Ready}

/-- What there is once the output has been created: an empty file at its place, if it is a
file. -/
theorem createOutput_ok {fs fs' : Files} {output : Option String} {target : Option Place}
    (h : createOutput fs output = .ok (target, fs')) :
    (output = none ∧ target = none ∧ fs' = fs) ∨
      ∃ y q, output = some y ∧ target = some q ∧ fs.placeFor y = .ok q ∧
        fs q ≠ some .folder ∧ fs' = fs.put q (.file [] (fs.ownerOnly q)) := by
  unfold createOutput at h
  cases output with
  | none =>
      obtain ⟨rfl, rfl⟩ := Prod.mk.inj (Except.ok.inj h)
      exact .inl ⟨rfl, rfl, rfl⟩
  | some y =>
      cases hcreate : fs.create y with
      | error e => simp [hcreate] at h
      | ok made =>
          simp only [hcreate] at h
          obtain ⟨rfl, rfl⟩ := Prod.mk.inj (Except.ok.inj h)
          obtain ⟨hplace, hnode, hfiles⟩ := Files.create_ok hcreate
          exact .inr ⟨y, _, rfl, rfl, hplace, hnode, hfiles⟩

/-- A run is ready when it has its secret, its input and its output. -/
theorem prepare_ok (h : prepare now ends choice = .ok ready) :
    secret now choice = .ok ready.secret ∧
      createOutput now.files ends.output = .ok (ready.target, ready.files) ∧
      ∃ opened, openInput now.files ends.input = .ok opened ∧
        ready.input = (opened.map ready.files.sourceAt).getD now.input := by
  unfold prepare at h
  cases hsecret : secret now choice with
  | error problem => simp [hsecret] at h
  | ok found =>
      cases hinput : openInput now.files ends.input with
      | error problem => simp [hsecret, hinput] at h
      | ok opened =>
          cases houtput : createOutput now.files ends.output with
          | error problem => simp [hsecret, hinput, houtput] at h
          | ok made =>
              simp only [hsecret, hinput, houtput, Except.ok.injEq] at h
              subst h
              exact ⟨rfl, rfl, opened, rfl, rfl⟩

end Command

end SealedStream
