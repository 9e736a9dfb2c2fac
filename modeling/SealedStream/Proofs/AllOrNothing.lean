import SealedStream.Proofs.Places
import SealedStream.Proofs.Pouring
import SealedStream.Proofs.Slicing
import SealedStream.Proofs.Stopping

/-!
# Decryption is all or nothing

A run that opens a file into another one ends in one of four ways.  Something is wrong
before the output is created, and nothing has been changed.  Or the input is opened up
to an end that the reader has confirmed, and the output file holds all of its text.  Or
the run fails behind that, at whatever place, and there is no output file, whatever has
been written to it before.  Or it cannot be taken away: then it holds what has been
written, and nobody is told.

Which of the four it is depends on what the run finds, in this order: settings, secret,
input, output, and at last the contents of the input and how the output takes what is
written.  Contents count as confirmed by what a reader on them brings.  An input that is
the output file as well has lost its contents by then, and nothing is not confirmed by any
reader.

All this is said of runs that are not stopped.  A run is stopped if its settings ask for
chunks of a fixed size for which there can be no buffer.
-/

namespace SealedStream

/-- Behind the salt of the secret, if it has one, the contents are a stream under its key:
reading brings the text and then the end of the stream. -/
def Secret.Confirms (secret : Secret) (settings : Settings) (contents text : Bytes) : Prop :=
  ∃ salt k rest r, secret.Makes settings salt k ∧ contents = salt ++ rest ∧
    Reader.underKey (.ofBytes rest) k settings.layout = .ok r ∧ r.Brings text (.ok ())

/-! ## What opening confirms -/

namespace Transfer

variable {settings : Settings} {secret : Secret} {key : Key} {layout : Layout}
  {input input' : Source} {contents text : Bytes} {count : Nat}

theorem underKey_of_sound (hl : layout.check = .ok ()) (input : Source) (key : Key) :
    Reader.underKey input key layout = .ok ⟨layout, key.opener layout.nonceMode,
      key.openState layout.nonceMode, input, [], 1, .reading⟩ :=
  Reader.start_of_sound hl input _ _

/-- In a sound layout there is a reader, and what it yields is what is opened. -/
theorem decryptUnder_of_sound (hl : layout.check = .ok ()) (input : Source) (key : Key) :
    ∃ r bytes ending, Reader.underKey input key layout = .ok r ∧ r.Yields bytes ending ∧
      decryptUnder key layout input = ⟨bytes, verdict bytes.length ending⟩ := by
  obtain ⟨bytes, ending, hyields⟩ := Reader.exists_yields
    ⟨layout, key.opener layout.nonceMode, key.openState layout.nonceMode, input, [], 1,
      .reading⟩ hl
  exact ⟨_, bytes, ending, underKey_of_sound hl input key, hyields,
    decryptUnder_eq (underKey_of_sound hl input key) hyields⟩

/-- What is opened does not depend on how the source cuts its bytes. -/
theorem decryptUnder_of_alike (halike : input.Alike input') :
    decryptUnder key layout input = decryptUnder key layout input' := by
  cases hl : layout.check with
  | error f => simp [decryptUnder, Reader.underKey, Reader.start, hl]
  | ok u =>
      obtain ⟨r, bytes, ending, hstart, hyields, hopened⟩ := decryptUnder_of_sound hl input key
      obtain ⟨-, rfl⟩ := Reader.start_ok hstart
      rw [hopened, decryptUnder_eq (underKey_of_sound hl input' key)
        (hyields.of_alike hl halike)]

/-- What has been opened under a key is all that a reader brings before it confirms the
end of the stream. -/
theorem decryptUnder_ok (h : (decryptUnder key layout input).ending = .ok count) :
    ∃ r bytes, Reader.underKey input key layout = .ok r ∧ r.Yields bytes (.ok ()) ∧
      decryptUnder key layout input = ⟨bytes, .ok bytes.length⟩ := by
  cases hl : layout.check with
  | error f => simp [decryptUnder, Reader.underKey, Reader.start, hl] at h
  | ok u =>
      obtain ⟨r, bytes, ending, hstart, hyields, hopened⟩ := decryptUnder_of_sound hl input key
      cases ending with
      | error f =>
          rw [hopened] at h
          simp [verdict] at h
      | ok u => exact ⟨r, bytes, hstart, hyields, hopened⟩

/-- A stop under a key comes before anything has been opened, and for want of a buffer for a
full chunk. -/
theorem decryptUnder_stopped {problem : Problem}
    (h : (decryptUnder key layout input).ending = .error problem) (hstops : problem.stops = true) :
    (decryptUnder key layout input).output = [] ∧ layout.length? = none ∧
      ¬ layout.Allocatable (key.opener layout.nonceMode).overhead := by
  cases hl : layout.check with
  | error f =>
      -- A layout that is not sound is an error like any other.
      simp only [decryptUnder, Reader.underKey, Reader.start, hl, Except.error.injEq] at h
      subst h
      obtain rfl : f = .capacityOverflow := by
        simpa [Problem.stops, Failure.stops] using hstops
      exact (layout.check_ne_stop hl).elim
  | ok u =>
      obtain ⟨r, bytes, ending, hstart, hyields, hopened⟩ := decryptUnder_of_sound hl input key
      obtain ⟨-, rfl⟩ := Reader.start_ok hstart
      rw [hopened] at h ⊢
      cases ending with
      | ok u => simp [verdict] at h
      | error f =>
          obtain rfl : .notDecrypted f = problem := Except.error.inj h
          obtain rfl : f = .capacityOverflow := by
            simpa [Problem.stops, Failure.stops] using hstops
          exact hyields.of_stop hl (key.opener_goesOn _) rfl rfl

/-- Opening fails before there is a key, or goes on behind the salt of the secret. -/
theorem decrypt_cases (settings : Settings) (secret : Secret) (input : Source) :
    (∃ problem, problem.stops = false ∧ decrypt settings secret input = ⟨[], .error problem⟩) ∨
    ∃ salt k behind, secret.Makes settings salt k ∧ input.bytes = salt ++ behind.bytes ∧
      (input.Flows → behind.Flows) ∧
      decrypt settings secret input = decryptUnder k settings.layout behind := by
  cases secret with
  | key k => exact .inr ⟨[], k, input, .key k, rfl, id, rfl⟩
  | password password =>
      unfold decrypt Source.readExact
      rcases hgather : input.gather Password.saltSize with ⟨e | salt, behind⟩
      · exact .inl ⟨.saltNotRead e, rfl, rfl⟩
      · dsimp only
        by_cases hshort : salt.length < Password.saltSize
        · rw [if_pos hshort]
          exact .inl ⟨.saltNotRead _, rfl, rfl⟩
        · rw [if_neg hshort]
          dsimp only
          have hlength : salt.length = Password.saltSize :=
            Nat.le_antisymm (Source.gather_ok hgather).1 (Nat.le_of_not_lt hshort)
          cases hkey : Password.deriveKey password salt settings.cost settings.suite with
          | error failure => exact .inl ⟨.keyNotDerived failure, rfl, rfl⟩
          | ok k =>
              refine .inr ⟨salt, k, behind, .password hlength hkey,
                Source.bytes_of_gather hgather, fun hflows => ?_, rfl⟩
              obtain ⟨behind', hgather', hflows', -⟩ :=
                Source.gather_of_flows hflows Password.saltSize
              obtain ⟨-, rfl⟩ := Prod.mk.inj (hgather.symm.trans hgather')
              exact hflows'

theorem decrypt_stopped {problem : Problem}
    (h : (decrypt settings secret input).ending = .error problem) (hstops : problem.stops = true) :
    (decrypt settings secret input).output = [] ∧ settings.layout.length? = none ∧
      ∃ salt k, secret.Makes settings salt k ∧
        ¬ settings.layout.Allocatable (k.opener settings.layout.nonceMode).overhead := by
  rcases decrypt_cases settings secret input with
    ⟨problem', hgoes, hdecrypt⟩ | ⟨salt, k, behind, hmakes, -, -, hdecrypt⟩
  · rw [hdecrypt] at h
    obtain rfl : problem' = problem := Except.error.inj h
    simp [hgoes] at hstops
  · rw [hdecrypt] at h ⊢
    obtain ⟨houtput, hlength, hlarge⟩ := decryptUnder_stopped h hstops
    exact ⟨houtput, hlength, salt, k, hmakes, hlarge⟩

theorem confirms_of_decrypt
    (h : (decrypt settings secret (.ofBytes contents)).ending = .ok count) :
    secret.Confirms settings contents (decrypt settings secret (.ofBytes contents)).output := by
  rcases decrypt_cases settings secret (.ofBytes contents) with
    ⟨problem, -, hdecrypt⟩ | ⟨salt, k, behind, hmakes, hbytes, hflows, hdecrypt⟩
  · simp [hdecrypt] at h
  · have halike : behind.Alike (.ofBytes behind.bytes) :=
      ⟨hflows (Source.flows_ofBytes contents), Source.flows_ofBytes _,
        (Source.bytes_ofBytes _).symm⟩
    rw [decryptUnder_of_alike halike] at hdecrypt
    rw [hdecrypt] at h
    obtain ⟨r, bytes, hstart, hyields, hopened⟩ := decryptUnder_ok h
    rw [Source.bytes_ofBytes] at hbytes
    refine ⟨salt, k, behind.bytes, r, hmakes, hbytes, hstart, ?_⟩
    rw [hdecrypt, hopened]
    exact hyields.brings

/-- Contents that are confirmed are opened to their text. -/
theorem decrypt_of_confirms (h : secret.Confirms settings contents text) :
    decrypt settings secret (.ofBytes contents) = ⟨text, .ok text.length⟩ := by
  obtain ⟨salt, k, rest, r, hmakes, rfl, hstart, hbrings⟩ := h
  obtain ⟨behind, hflows, hrest, hdecrypt⟩ := decrypt_behind_salt hmakes
    (Source.flows_ofBytes (salt ++ rest)) (Source.bytes_ofBytes _)
  have halike : behind.Alike (.ofBytes rest) :=
    ⟨hflows, Source.flows_ofBytes rest, by rw [hrest, Source.bytes_ofBytes]⟩
  obtain ⟨r', bytes, ending, hstart', hyields, hopened⟩ :=
    decryptUnder_of_sound (Reader.start_ok hstart).1 (.ofBytes rest) k
  obtain rfl := Except.ok.inj (hstart.symm.trans hstart')
  obtain ⟨rfl, rfl⟩ := hyields.brings.unique hbrings
  rw [hdecrypt, decryptUnder_of_alike halike]
  exact hopened

/-- An input without bytes, whether it is empty or cannot be read, is never opened, and nothing
is put out. -/
theorem decrypt_without_bytes (settings : Settings) (secret : Secret) (h : input.bytes = []) :
    ∃ problem, decrypt settings secret input = ⟨[], .error problem⟩ := by
  rcases decrypt_cases settings secret input with
    ⟨problem, -, hdecrypt⟩ | ⟨salt, k, behind, -, hbytes, -, hdecrypt⟩
  · exact ⟨problem, hdecrypt⟩
  · have hnone : behind.bytes = [] := (List.append_eq_nil_iff.1 (hbytes.symm.trans h)).2
    rw [hdecrypt]
    cases hl : settings.layout.check with
    | error f => exact ⟨.notStarted f, by simp [decryptUnder, Reader.underKey, Reader.start, hl]⟩
    | ok u =>
        obtain ⟨r, bytes, ending, hstart, hyields, hopened⟩ := decryptUnder_of_sound hl behind k
        obtain ⟨-, rfl⟩ := Reader.start_ok hstart
        obtain ⟨rfl, f, rfl⟩ := hyields.failure_of_empty hl (k.opener_shortens _) rfl rfl hnone
        exact ⟨.notDecrypted f, hopened⟩

end Transfer

/-! ## Runs -/

namespace Command

variable {now : Situation} {path x y : String} {choice : SecretChoice} {ready : Ready}
  {problem : Problem}

/-- A run from file to file that is ready has opened its input, and its output file is
empty. -/
theorem prepare_two_files (h : prepare now ⟨some x, some y⟩ choice = .ok ready) :
    ∃ p q, secret now choice = .ok ready.secret ∧ now.files.openPlace x = .ok p ∧
      now.files.placeFor y = .ok q ∧ now.files q ≠ some .folder ∧ ready.target = some q ∧
      ready.files = now.files.put q (.file [] (now.files.ownerOnly q)) ∧
      ready.input = ready.files.sourceAt p := by
  obtain ⟨hsecret, houtput, opened, hopened, hinput⟩ := prepare_ok h
  rcases createOutput_ok houtput with ⟨hnone, -⟩ | ⟨y', q, hy, htarget, hplace, hnode, hfiles⟩
  · simp at hnone
  · obtain rfl := Option.some.inj hy
    cases hopen : now.files.openPlace x with
    | error e => simp [openInput, hopen] at hopened
    | ok p =>
        obtain rfl : some p = opened := by simpa [openInput, hopen] using hopened
        exact ⟨p, q, hsecret, rfl, hplace, hnode, htarget, hfiles, hinput⟩

/-- No secret can fail in the way of a transfer. -/
theorem secret_error (h : secret now choice = .error problem) (t : Transfer.Problem) :
    problem ≠ .transfer t := by
  rintro rfl
  cases choice with
  | keyFile path =>
      unfold secret readKey at h
      cases hread : now.files.readText path with
      | error e => simp [hread, Except.map] at h
      | ok text =>
          cases hkey : Key.ofText text.toList with
          | error e => simp [hread, hkey, Except.map] at h
          | ok k => simp [hread, hkey, Except.map] at h
  | password =>
      simp only [secret] at h
      split at h <;> simp at h

/-- A run that does not become ready has found its secret, its input or its output to be
wrong. -/
theorem prepare_error (h : prepare now ⟨some x, some y⟩ choice = .error problem) :
    (∀ t, problem ≠ .transfer t) ∧
      ((∃ e, secret now choice = .error e) ∨ (∃ e, now.files.openPlace x = .error e) ∨
        ∃ e, now.files.create y = .error e) := by
  unfold prepare openInput createOutput at h
  cases hsecret : secret now choice with
  | error found =>
      simp only [hsecret, Except.error.injEq] at h
      subst h
      exact ⟨secret_error hsecret, .inl ⟨_, rfl⟩⟩
  | ok found =>
      cases hopen : now.files.openPlace x with
      | error e =>
          simp only [hsecret, hopen, Except.error.injEq] at h
          subst h
          exact ⟨by simp, .inr (.inl ⟨e, rfl⟩)⟩
      | ok p =>
          cases hcreate : now.files.create y with
          | error e =>
              simp only [hsecret, hopen, hcreate, Except.error.injEq] at h
              subst h
              exact ⟨by simp, .inr (.inr ⟨e, rfl⟩)⟩
          | ok made => simp [hsecret, hopen, hcreate] at h

/-! ## The ways of a run -/

/-- The run has found its settings, its secret and its input, and has created its output. -/
structure Begun (now : Situation) (path x y : String) (choice : SecretChoice)
    (settings : Settings) (found : Secret) (p q : Place) : Prop where
  load_eq : Settings.load now.files path = .ok settings
  secret_eq : secret now choice = .ok found
  input_eq : now.files.openPlace x = .ok p
  output_eq : now.files.placeFor y = .ok q
  free : now.files q ≠ some .folder

/-- The files when the output has been created. -/
def Situation.created (now : Situation) (q : Place) : Files :=
  now.files.put q (.file [] (now.files.ownerOnly q))

/-- The problem is not one of confirmed contents, unless the output has failed. -/
def Refuses (now : Situation) (settings : Settings) (found : Secret) (p q : Place)
    (problem : Transfer.Problem) : Prop :=
  ∀ contents owner text, p ≠ q → now.files p = some (.file contents owner) →
    found.Confirms settings contents text → ∃ e ∈ now.outlet.errors, problem.OfOutput e

/-- How a run from file to file can end. -/
inductive Way
  | whole
  | untouched
  | removed
  | kept
  deriving DecidableEq, Repr

/-- The code with which the program ends. -/
def Way.code : Way → UInt32
  | .whole => 0
  | .untouched | .removed | .kept => 1

/-- The run ends in this way. -/
inductive Goes (now : Situation) (path x y : String) (choice : SecretChoice) :
    Outcome → Way → Prop
  /-- The output file holds the whole text of the input, which is another file and whose
  contents are confirmed. -/
  | whole {settings : Settings} {found : Secret} {p q : Place} {contents text : Bytes}
      {owner : Bool} :
      Begun now path x y choice settings found p q → p ≠ q →
      now.files p = some (.file contents owner) → found.Confirms settings contents text →
      Goes now path x y choice
        ⟨now.files.put q (.file text (now.files.ownerOnly q)), [], .ok ()⟩ .whole
  /-- The run has failed before it has created its output. -/
  | untouched {problem : Problem} :
      (∀ t, problem ≠ .transfer t) →
      ((∃ e, Settings.load now.files path = .error e) ∨ (∃ e, secret now choice = .error e) ∨
        (∃ e, now.files.openPlace x = .error e) ∨ ∃ e, now.files.create y = .error e) →
      Goes now path x y choice (.unchanged now.files problem) .untouched
  /-- The run has failed later, and there is no output file. -/
  | removed {settings : Settings} {found : Secret} {p q : Place} {problem : Transfer.Problem} :
      Begun now path x y choice settings found p q → Refuses now settings found p q problem →
      problem.stops = false → now.removable q = true →
      Goes now path x y choice ⟨now.files.erase q, [], .error (.transfer problem)⟩ .removed
  /-- The run has failed later, and the output file, which cannot be taken away, holds the
  beginning of what has been opened. -/
  | kept {settings : Settings} {found : Secret} {p q : Place} {problem : Transfer.Problem}
      {text : Bytes} :
      Begun now path x y choice settings found p q → Refuses now settings found p q problem →
      problem.stops = false → now.removable q = false →
      text <+: (Transfer.decrypt settings found ((now.created q).sourceAt p)).output →
      Goes now path x y choice
        ⟨now.files.put q (.file text (now.files.ownerOnly q)), [], .error (.transfer problem)⟩
        .kept

/-- If chunks have a fixed size, there can be a buffer for a full one. -/
def HasRoom (now : Situation) (path : String) (choice : SecretChoice) : Prop :=
  ∀ settings found salt k, Settings.load now.files path = .ok settings →
    secret now choice = .ok found → Secret.Makes settings found salt k →
      settings.layout.length? = none →
        settings.layout.Allocatable (k.opener settings.layout.nonceMode).overhead

/-- The program has been stopped, and the output file is empty. -/
inductive Stopped (now : Situation) (path x y : String) (choice : SecretChoice) : Outcome → Prop
  | mk {settings : Settings} {found : Secret} {p q : Place} {problem : Transfer.Problem} :
      Begun now path x y choice settings found p q → ¬ HasRoom now path choice →
      problem.stops = true →
      Stopped now path x y choice
        ⟨now.files.put q (.file [] (now.files.ownerOnly q)), [], .error (.transfer problem)⟩

section Ways

variable {out : Outcome} {way way' : Way} {p : Place}

/-- The way is told by the ending, and by whether the output file can be taken away. -/
def Way.told (now : Situation) (y : String) : Except Problem Unit → Way
  | .ok () => .whole
  | .error (.transfer _) =>
      if (now.files.placeFor y).toOption.all now.removable then .removed else .kept
  | .error _ => .untouched

theorem Goes.told (h : Goes now path x y choice out way) : way = .told now y out.ending := by
  cases h with
  | whole => rfl
  | @untouched problem hkind =>
      cases problem with
      | transfer t => exact (hkind t rfl).elim
      | _ => rfl
  | removed hbegun _ _ hremovable =>
      simp [Way.told, hbegun.output_eq, Except.toOption, hremovable]
  | kept hbegun _ _ hremovable =>
      simp [Way.told, hbegun.output_eq, Except.toOption, hremovable]

/-- No run ends in two ways. -/
theorem Goes.unique (h : Goes now path x y choice out way)
    (h' : Goes now path x y choice out way') : way' = way :=
  h'.told.trans h.told.symm

theorem Goes.code_eq (h : Goes now path x y choice out way) : out.code = way.code := by
  cases h with
  | whole => rfl
  | @untouched problem hkind =>
      cases problem with
      | transfer t => exact (hkind t rfl).elim
      | _ => rfl
  | removed _ _ hgoes => simp [Outcome.code, Problem.stops, hgoes, Way.code]
  | kept _ _ hgoes => simp [Outcome.code, Problem.stops, hgoes, Way.code]

theorem Goes.printed_eq (h : Goes now path x y choice out way) : out.printed = [] := by
  cases h <;> rfl

theorem Begun.put_other {settings : Settings} {found : Secret} {r q : Place}
    (h : Begun now path x y choice settings found r q) (hp : now.files.placeFor y ≠ .ok p)
    (node : Node) : now.files.put q node p = now.files p := by
  apply Files.put_other
  rintro rfl
  exact hp h.output_eq

/-- Whichever way a run goes, it changes no file but its output. -/
theorem Goes.other (h : Goes now path x y choice out way) (hp : now.files.placeFor y ≠ .ok p) :
    out.files p = now.files p := by
  cases h with
  | whole hbegun => exact hbegun.put_other hp _
  | untouched => rfl
  | removed hbegun =>
      apply Files.erase_other
      rintro rfl
      exact hp hbegun.output_eq
  | kept hbegun => exact hbegun.put_other hp _

theorem Stopped.no_room (h : Stopped now path x y choice out) : ¬ HasRoom now path choice := by
  cases h with
  | mk _ hnone => exact hnone

theorem Stopped.other (h : Stopped now path x y choice out)
    (hp : now.files.placeFor y ≠ .ok p) : out.files p = now.files p := by
  cases h with
  | mk hbegun => exact hbegun.put_other hp _

end Ways

/-! ## Every run goes one of the ways -/

section Runs

variable {settings : Settings} {found : Secret} {p q : Place} {t : Transfer.Problem}
  {text : Bytes} {out : Outcome}

/-- A run that has failed takes its output file away, or keeps what it has put out. -/
theorem Begun.fails (h : Begun now path x y choice settings found p q)
    (htarget : ready.target = some q) (hfiles : ready.files = now.created q)
    (hrefuses : Refuses now settings found p q t) (hgoes : t.stops = false)
    (htext : text <+: (Transfer.decrypt settings found ((now.created q).sourceAt p)).output) :
    ∃ way, Goes now path x y choice (ready.discard now text t) way := by
  simp only [Ready.discard, Ready.put, htarget, hfiles, Situation.created, Files.fill_put,
    Files.erase_put, hgoes]
  cases hremovable : now.removable q with
  | true => exact ⟨.removed, by simpa using Goes.removed h hrefuses hgoes hremovable⟩
  | false => exact ⟨.kept, by simpa using Goes.kept h hrefuses hgoes hremovable htext⟩

/-- A run that is stopped has put nothing out, and takes nothing away. -/
theorem Begun.stops (h : Begun now path x y choice settings found p q)
    (htarget : ready.target = some q) (hfiles : ready.files = now.created q)
    (hroom : ¬ HasRoom now path choice) (hstops : t.stops = true) :
    Stopped now path x y choice (ready.discard now [] t) := by
  simpa [Ready.discard, Ready.put, htarget, hfiles, Situation.created, hstops] using
    Stopped.mk h hroom hstops

/-- What has been opened is the contents of a file, and not of the output file. -/
theorem Begun.succeeds (h : Begun now path x y choice settings found p q)
    (htarget : ready.target = some q) (hfiles : ready.files = now.created q) {count : Nat}
    (hopened : (Transfer.decrypt settings found ((now.created q).sourceAt p)).ending = .ok count) :
    Goes now path x y choice
      (ready.put (Transfer.decrypt settings found ((now.created q).sourceAt p)).output (.ok ()))
      .whole := by
  have hbytes : Source.bytes ((now.created q).sourceAt p) ≠ [] := by
    intro hnone
    obtain ⟨problem, hfails⟩ := Transfer.decrypt_without_bytes settings found hnone
    simp [hfails] at hopened
  have hsource := Files.sourceAt_created h.input_eq h.free (now.files.ownerOnly q)
  rw [← Situation.created] at hsource
  rcases hsource with ⟨-, hread⟩ | ⟨contents, owner, hp, hread⟩
  · simp [hread, Source.bytes, Source.Event.bytes] at hbytes
  · by_cases hpq : p = q
    · rw [hread, if_pos hpq] at hbytes
      exact (hbytes (Source.bytes_ofBytes [])).elim
    · rw [if_neg hpq] at hread
      rw [hread] at hopened ⊢
      simp only [Ready.put, htarget, hfiles, Situation.created, Files.fill_put]
      exact .whole h hpq hp (Transfer.confirms_of_decrypt hopened)

/-- An opening that fails has not been of confirmed contents. -/
theorem refuses_of_error
    (hfails : (Transfer.decrypt settings found ((now.created q).sourceAt p)).ending = .error t) :
    Refuses now settings found p q t := by
  intro contents owner text hpq hp hconfirms
  have hread : (now.created q).sourceAt p = .ofBytes contents := by
    rw [Situation.created, Files.sourceAt, Files.put_other _ _ hpq, hp]
  rw [hread, Transfer.decrypt_of_confirms hconfirms] at hfails
  simp at hfails

/-- A run that has begun goes one of the ways, or is stopped. -/
theorem Begun.goes (h : Begun now path x y choice settings found p q)
    (hready : prepare now ⟨some x, some y⟩ choice = .ok ready)
    (htarget : ready.target = some q) (hfiles : ready.files = now.created q)
    (hsecret : ready.secret = found) (hinput : ready.input = (now.created q).sourceAt p) :
    (∃ way, Goes now path x y choice (decrypt now settings ⟨some x, some y⟩ choice) way) ∨
      Stopped now path x y choice (decrypt now settings ⟨some x, some y⟩ choice) := by
  unfold decrypt
  simp only [hready, hsecret, hinput]
  have houtlet : now.outlet.bytes = [] := rfl
  rcases Transfer.decryptOnto_eq_or settings found ((now.created q).sourceAt p) houtlet with
    hsame | ⟨e, he, text, t, ht, htext, hsame⟩
  · simp only [hsame]
    cases hends : (Transfer.decrypt settings found ((now.created q).sourceAt p)).ending with
    | ok count => exact .inl ⟨.whole, h.succeeds htarget hfiles hends⟩
    | error t =>
        cases hstops : t.stops with
        | false =>
            exact .inl (h.fails htarget hfiles (refuses_of_error hends) hstops List.prefix_rfl)
        | true =>
            obtain ⟨hnone, hlength, salt, k, hmakes, hlarge⟩ :=
              Transfer.decrypt_stopped hends hstops
            rw [hnone]
            exact .inr (h.stops htarget hfiles (fun hroom =>
              hlarge (hroom settings found salt k h.load_eq h.secret_eq hmakes hlength)) hstops)
  · simp only [hsame]
    have hgoes : t.stops = false := by cases ht <;> rfl
    exact .inl (h.fails htarget hfiles (fun _ _ _ _ _ _ => ⟨e, he, ht⟩) hgoes htext)

variable {ρ : Type}

/-- Every run that opens a file into another one goes one of the ways, or is stopped for want
of a buffer. -/
theorem decrypt_goes (now : Situation) (path x y : String) (choice : SecretChoice)
    (entropy : Entropy ρ) (s : ρ)
    (hout : perform now path (.decrypt ⟨some x, some y⟩ choice) entropy s = out) :
    (∃ way, Goes now path x y choice out way) ∨ Stopped now path x y choice out := by
  cases hload : Settings.load now.files path with
  | error e =>
      obtain rfl : .unchanged now.files (.settings path e) = out := by
        simpa [perform, hload] using hout
      exact .inl ⟨.untouched, .untouched (by simp) (.inl ⟨e, hload⟩)⟩
  | ok settings =>
      obtain rfl : decrypt now settings ⟨some x, some y⟩ choice = out := by
        simpa [perform, hload] using hout
      cases hready : prepare now ⟨some x, some y⟩ choice with
      | error problem =>
          obtain ⟨hkind, hearly⟩ := prepare_error hready
          have hfails : decrypt now settings ⟨some x, some y⟩ choice =
              .unchanged now.files problem := by
            simp [decrypt, hready]
          rw [hfails]
          exact .inl ⟨.untouched, .untouched hkind (.inr hearly)⟩
      | ok ready =>
          obtain ⟨p, q, hsecret, hopen, hplace, hnode, htarget, hfiles, hinput⟩ :=
            prepare_two_files hready
          rw [hfiles] at hinput
          exact Begun.goes ⟨hload, hsecret, hopen, hplace, hnode⟩ hready htarget hfiles rfl hinput

/-- Opening a file into another one is all or nothing.  Whatever the files and the secret are,
and whatever the settings, as long as there can be a buffer for a full chunk of a fixed size,
the run ends in exactly one of four ways: with the whole text in the output file, as far as an
end that a reader has confirmed; with a failure and all files as they were, if anything is wrong
before the output is created; with a failure and no output file; or with a failure and what has
been put out, if the output file cannot be taken away.  The program ends with the code of the
way, and has printed nothing.  In each case the other files are as they were. -/
theorem decrypt_all_or_nothing (now : Situation) (path x y : String) (choice : SecretChoice)
    (entropy : Entropy ρ) (s : ρ) (hroom : HasRoom now path choice) :
    let out := perform now path (.decrypt ⟨some x, some y⟩ choice) entropy s
    (∃! way, Goes now path x y choice out way) ∧
      (∀ way, Goes now path x y choice out way → out.code = way.code) ∧
      out.printed = [] ∧ ∀ p, now.files.placeFor y ≠ .ok p → out.files p = now.files p := by
  intro out
  have hout : perform now path (.decrypt ⟨some x, some y⟩ choice) entropy s = out := rfl
  rcases decrypt_goes now path x y choice entropy s hout with ⟨way, hway⟩ | hstopped
  · exact ⟨⟨way, hway, fun way' hway' => hway.unique hway'⟩, fun way' hway' => hway'.code_eq,
      hway.printed_eq, fun p hp => hway.other hp⟩
  · exact (hstopped.no_room hroom).elim

end Runs

/-! ## Some runs -/

/-- A key file, settings with counted nonces and with chunks of a fixed size, and a file. -/
def fixedFiles (size : String) (contents : Bytes) : Files :=
  ((Files.empty.put ["k"] (.file
    "chacha20-poly1305:QkJCQkJCQkJCQkJCQkJCQkJCQkJCQkJCQkJCQkJCQkI=\n".toUTF8.toList true)).put
    ["sealwire.toml"] (.file ("[stream]\nnonce_mode = \"counter\"\nlength_prefix = false\n" ++
      "chunk_counter = false\nbuffer_size = " ++ size ++ "\n").toUTF8.toList false)).put
    ["x"] (.file contents false)

def fixedSettings (size : Nat) : Settings :=
  { Settings.standard with
    layout :=
      { Layout.standard.withNonceMode .counter with
        lengthPrefix := false
        chunkCounter := false
        bufferSize := size } }

/-- A full chunk of four bytes, and no last one behind it. -/
def cutChunk : Bytes :=
  [56, 4, 135, 79, 228, 139, 164, 143, 178, 239, 47, 186, 3, 59, 194, 106, 128, 97, 145, 173]

/-- What is left when a file is opened into another one. -/
def fixedOpened (now : Situation) : Outcome :=
  perform now "sealwire.toml" (.decrypt ⟨some "x", some "y"⟩ (.keyFile "k")) Entropy.tape []

/-- A stream that has been cut is opened, and what has been opened of it is taken away. -/
theorem cutChunk_removed :
    (∃! way, Goes (.ofFiles (fixedFiles "4" cutChunk)) "sealwire.toml" "x" "y" (.keyFile "k")
      (fixedOpened (.ofFiles (fixedFiles "4" cutChunk))) way) ∧
    (fixedOpened (.ofFiles (fixedFiles "4" cutChunk))).code = 1 ∧
    (fixedOpened (.ofFiles (fixedFiles "4" cutChunk))).files ["y"] = none ∧
    (fixedOpened (.ofFiles (fixedFiles "4" cutChunk))).files ["x"] =
      some (.file cutChunk false) := by
  have hload : Settings.load (fixedFiles "4" cutChunk) "sealwire.toml" =
      .ok (fixedSettings 4) := by
    decide +kernel
  have hroom : HasRoom (.ofFiles (fixedFiles "4" cutChunk)) "sealwire.toml" (.keyFile "k") := by
    intro settings found salt k hsettings _ _ _
    obtain rfl := Except.ok.inj (hload.symm.trans hsettings)
    exact Layout.allocatable_of_lt (show 4 + 16 < Layout.allocationBound by decide)
  have hends : (fixedOpened (.ofFiles (fixedFiles "4" cutChunk))).code = 1 ∧
      (fixedOpened (.ofFiles (fixedFiles "4" cutChunk))).files ["y"] = none := by
    decide +kernel
  obtain ⟨hway, -, -, hother⟩ := decrypt_all_or_nothing (.ofFiles (fixedFiles "4" cutChunk))
    "sealwire.toml" "x" "y" (.keyFile "k") Entropy.tape [] hroom
  exact ⟨hway, hends.1, hends.2, hother ["x"] (by decide +kernel)⟩

/-- A run can leave its output file behind.  It is there, though empty, when the program has
been stopped for want of a buffer; and it holds what has been opened of a stream that has been
cut, when it cannot be taken away. -/
theorem output_left_behind :
    (fixedOpened (.ofFiles (fixedFiles "9223372036854775807" cutChunk))).code = 101 ∧
      (fixedOpened (.ofFiles (fixedFiles "9223372036854775807" cutChunk))).files ["y"] =
        some (.file [] false) ∧
      (fixedOpened { Situation.ofFiles (fixedFiles "4" cutChunk) with
        removable := fun _ => false }).code = 1 ∧
      (fixedOpened { Situation.ofFiles (fixedFiles "4" cutChunk) with
        removable := fun _ => false }).files ["y"] = some (.file [97, 98, 99, 100] false) := by
  decide +kernel

end Command

end SealedStream
