import SealedStream.Proofs.AllOrNothing

/-!
# Sealed files can be opened again

A file that a run has sealed into another file under a key can be opened again: under the
same settings and with the same key file, a second run writes its contents to a new file.
And a run that opens a file leaves this file as it is, whether it succeeds or fails.

Both hold of two different files.  Nothing keeps a user from naming one file twice, and the
output file is emptied before the input is read.  Sealing a file into itself succeeds, and
leaves the stream of an empty text; opening a file into itself fails, and takes the file
away or leaves it empty, unless it has failed before.  The key file can be overwritten in
the same way, and then nothing is left to open the stream with.
-/

namespace SealedStream

namespace Transfer

variable {ρ : Type} {settings : Settings} {secret : Secret} {entropy : Entropy ρ} {s : ρ}
  {sink : Sink} {input input' : Source} {e : IoError}

theorem encryptUnder_unreadable {key : Key} {layout : Layout}
    (hread : input.read blockSize = (.error e, input')) (he : e.isInterrupted = false)
    (count : Nat) : (encryptUnder key layout sink input entropy s).ending ≠ .ok count := by
  unfold encryptUnder
  cases Writer.underKey sink key layout entropy s with
  | error failure => simp
  | ok w => simp [readsOf, feed, hread, he]

/-- An input that cannot be read is not sealed. -/
theorem encrypt_unreadable (hread : input.read blockSize = (.error e, input'))
    (he : e.isInterrupted = false) (count : Nat) :
    (encryptOnto sink settings secret input entropy s).ending ≠ .ok count := by
  intro h
  obtain ⟨salt, k, s', sink, -, -, hunder⟩ := encrypt_under h
  rw [hunder] at h
  exact encryptUnder_unreadable hread he count h

/-- With no limit on chunks, what has been sealed under a key is opened under it. -/
theorem decrypt_sealed {k : Key} (hmax : settings.layout.maxChunkSize = 0)
    (hsink : sink.bytes = []) {text : Bytes} {count : Nat}
    (h : (encryptOnto sink settings (.key k) (.ofBytes text) entropy s).ending = .ok count) :
    decrypt settings (.key k)
      (.ofBytes (encryptOnto sink settings (.key k) (.ofBytes text) entropy s).output) =
        ⟨text, .ok text.length⟩ := by
  obtain ⟨-, salt, k', s', final, hdraws, hcompletes, houtput⟩ :=
    encrypt_ok hsink (Source.flows_ofBytes text) h
  cases hdraws with
  | key =>
      have hopened := decryptUnder_of_completes hcompletes (fun _ => .inl hmax) (.inl rfl)
        (Source.flows_ofBytes final.sink.bytes) (by simp)
      rw [Source.flatten_blocks (by decide), Source.bytes_ofBytes] at hopened
      rw [houtput]
      exact hopened

end Transfer

namespace Command

variable {ρ : Type} {now : Situation} {path key x y : String} {settings : Settings}
  {entropy : Entropy ρ} {s : ρ} {out : Outcome}

/-- A run that has sealed a file has read its contents, unless the file was the output
file, and has filled the output file. -/
theorem encrypt_ok (hload : Settings.load now.files path = .ok settings)
    (hout : perform now path (.encrypt ⟨some x, some y⟩ (.keyFile key)) entropy s = out)
    (hok : out.ending = .ok ()) :
    ∃ k p q contents owner count, readKey now.files key = .ok k ∧
      now.files.openPlace x = .ok p ∧ now.files p = some (.file contents owner) ∧
      now.files.placeFor y = .ok q ∧ now.files q ≠ some .folder ∧
      (Transfer.encryptOnto now.outlet settings (.key k)
        (.ofBytes (if p = q then [] else contents)) entropy s).ending = .ok count ∧
      out.files = now.files.put q (.file (Transfer.encryptOnto now.outlet settings (.key k)
        (.ofBytes (if p = q then [] else contents)) entropy s).output
          (now.files.ownerOnly q)) := by
  have hrun : encrypt now settings ⟨some x, some y⟩ (.keyFile key) entropy s = out := by
    simpa [perform, hload] using hout
  unfold encrypt at hrun
  cases hready : prepare now ⟨some x, some y⟩ (.keyFile key) with
  | error problem =>
      simp only [hready] at hrun
      subst hrun
      simp [Outcome.unchanged] at hok
  | ok ready =>
      obtain ⟨p, q, hsecret, hopen, hplace, hnode, htarget, hfiles, hinput⟩ :=
        prepare_two_files hready
      simp only [hready] at hrun
      cases hending : (Transfer.encryptOnto now.outlet settings ready.secret ready.input entropy
          s).ending with
      | error problem =>
          simp only [hending, Ready.put, htarget] at hrun
          subst hrun
          simp at hok
      | ok count =>
          simp only [hending, Ready.put, htarget] at hrun
          subst hrun
          obtain ⟨k, hk, hsame⟩ : ∃ k, readKey now.files key = .ok k ∧ ready.secret = .key k := by
            cases hk : readKey now.files key with
            | error problem => simp [secret, hk, Except.map] at hsecret
            | ok k =>
                refine ⟨k, rfl, ?_⟩
                simpa [secret, hk, Except.map, eq_comm] using hsecret
          have hsource := Files.sourceAt_created hopen hnode (now.files.ownerOnly q)
          rw [← hfiles, ← hinput] at hsource
          rcases hsource with ⟨-, hread⟩ | ⟨contents, owner, hp, hread⟩
          · rw [hread] at hending
            exact (Transfer.encrypt_unreadable rfl rfl count hending).elim
          · rw [hsame, hread] at hending
            refine ⟨k, p, q, contents, owner, count, hk, hopen, hp, hplace, hnode, hending, ?_⟩
            dsimp only
            rw [hfiles, Files.fill_put, hsame, hread]

/-- A run that finds everything for opening a file into a new one writes what is opened. -/
theorem decrypt_into_new {z : String} {k : Key} {q r : Place} {chunks text : Bytes}
    {owner : Bool} {count : Nat} (hload : Settings.load now.files path = .ok settings)
    (hkey : readKey now.files key = .ok k) (hopen : now.files.openPlace y = .ok q)
    (hq : now.files q = some (.file chunks owner)) (hplace : now.files.placeFor z = .ok r)
    (hnew : now.files r = none) (houtlet : now.outlet.errors = [])
    (hopened : Transfer.decrypt settings (.key k) (.ofBytes chunks) = ⟨text, .ok count⟩) :
    perform now path (.decrypt ⟨some y, some z⟩ (.keyFile key)) entropy s =
      ⟨now.files.put r (.file text false), [], .ok ()⟩ := by
  have hother : q ≠ r := by
    rintro rfl
    simp [hnew] at hq
  have hready : prepare now ⟨some y, some z⟩ (.keyFile key) =
      .ok ⟨.key k, some r, now.files.put r (.file [] false), .ofBytes chunks⟩ := by
    simp [prepare, secret, hkey, Except.map, openInput, hopen, createOutput,
      Files.create_fresh hplace hnew, Files.sourceAt, Files.put_other _ _ hother, hq]
  have hempty : now.outlet.bytes = [] := rfl
  have hput := Transfer.decryptOnto_of_errors_nil settings (.key k) (.ofBytes chunks) hempty houtlet
  simp [perform, hload, decrypt, hready, hput, hopened, Ready.put]

/-- A run that opens a file into itself has emptied it before it could be read, unless it has
failed earlier. -/
theorem Goes.onto_input {choice : SecretChoice} {way : Way} {p : Place}
    (h : Goes now path x y choice out way) (hopen : now.files.openPlace x = .ok p)
    (hp : now.files.placeFor y = .ok p) :
    out.ending ≠ .ok () ∧ (out.files = now.files ∨ out.files = now.files.erase p ∨
      out.files = now.files.put p (.file [] (now.files.ownerOnly p))) := by
  cases h with
  | whole hbegun hne =>
      obtain rfl := Except.ok.inj (hopen.symm.trans hbegun.input_eq)
      exact (hne (Except.ok.inj (hp.symm.trans hbegun.output_eq))).elim
  | untouched => exact ⟨by simp [Outcome.unchanged], .inl rfl⟩
  | removed hbegun =>
      obtain rfl := Except.ok.inj (hp.symm.trans hbegun.output_eq)
      exact ⟨by simp, .inr (.inl rfl)⟩
  | @kept settings found p' q problem text hbegun _ _ _ htext =>
      obtain rfl := Except.ok.inj (hopen.symm.trans hbegun.input_eq)
      obtain rfl := Except.ok.inj (hp.symm.trans hbegun.output_eq)
      -- Nothing has been opened, for there was nothing left to open.
      have hread : Source.bytes ((now.created p).sourceAt p) = [] := by
        simp [Situation.created, Files.sourceAt]
      obtain ⟨problem', hfails⟩ := Transfer.decrypt_without_bytes settings found hread
      rw [hfails] at htext
      obtain rfl := List.prefix_nil.1 htext
      exact ⟨by simp, .inr (.inr rfl)⟩

theorem Stopped.onto_input {choice : SecretChoice} {p : Place}
    (h : Stopped now path x y choice out) (hp : now.files.placeFor y = .ok p) :
    out.ending ≠ .ok () ∧ (out.files = now.files ∨ out.files = now.files.erase p ∨
      out.files = now.files.put p (.file [] (now.files.ownerOnly p))) := by
  cases h with
  | mk hbegun =>
      obtain rfl := Except.ok.inj (hp.symm.trans hbegun.output_eq)
      exact ⟨by simp, .inr (.inr rfl)⟩

/-- Sealing and opening files do not lose what they are given, as long as the two files are
different ones.

A run has sealed a file under a key, without a limit on chunks, and the output file is not
the key file.  Then the settings are still the same, unless they were in the output file;
and under the same settings any run that opens the output file into a new one with the same
key file, and can write it, succeeds, writes this one file, and puts the contents of the first
file into it, or nothing if that was the output file itself.

A run that opens a file into another one, under any settings and with any secret, leaves the
first one as it was.  If the two are the same it never succeeds; then it has failed before it
has created its output, or the file is gone, or it is empty. -/
theorem lost_only_if_overwritten (now : Situation) (path x y : String) :
    (∀ {ρ ρ' : Type} (entropy : Entropy ρ) (s : ρ) (entropy' : Entropy ρ') (s' : ρ')
        (settings : Settings) (key : String) (out : Outcome),
      now.files.Anchored → now.files.Apart key y →
      Settings.load now.files path = .ok settings → settings.layout.maxChunkSize = 0 →
      perform now path (.encrypt ⟨some x, some y⟩ (.keyFile key)) entropy s = out →
      out.ending = .ok () →
      (now.files.Apart path y → Settings.load out.files path = .ok settings) ∧
      ∃ p q contents owner, now.files.openPlace x = .ok p ∧ now.files.placeFor y = .ok q ∧
        now.files p = some (.file contents owner) ∧
        ∀ (later : Situation) (path' z : String) (r : Place), later.files = out.files →
          later.outlet.errors = [] → Settings.load later.files path' = .ok settings →
          later.files.placeFor z = .ok r → later.files r = none →
          perform later path' (.decrypt ⟨some y, some z⟩ (.keyFile key)) entropy' s' =
            ⟨later.files.put r (.file (if p = q then [] else contents) false), [], .ok ()⟩) ∧
    ∀ {ρ : Type} (entropy : Entropy ρ) (s : ρ) (choice : SecretChoice) (out : Outcome),
      perform now path (.decrypt ⟨some x, some y⟩ choice) entropy s = out →
      ∀ p, now.files.openPlace x = .ok p →
        (now.files.placeFor y ≠ .ok p → out.files p = now.files p) ∧
        (now.files.placeFor y = .ok p → out.ending ≠ .ok () ∧
          (out.files = now.files ∨ out.files = now.files.erase p ∨
            out.files = now.files.put p (.file [] (now.files.ownerOnly p)))) := by
  constructor
  · intro ρ ρ' entropy s entropy' s' settings key out hfs hkey hload hmax hout hok
    obtain ⟨k, p, q, contents, owner, count, hk, hopen, hp, hplace, hnode, hending, hfiles⟩ :=
      encrypt_ok hload hout hok
    have hleads := Files.leads_of_placeFor hfs hplace hnode
    -- What does not lead to the output file is found as before.
    have helsewhere {other : String} (happart : now.files.Apart other y) :
        ¬ now.files.Leads other q := fun hother => happart q hother hleads
    constructor
    · intro hpath
      rw [hfiles, Files.load_put hnode (helsewhere hpath), hload]
    · refine ⟨p, q, contents, owner, hopen, hplace, hp, ?_⟩
      intro later path' z r hsame houtlet hsettings hz hnew
      have hkey' : readKey later.files key = .ok k := by
        rw [hsame, hfiles]
        exact Files.readKey_put hnode (helsewhere hkey) _ _ hk
      have hopen' : later.files.openPlace y = .ok q := by
        rw [hsame, hfiles]
        exact Files.openPlace_ok_iff.2 ⟨(Files.leads_put hnode _ _).2 hleads, by simp⟩
      have hchunks := congrFun (hsame.trans hfiles) q
      rw [Files.put_same] at hchunks
      exact decrypt_into_new hsettings hkey' hopen' hchunks hz hnew houtlet
        (Transfer.decrypt_sealed hmax rfl hending)
  · intro ρ entropy s choice out hout p hopen
    have hgoes := decrypt_goes now path x y choice entropy s hout
    constructor
    · intro hp
      rcases hgoes with ⟨way, hway⟩ | hstopped
      · exact hway.other hp
      · exact hstopped.other hp
    · intro hp
      rcases hgoes with ⟨way, hway⟩ | hstopped
      · exact hway.onto_input hopen hp
      · exact hstopped.onto_input hp

/-! ## Some files -/

/-- A key file, settings with counted nonces and without a limit on chunks, and a file of
one byte. -/
def sampleFiles : Files :=
  ((Files.empty.put ["k"] (.file
    "chacha20-poly1305:QkJCQkJCQkJCQkJCQkJCQkJCQkJCQkJCQkJCQkJCQkI=\n".toUTF8.toList true)).put
    ["sealwire.toml"]
      (.file "[stream]\nnonce_mode = \"counter\"\nmax_chunk_size = 0\n".toUTF8.toList false)).put
    ["x"] (.file [97] false)

def sampleSettings : Settings :=
  { Settings.standard with
    layout := { Layout.standard.withNonceMode .counter with maxChunkSize := 0 } }

/-- What is left when one file is sealed into another. -/
def sampleSealed (fs : Files) (x y : String) : Outcome :=
  perform (.ofFiles fs) "sealwire.toml" (.encrypt ⟨some x, some y⟩ (.keyFile "k")) Entropy.tape []

/-- What is left when one file is opened into another. -/
def sampleOpened (fs : Files) (x y : String) : Outcome :=
  perform (.ofFiles fs) "sealwire.toml" (.decrypt ⟨some x, some y⟩ (.keyFile "k")) Entropy.tape []

/-- The file is sealed and comes back, and an attempt to open it, which is no stream, leaves
it alone. -/
theorem sampleFiles_recovered :
    (sampleSealed sampleFiles "x" "y").ending = .ok () ∧
      sampleOpened (sampleSealed sampleFiles "x" "y").files "y" "z" =
        ⟨(sampleSealed sampleFiles "x" "y").files.put ["z"] (.file [97] false), [], .ok ()⟩ ∧
      (sampleOpened sampleFiles "x" "y").files ["x"] = some (.file [97] false) := by
  have hanchored : sampleFiles.Anchored :=
    ((Files.anchored_empty.put (by decide) _ _).put (by decide) _ _).put (by decide) _ _
  have hkey : sampleFiles.Leads "k" ["k"] := rfl
  have hpath : sampleFiles.Leads "sealwire.toml" ["sealwire.toml"] := rfl
  have hout : sampleFiles.Leads "y" ["y"] := rfl
  have hopen : sampleFiles.openPlace "x" = .ok ["x"] := rfl
  have hload : Settings.load sampleFiles "sealwire.toml" = .ok sampleSettings := by
    decide +kernel
  have hok : (sampleSealed sampleFiles "x" "y").ending = .ok () := by decide +kernel
  obtain ⟨hseal, hleave⟩ :=
    lost_only_if_overwritten (.ofFiles sampleFiles) "sealwire.toml" "x" "y"
  obtain ⟨hsame, p, q, contents, owner, hp, hq, hcontents, hback⟩ :=
    hseal Entropy.tape [] Entropy.tape [] sampleSettings "k" _ hanchored
      (Files.apart_of_leads hkey hout (by decide)) hload rfl rfl hok
  obtain rfl := Except.ok.inj (hp.symm.trans hopen)
  obtain rfl : ["y"] = q := Except.ok.inj hq
  obtain ⟨rfl, -⟩ := Node.file.inj (Option.some.inj hcontents)
  refine ⟨hok, ?_, ?_⟩
  · exact hback (.ofFiles (sampleSealed sampleFiles "x" "y").files) "sealwire.toml" "z" ["z"]
      rfl rfl (hsame (Files.apart_of_leads hpath hout (by decide))) (by decide +kernel)
      (by decide +kernel)
  · exact (hleave Entropy.tape [] (.keyFile "k") _ rfl ["x"] hopen).1 (by decide)

/-- Sealed into itself, the file is lost, though nothing fails: what comes back is empty.
Opened into itself, it is gone.  Sealed into the key file, it cannot be opened. -/
theorem sampleFiles_overwritten :
    sampleFiles ["x"] = some (.file [97] false) ∧
      (sampleSealed sampleFiles "x" "x").ending = .ok () ∧
      (sampleOpened (sampleSealed sampleFiles "x" "x").files "x" "z").ending = .ok () ∧
      (sampleOpened (sampleSealed sampleFiles "x" "x").files "x" "z").files ["z"] =
        some (.file [] false) ∧
      (sampleOpened sampleFiles "x" "x").ending ≠ .ok () ∧
      (sampleOpened sampleFiles "x" "x").files ["x"] = none ∧
      (sampleSealed sampleFiles "x" "k").ending = .ok () ∧
      (sampleOpened (sampleSealed sampleFiles "x" "k").files "k" "z").ending ≠ .ok () := by
  decide +kernel

end Command

end SealedStream
