import SealedStream.Proofs.Copying
import SealedStream.Proofs.Draining
import SealedStream.Proofs.RoundTrip
import SealedStream.Proofs.SharedKey

/-!
# Opening inverts sealing

What a transfer seals, it opens again.  Under a key both sides have the key; under a
password the salt that the one side draws is what the other side reads first, and both
make the same key of it.  The input may be read in any pieces, and so may what has been
sealed; and where lengths are written, other bytes may follow.
-/

namespace SealedStream

/-- What a secret comes to when an input is opened: the salt that stands in front of the
stream, if there is one, and the key. -/
inductive Secret.Makes (settings : Settings) : Secret → Bytes → Key → Prop
  | key (k : Key) : Makes settings (.key k) [] k
  | password {password : String} {salt : Bytes} {k : Key} :
      salt.length = Password.saltSize →
      Password.deriveKey password salt settings.cost settings.suite = .ok k →
      Makes settings (.password password) salt k

/-- What a secret comes to when an input is sealed: the salt that is drawn, if there is
one, the key, and the entropy that is left for the nonces. -/
inductive Secret.Draws {ρ : Type} (settings : Settings) (entropy : Entropy ρ) :
    Secret → ρ → Bytes → Key → ρ → Prop
  | key (k : Key) (s : ρ) : Draws settings entropy (.key k) s [] k s
  | password {password : String} {s s' : ρ} {salt : Bytes} {k : Key} :
      entropy.draw s Password.saltSize = (.ok salt, s') →
      Password.deriveKey password salt settings.cost settings.suite = .ok k →
      Draws settings entropy (.password password) s salt k s'

variable {ρ : Type} {settings : Settings} {entropy : Entropy ρ} {secret : Secret} {s s' : ρ}
  {salt : Bytes} {k : Key}

theorem Secret.Draws.makes (h : secret.Draws settings entropy s salt k s') :
    secret.Makes settings salt k := by
  cases h with
  | key => exact .key k
  | password hdraw hkey => exact .password (entropy.length_draw hdraw) hkey

namespace Transfer

/-- A transfer that has sealed its input has done so under the key that the secret comes to,
behind the salt. -/
theorem encrypt_under {sink : Sink} {input : Source} {count : Nat}
    (h : (encryptOnto sink settings secret input entropy s).ending = .ok count) :
    ∃ salt k s' sink', secret.Draws settings entropy s salt k s' ∧
      sink'.bytes = sink.bytes ++ salt ∧
      encryptOnto sink settings secret input entropy s =
        encryptUnder k settings.layout sink' input entropy s' := by
  unfold encryptOnto at h ⊢
  cases secret with
  | key k => exact ⟨[], k, s, sink, .key k s, (List.append_nil _).symm, rfl⟩
  | password password =>
      dsimp only at h ⊢
      cases hdraw : entropy.draw s Password.saltSize with
      | mk answer s' =>
          cases answer with
          | error failure => simp [hdraw] at h
          | ok salt =>
              simp only [hdraw] at h ⊢
              cases hwrite : sink.writeAll salt with
              | mk answer sink' =>
                  cases answer with
                  | error e => simp [hwrite] at h
                  | ok u =>
                      simp only [hwrite] at h ⊢
                      cases hkey : Password.deriveKey password salt settings.cost
                          settings.suite with
                      | error failure => simp [hkey] at h
                      | ok k =>
                          exact ⟨salt, k, s', sink', .password hdraw hkey,
                            Sink.bytes_writeAll hwrite, rfl⟩

/-- A transfer that has sealed its input has put out the salt and the reference stream of
the blocks of the input. -/
theorem encrypt_ok {sink : Sink} {input : Source} {count : Nat} (hsink : sink.bytes = [])
    (hflows : input.Flows)
    (h : (encryptOnto sink settings secret input entropy s).ending = .ok count) :
    count = input.bytes.length ∧ ∃ salt k s' final,
      secret.Draws settings entropy s salt k s' ∧
      Writer.Completes (k.sealer settings.layout.nonceMode entropy)
        (k.sealState settings.layout.nonceMode s') settings.layout .perfect
        (input.blocks blockSize) final ∧
      (encryptOnto sink settings secret input entropy s).output = salt ++ final.sink.bytes := by
  obtain ⟨salt, k, s', sink', hdraws, hsalt, hunder⟩ := encrypt_under h
  rw [hunder] at h ⊢
  obtain ⟨hcount, final, hcompletes, houtput⟩ := encryptUnder_ok hflows h
  -- The salt is in the sink before the stream begins.
  obtain ⟨final', hcompletes', hbytes⟩ := hcompletes.behind
  rw [hsalt, hsink, List.nil_append] at hbytes
  exact ⟨hcount, salt, k, s', final', hdraws, hcompletes', houtput.trans hbytes⟩

/-- An input that begins with the salt of a secret is opened behind it, under the key that
the two make. -/
theorem decrypt_behind_salt {sealed : Source} {rest : Bytes} (hmakes : secret.Makes settings salt k)
    (hflows : sealed.Flows) (hbytes : sealed.bytes = salt ++ rest) :
    ∃ input : Source, input.Flows ∧ input.bytes = rest ∧
      decrypt settings secret sealed = decryptUnder k settings.layout input := by
  cases hmakes with
  | key => exact ⟨sealed, hflows, hbytes, rfl⟩
  | password hlength hkey =>
      obtain ⟨input, hgather, hflows', hrest⟩ := Source.gather_append hflows hbytes
      rw [hlength] at hgather
      refine ⟨input, hflows', hrest, ?_⟩
      simp [decrypt, Source.readExact, hgather, hlength, hkey]

/-- A key opens what a completed run of a writer under it has put out, whatever stands
behind it where lengths are written. -/
theorem decryptUnder_of_completes {layout : Layout} {writes : List Bytes}
    {final : Writer (SealState ρ)}
    (h : Writer.Completes (k.sealer layout.nonceMode entropy) (k.sealState layout.nonceMode s)
      layout .perfect writes final)
    (hlimit : layout.lengthPrefix = true → layout.maxChunkSize = 0 ∨
      ∀ text ∈ layout.chunkTexts writes, text.length ≤ layout.maxChunkSize)
    {tail : Bytes} (htail : tail = [] ∨ layout.lengthPrefix = true) {input : Source}
    (hflows : input.Flows) (hbytes : input.bytes = final.sink.bytes ++ tail) :
    decryptUnder k layout input = ⟨writes.flatten, .ok writes.flatten.length⟩ := by
  obtain ⟨S, rfl, hsealer, hcodec, -, rfl, houtput⟩ := Session.of_completes Sink.bytes_perfect h
  have hmatched : Matched S.sealer S.codec (k.opener S.layout.nonceMode)
      (k.openState S.layout.nonceMode) := by
    rw [hsealer, hcodec]
    exact k.matched S.layout.nonceMode entropy s
  have hwithin : S.WithinLimit := by
    intro hframed
    apply (hlimit hframed).imp_right
    intro hshort c hc
    apply hshort
    rw [← S.texts_eq]
    exact List.mem_map_of_mem hc
  have hbehind : tail = [] ∨ S.layout.length? ≠ none := by
    apply htail.imp_right
    intro hframed
    simp [Layout.length?_of_prefix hframed]
  exact decryptUnder_eq (S.start_reader input _ _)
    (S.yields_before hbehind hmatched hwithin hflows (by rw [hbytes, houtput]))

/-- A transfer opens what a transfer with the same settings and the same secret has sealed.
Whenever an input has been sealed, the answer is the number of its bytes, and what has been
put out is the salt that was drawn, if the secret is a password, with the stream of the input
under the key behind it: the reference stream of the blocks in which the input was read or,
where chunks are filled up, of the input in one piece.  Every source that hands this out, in
pieces of any size and with anything behind it if lengths are written, is opened to the input
and to the same answer, as long as no chunk is past the limit. -/
theorem open_inverts_seal {input : Source} {count : Nat} (hflows : input.Flows)
    (hlimit : settings.layout.lengthPrefix = true → settings.layout.maxChunkSize = 0 ∨
      ∀ text ∈ settings.layout.chunkTexts (input.blocks blockSize),
        text.length ≤ settings.layout.maxChunkSize)
    (h : (encrypt settings secret input entropy s).ending = .ok count) :
    count = input.bytes.length ∧ ∃ salt k s' stream,
      secret.Draws settings entropy s salt k s' ∧
      (encrypt settings secret input entropy s).output = salt ++ stream ∧
      settings.layout.stream (k.sealer settings.layout.nonceMode entropy)
        (k.sealState settings.layout.nonceMode s') (input.blocks blockSize) = some stream ∧
      (settings.layout.bufferSize ≠ 0 →
        settings.layout.stream (k.sealer settings.layout.nonceMode entropy)
          (k.sealState settings.layout.nonceMode s') [input.bytes] = some stream) ∧
      ∀ (sealed : Source) (tail : Bytes), sealed.Flows →
        (tail = [] ∨ settings.layout.lengthPrefix = true) →
        sealed.bytes = (encrypt settings secret input entropy s).output ++ tail →
          decrypt settings secret sealed = ⟨input.bytes, .ok count⟩ := by
  obtain ⟨rfl, salt, k, s', final, hdraws, hcompletes, houtput⟩ :=
    encrypt_ok Sink.bytes_perfect hflows h
  have hblocks := Source.flatten_blocks (n := blockSize) (by decide) input
  have hstream := hcompletes.stream_eq Sink.bytes_perfect
  refine ⟨rfl, salt, k, s', final.sink.bytes, hdraws, houtput, hstream, ?_, ?_⟩
  · intro hbuffer
    rw [← hstream]
    apply Layout.stream_congr hbuffer
    rw [hblocks, List.flatten_singleton]
  · intro sealed tail hsealed htail hbytes
    rw [encrypt, houtput, List.append_assoc] at hbytes
    obtain ⟨behind, hflows', hrest, hdecrypt⟩ :=
      decrypt_behind_salt hdraws.makes hsealed hbytes
    rw [hdecrypt, decryptUnder_of_completes hcompletes hlimit htail hflows' hrest, hblocks]

/-- Settings with one chunk for every block and counted nonces. -/
def sampleSettings : Settings :=
  { Settings.standard with layout := Layout.standard.unbuffered.withNonceMode .counter }

/-- An input of three bytes, delivered in two pieces with an interruption between them. -/
def sampleInput : Source :=
  [.data [97, 98], .failure ⟨.interrupted, none⟩, .data [99]]

/-- The sample input is sealed, and opened again with a byte behind what was sealed. -/
theorem sampleInput_opened :
    sampleInput.Flows ∧
      (encrypt sampleSettings (.key .zeroKey) sampleInput Entropy.tape []).ending = .ok 3 ∧
      decrypt sampleSettings (.key .zeroKey) (.ofBytes
        ((encrypt sampleSettings (.key .zeroKey) sampleInput Entropy.tape []).output ++ [7])) =
          ⟨[97, 98, 99], .ok 3⟩ := by
  have hflows : sampleInput.Flows := by
    simp [sampleInput, Source.Flows, Source.Event.Flows, IoError.isInterrupted]
  have hsealed :
      (encrypt sampleSettings (.key .zeroKey) sampleInput Entropy.tape []).ending = .ok 3 := rfl
  have hshort : ∀ text ∈ sampleSettings.layout.chunkTexts (sampleInput.blocks blockSize),
      text.length ≤ sampleSettings.layout.maxChunkSize := by
    decide
  obtain ⟨-, -, -, -, -, -, -, -, -, hopened⟩ :=
    open_inverts_seal hflows (fun _ => .inr hshort) hsealed
  exact ⟨hflows, hsealed,
    hopened _ [7] (Source.flows_ofBytes _) (.inr rfl) (Source.bytes_ofBytes _)⟩

end Transfer

end SealedStream
