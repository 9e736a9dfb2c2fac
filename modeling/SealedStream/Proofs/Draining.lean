import SealedStream.Proofs.Alteration
import SealedStream.Transfer

/-!
# Reading a stream to its end

Whoever wants the whole of a stream reads until an answer is empty or a read fails,
and then closes the reader.  `Reader.drain` allows for one read more than there are
bytes that the stream can bring, provided that every chunk is longer than what comes
out of it.  The openers of a key are of this kind, whatever the bytes they are given.

So opening an input under a key comes to an end.  It puts out what the reader brings,
and it counts as complete exactly if the reader has confirmed the end of the stream.
-/

namespace SealedStream

/-! ## Chunks that open to less than themselves -/

/-- What comes out of a chunk is shorter than the chunk. -/
def Opener.Shortens {τ : Type} (opener : Opener τ) : Prop :=
  ∀ {t t' : τ} {chunk text : Bytes},
    opener.openChunk t chunk = (.ok text, t') → text.length < chunk.length

namespace Aead

/-- What is opened of a text has lost the tag at least. -/
def Untags (a : Aead) : Prop :=
  ∀ {nonce chunk text : Bytes},
    a.openText nonce chunk = some text → text.length + tagSize ≤ chunk.length

theorem untags_ofStream (nonceSize : Nat) (keystream : Bytes → Nat → Bytes)
    (tag : Bytes → Bytes → Bytes) : (ofStream nonceSize keystream tag).Untags := by
  intro nonce chunk text h
  simp only [ofStream, checkAndUnmask] at h
  split at h
  · rename_i hchecked
    obtain rfl := Option.some.inj h
    rw [Bytes.length_xor, List.length_take]
    omega
  · simp at h

theorem untags_chacha20Poly1305 (key : Bytes) : (chacha20Poly1305 key).Untags :=
  untags_ofStream _ _ _

end Aead

theorem Suite.untags_aead (suite : Suite) (key : Bytes) : (suite.aead key).Untags := by
  cases suite with
  | chacha20Poly1305 => exact Aead.untags_chacha20Poly1305 key
  | xchacha20Poly1305 =>
      intro nonce chunk text h
      have hopen : (Aead.extendedNonce key nonce).openText (Aead.shortNonce nonce) chunk =
          some text := h
      exact Aead.untags_chacha20Poly1305 _ hopen
  | aes128Gcm | aes256Gcm => exact Aead.untags_ofStream _ _ _

namespace Chunk

theorem openDrawn_ok {a : Aead} {chunk text : Bytes} (h : openDrawn a chunk = .ok text) :
    a.openText (chunk.drop (chunk.length - a.nonceSize))
      (chunk.take (chunk.length - a.nonceSize)) = some text := by
  unfold openDrawn at h
  split at h
  · simp at h
  · split at h
    · simp at h
    · cases hopen : a.openText (chunk.drop (chunk.length - a.nonceSize))
          (chunk.take (chunk.length - a.nonceSize)) with
      | none => simp [hopen] at h
      | some found => simpa [hopen] using h

end Chunk

/-- The opener of a key takes at least the tag off a chunk, in whichever state it is. -/
theorem Key.opener_shortens (k : Key) (mode : NonceMode) : (k.opener mode).Shortens := by
  intro t t' chunk text h
  have htag : 0 < Aead.tagSize := by decide
  cases t with
  | counted s =>
      cases hopen : (Chunk.countedOpener k.aead).openChunk s chunk with
      | mk answer s' =>
          simp only [opener, hopen, Prod.mk.injEq] at h
          obtain ⟨rfl, -⟩ := h
          obtain ⟨-, htext, -⟩ := Chunk.counted_open_ok hopen
          have hlength := k.suite.untags_aead k.bytes htext
          omega
  | drawn =>
      have hopen : Chunk.openDrawn k.aead chunk = .ok text := (Prod.mk.inj h).1
      have hlength := k.suite.untags_aead k.bytes (Chunk.openDrawn_ok hopen)
      rw [List.length_take] at hlength
      omega

namespace Layout

theorem Carries.length_le {l : Layout} {taken chunk : Bytes} (h : l.Carries taken chunk) :
    chunk.length ≤ taken.length := by
  unfold Carries at h
  cases hlength : l.length? with
  | none =>
      rw [hlength] at h
      exact Nat.le_of_eq (congrArg List.length h.symm)
  | some form =>
      rw [hlength] at h
      obtain ⟨head, rfl, -⟩ := h
      simp

end Layout

namespace Reader

variable {σ : Type} {r r' : Reader σ} {bytes : Bytes} {ending : Except Failure Unit}

/-! ## What a stream can bring -/

/-- The length zero that ends a stream has been taken from the source. -/
theorem nextFrame_terminator (h : r.nextFrame = (.ok .terminator, r')) :
    r'.source.left < r.source.left := by
  unfold nextFrame at h
  cases hlength : r.layout.length? with
  | none =>
      simp only [hlength] at h
      replace h := (fixedFrame_eq_ok.1 h).2
      unfold fillBuffer at h
      cases hgather : r.source.gather r.fullChunk with
      | mk answer source =>
          cases answer with
          | error e => simp [hgather] at h
          | ok bs =>
              simp only [hgather, Prod.mk.injEq, Except.ok.injEq] at h
              have hkind := h.1
              split at hkind
              · simp at hkind
              · split at hkind <;> simp at hkind
  | some form =>
      simp only [hlength, lengthFrame] at h
      cases hread : form.fromSource r.source with
      | mk answer source =>
          cases answer with
          | error f => simp [hread] at h
          | ok found =>
              cases found with
              | none => simp [hread] at h
              | some declared =>
                  have hleft := IntForm.fromSource_left hread
                  simp only [hread] at h
                  split at h
                  · obtain rfl := (Prod.mk.inj h).2
                    exact hleft
                  · split at h
                    · simp at h
                    · obtain ⟨_, bs, hchunk, -⟩ := chunkOfLength_ok h
                      simp at hchunk

/-- The step: a pull takes more from the source than it adds to the payload at hand. -/
theorem pull_shrinks (hl : r.layout.check = .ok ()) (hopener : r.opener.Shortens)
    (hpending : r.pending = []) (h : r.pull = (.ok (), r')) :
    r'.pending.length + r'.source.left < r.source.left := by
  unfold pull at h
  cases hframe : r.nextFrame with
  | mk answer r₁ =>
      cases answer with
      | error f => simp [hframe] at h
      | ok frame =>
          -- A chunk that is opened has been given up by the source, and is longer than
          -- its text.
          have hopened {chunk : Bytes} {r₂ : Reader σ}
              (hkind : frame = .chunk chunk ∨ frame = .lastChunk chunk)
              (haccept : r₁.acceptChunk chunk = (.ok (), r₂)) :
              r₂.pending.length + r₂.source.left < r.source.left := by
            obtain ⟨taken, hcarries, hbytes⟩ := nextFrame_carries hframe hkind
            obtain ⟨source, rfl, -⟩ := nextFrame_ok hl hframe
            obtain ⟨text, codec, hopen, hkept⟩ := acceptChunk_ok haccept
            have hlonger := hopener hopen
            have htaken := hcarries.length_le
            have hleft := congrArg List.length hbytes
            rw [List.length_append, Source.length_bytes, Source.length_bytes] at hleft
            dsimp only at hleft hkept
            split at hkept
            · subst hkept
              dsimp only
              omega
            · obtain ⟨found, used, -, ⟨-, -, rfl⟩ | ⟨-, -, rfl⟩⟩ := hkept
              · simp only [hpending, List.length_nil]
                omega
              · simp only [List.length_drop]
                omega
          cases frame with
          | endOfInput => simp [hframe] at h
          | terminator =>
              have hleft := nextFrame_terminator hframe
              obtain ⟨source, rfl, -⟩ := nextFrame_ok hl hframe
              simp only [hframe, Prod.mk.injEq, true_and] at h
              subst h
              simpa [terminate, hpending] using hleft
          | chunk bs =>
              simp only [hframe] at h
              exact hopened (.inl rfl) h
          | lastChunk bs =>
              simp only [hframe] at h
              split at h
              · rename_i r₂ haccept
                obtain rfl := (Prod.mk.inj h).2
                have hfewer := hopened (.inr rfl) haccept
                simpa [terminate] using hfewer
              · simp at h

/-- The run: a reader brings no more than the payload at hand and the bytes of its
source, and less if it still has to come to the end of its stream. -/
theorem Yields.length_le (hl : r.layout.check = .ok ()) (hopener : r.opener.Shortens)
    (h : Yields r bytes ending) :
    bytes.length ≤ r.pending.length + r.source.left ∧
      (r.phase = .reading → ending = .ok () →
        bytes.length < r.pending.length + r.source.left) := by
  induction h with
  | terminated hphase => exact ⟨Nat.le_add_right _ _, by simp [hphase]⟩
  | closed hphase => exact ⟨Nat.zero_le _, by simp [hphase]⟩
  | failed hphase => exact ⟨Nat.zero_le _, by simp [hphase]⟩
  | cut => exact ⟨Nat.le_add_right _ _, by simp⟩
  | @more r r₁ bytes ending hphase hpull hnext hrest ih =>
      have hshrinks := pull_shrinks (r := { r with pending := [] }) hl hopener rfl hpull
      obtain ⟨hlayout, hsame, -⟩ :=
        (pull_ok (r := { r with pending := [] }) hl hpull).progress hphase
      obtain ⟨hle, -⟩ := ih (by rw [hlayout]; exact hl) (by rw [hsame]; exact hopener)
      rw [List.length_append]
      dsimp only at hshrinks
      exact ⟨by omega, fun _ _ => by omega⟩

/-- A source without bytes has no end of a stream in it. -/
theorem Yields.failure_of_empty (hl : r.layout.check = .ok ()) (hopener : r.opener.Shortens)
    (h : Yields r bytes ending) (hphase : r.phase = .reading) (hpending : r.pending = [])
    (hempty : r.source.bytes = []) : bytes = [] ∧ ∃ f, ending = .error f := by
  obtain ⟨hle, hlt⟩ := h.length_le hl hopener
  rw [← Source.length_bytes, hempty, hpending] at hle hlt
  refine ⟨List.eq_nil_of_length_eq_zero (Nat.le_zero.1 hle), ?_⟩
  cases ending with
  | error f => exact ⟨f, rfl⟩
  | ok u => exact (Nat.not_lt_zero _ (hlt hphase rfl)).elim

/-! ## Reading everything -/

/-- More reads than there are bytes bring everything and then the ending, which the
reader confirms when it is closed.  The induction is on the reads. -/
theorem Yields.drainWithin (h : Yields r bytes ending) {n k : Nat} (hn : 0 < n)
    (hk : bytes.length < k) (pieces : List Bytes) :
    ∃ pieces' r', r.drainWithin n k pieces = (⟨pieces', some ending⟩, r') ∧
      pieces'.reverse.flatten = pieces.reverse.flatten ++ bytes ∧ r'.close.1 = ending := by
  induction k generalizing r bytes pieces with
  | zero => simp at hk
  | succ k ih =>
      obtain ⟨hrest, -, hanswer, hclose⟩ := h.read n
      have hread : r.read n = ((r.read n).1, (r.read n).2) := rfl
      rw [hanswer hn] at hread
      unfold Reader.drainWithin
      rw [hread]
      by_cases hbytes : bytes = []
      · subst hbytes
        refine ⟨pieces, (r.read n).2, ?_, (List.append_nil _).symm, hclose hn⟩
        cases ending <;> rfl
      · have hfront : bytes.take n ≠ [] := by simp [hbytes, hn.ne']
        have hfewer : (bytes.drop n).length < k := by
          have := List.length_pos_iff.2 hbytes
          rw [List.length_drop]
          omega
        obtain ⟨pieces', r', hdrain, hall, hend⟩ := ih hrest hfewer (bytes.take n :: pieces)
        refine ⟨pieces', r', ?_, ?_, hend⟩
        · simpa [hbytes, hfront] using hdrain
        · rw [hall, List.reverse_cons, List.flatten_append, List.flatten_singleton,
            List.append_assoc, List.take_append_drop]

theorem Yields.drain (hl : r.layout.check = .ok ()) (hopener : r.opener.Shortens)
    (h : Yields r bytes ending) {n : Nat} (hn : 0 < n) :
    ∃ drained r', r.drain n = (drained, r') ∧ drained.bytes = bytes ∧
      drained.ending = some ending ∧ r'.close.1 = ending := by
  obtain ⟨hle, -⟩ := h.length_le hl hopener
  obtain ⟨pieces, r', hdrain, hall, hclose⟩ :=
    h.drainWithin hn (k := r.readsLeft) (by unfold readsLeft; omega) []
  exact ⟨_, r', hdrain, hall, rfl, hclose⟩

end Reader

/-! ## Opening an input under a key -/

namespace Transfer

/-- How a transfer ends that has opened so many bytes and then come to this ending. -/
def verdict (count : Nat) : Except Failure Unit → Except Problem Nat
  | .ok () => .ok count
  | .error failure => .error (.notDecrypted failure)

variable {key : Key} {layout : Layout} {input : Source} {r : Reader OpenState} {bytes : Bytes}
  {ending : Except Failure Unit}

/-- Opening an input puts out what a reader on it yields, and ends as the stream does. -/
theorem decryptUnder_eq (hstart : Reader.underKey input key layout = .ok r)
    (h : r.Yields bytes ending) :
    decryptUnder key layout input = ⟨bytes, verdict bytes.length ending⟩ := by
  obtain ⟨hl, rfl⟩ := Reader.start_ok hstart
  obtain ⟨drained, r', hdrain, hbytes, hending, hclose⟩ :=
    h.drain hl (key.opener_shortens layout.nonceMode) (n := blockSize) (by decide)
  unfold decryptUnder
  simp only [hstart, hdrain, hbytes, hending]
  cases ending with
  | error failure => rfl
  | ok u =>
      cases hshut : r'.close with
      | mk answer r'' =>
          rw [hshut] at hclose
          obtain rfl : answer = .ok () := hclose
          rfl

end Transfer

end SealedStream
