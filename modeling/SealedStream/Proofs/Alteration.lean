import SealedStream.Proofs.AnySource
import SealedStream.Proofs.Spelling

/-!
# Changed bytes

The length in front of a chunk is not sealed, and a varint can be spelled in more
than one way, so a changed byte may leave a length readable and even leave it as
it was.  It is noticed all the same where the end of the stream is sealed: a
reader whose opener is bound to positions reports the end only after it has taken
every chunk of the session, each behind some spelling of its length.  The session
has used the shortest spellings.  A source of no more bytes therefore holds them
too, and is the output of the session.
-/

namespace SealedStream

namespace Layout

/-- Bytes that stand for a chunk on the wire: the chunk behind some spelling of
its length, or the chunk alone where no lengths are written. -/
def Carries (l : Layout) (taken chunk : Bytes) : Prop :=
  match l.length? with
  | none => taken = chunk
  | some form => ∃ head, taken = head ++ chunk ∧ form.Spells head chunk.length

/-- The frame of a chunk is the shortest way to carry it, and the only one that
short. -/
theorem Carries.canonical {l : Layout} {taken chunk : Bytes} (h : l.Carries taken chunk) :
    (l.frame chunk).length ≤ taken.length ∧
      (taken.length ≤ (l.frame chunk).length → taken = l.frame chunk) := by
  unfold Carries at h
  unfold frame
  cases hlength : l.length? with
  | none =>
      rw [hlength] at h
      subst h
      exact ⟨le_rfl, fun _ => rfl⟩
  | some form =>
      rw [hlength] at h
      obtain ⟨head, rfl, hspells⟩ := h
      obtain ⟨hle, heq⟩ := hspells.canonical
      simp only [List.length_append]
      exact ⟨by omega, fun hle' => by rw [heq (by omega)]⟩

end Layout

namespace Reader

variable {σ : Type} {r r' : Reader σ}

/-! ## What a pull takes off the source -/

/-- The chunk of a frame was carried by the bytes that the source has given up. -/
theorem nextFrame_carries {frame : Frame} {chunk : Bytes}
    (h : r.nextFrame = (.ok frame, r')) (hframe : frame = .chunk chunk ∨ frame = .lastChunk chunk) :
    ∃ taken : Bytes, r.layout.Carries taken chunk ∧
      r.source.bytes = taken ++ r'.source.bytes := by
  unfold nextFrame at h
  unfold Layout.Carries
  cases hlength : r.layout.length? with
  | none =>
      simp only [hlength] at h
      replace h := (fixedFrame_eq_ok.1 h).2
      unfold fillBuffer at h
      cases hgather : r.source.gather r.fullChunk with
      | mk answer source =>
          cases answer with
          | error e => simp [hgather] at h
          | ok bs =>
              simp only [hgather, Prod.mk.injEq, Except.ok.injEq] at h
              obtain ⟨hkind, rfl⟩ := h
              have hbytes := Source.bytes_of_gather hgather
              have hchunk : bs = chunk := by
                split at hkind
                · simpa [← hkind] using hframe
                · split at hkind
                  · simp [← hkind] at hframe
                  · simpa [← hkind] using hframe
              subst hchunk
              exact ⟨bs, rfl, hbytes⟩
  | some form =>
      simp only [hlength, lengthFrame] at h
      cases hread : form.fromSource r.source with
      | mk answer source =>
          cases answer with
          | error f => simp [hread] at h
          | ok found =>
              cases found with
              | none =>
                  simp only [hread, Prod.mk.injEq, Except.ok.injEq] at h
                  simp [← h.1] at hframe
              | some declared =>
                  obtain ⟨head, hhead, hspells⟩ := IntForm.spells_of_fromSource hread
                  simp only [hread] at h
                  split at h
                  · simp only [Prod.mk.injEq, Except.ok.injEq] at h
                    simp [← h.1] at hframe
                  · split at h
                    · simp at h
                    · obtain ⟨source', bs, rfl, rfl, rfl, hrest, -⟩ := chunkOfLength_ok h
                      obtain rfl : bs = chunk := by simpa using hframe
                      refine ⟨head ++ bs, ⟨head, rfl, hspells⟩, ?_⟩
                      rw [hhead, List.append_assoc]
                      exact congrArg (head ++ ·) hrest

/-- What has to be known of a chunk that ends a stream: it is the sealed number
zero, or it is shorter than a full one. -/
def Ends (r : Reader σ) (c : Sealing) : Prop :=
  (∃ number, r.layout.counter? = some number ∧
      number.decode c.text = .ok (0, c.text.length)) ∨
    r.layout.length? = none ∧ c.chunk.length < r.fullChunk

/-- Where the end of the stream is sealed, every pull opens a chunk that the
source has given up, and only certain chunks end the stream. -/
theorem pull_opens (hl : r.layout.check = .ok ())
    (hsealed : r.layout.length? ≠ none → r.layout.counter? ≠ none)
    (hphase : r.phase = .reading) (h : r.pull = (.ok (), r')) :
    ∃ (taken : Bytes) (c : Sealing), r.layout.Carries taken c.chunk ∧
      r.source.bytes = taken ++ r'.source.bytes ∧
      r.opener.openChunk r.codec c.chunk = (.ok c.text, r'.codec) ∧
      r'.layout = r.layout ∧ r'.opener = r.opener ∧
      (r'.phase = .terminated → r.Ends c) := by
  unfold pull at h
  cases hframe : r.nextFrame with
  | mk answer r₁ =>
      cases answer with
      | error f => simp [hframe] at h
      | ok frame =>
          have hcarries (chunk : Bytes) (hkind : frame = .chunk chunk ∨ frame = .lastChunk chunk) :=
            nextFrame_carries hframe hkind
          obtain ⟨source, rfl, hfacts⟩ := nextFrame_ok hl hframe
          cases frame with
          | endOfInput => simp [hframe] at h
          | terminator => exact (hsealed hfacts.1 hfacts.2).elim
          | chunk bs =>
              obtain ⟨taken, htaken, hbytes⟩ := hcarries bs (.inl rfl)
              simp only [hframe] at h
              obtain ⟨text, codec, hopen, hkept⟩ := acceptChunk_ok h
              dsimp only at hopen hkept hbytes
              cases hcounter : r.layout.counter? with
              | none =>
                  rw [hcounter] at hkept
                  subst hkept
                  refine ⟨taken, ⟨text, bs⟩, htaken, hbytes, hopen, rfl, rfl, fun hend => ?_⟩
                  simp [hphase] at hend
              | some number =>
                  rw [hcounter] at hkept
                  obtain ⟨found, used, hdecode, ⟨rfl, rfl, rfl⟩ | ⟨-, -, rfl⟩⟩ := hkept
                  · exact ⟨taken, ⟨text, bs⟩, htaken, hbytes, hopen, rfl, rfl,
                      fun _ => .inl ⟨number, hcounter, hdecode⟩⟩
                  · refine ⟨taken, ⟨text, bs⟩, htaken, hbytes, hopen, rfl, rfl, fun hend => ?_⟩
                    simp [hphase] at hend
          | lastChunk bs =>
              obtain ⟨taken, htaken, hbytes⟩ := hcarries bs (.inr rfl)
              have hcounter := Layout.counter_eq_none hl hfacts.1
              simp only [hframe] at h
              split at h
              · rename_i r₂ haccept
                obtain rfl := (Prod.mk.inj h).2
                obtain ⟨text, codec, hopen, hkept⟩ := acceptChunk_ok haccept
                dsimp only at hopen hkept hbytes
                rw [hcounter] at hkept
                subst hkept
                exact ⟨taken, ⟨text, bs⟩, htaken, hbytes, hopen, rfl, rfl,
                  fun _ => .inr hfacts⟩
              · simp at h

end Reader

namespace Session

variable {σ τ : Type} {S : Session σ}

/-- A chunk of a session that ends a stream is the last one. -/
theorem length_le_of_ends {r : Reader τ} (hlayout : r.layout = S.layout)
    (hsize : S.layout.lengthPrefix = false →
      ∀ c ∈ S.record, c.chunk.length = c.text.length + r.opener.overhead)
    {k : Nat} {c : Sealing} (hk : S.record[k]? = some c) (hends : r.Ends c) :
    S.record.length ≤ k + 1 := by
  rcases hends with ⟨number, hcounter, hdecode⟩ | ⟨hlength, hshort⟩
  · rw [hlayout] at hcounter
    cases hlength : S.layout.length? with
    | none =>
        rw [Layout.counter_eq_none S.sound hlength] at hcounter
        simp at hcounter
    | some form =>
        obtain ⟨payloads, data, last, h⟩ := S.counted hlength hcounter
        have hend := h.decode_end hk hdecode
        have hcount : data.length = payloads.length := by
          rw [← S.layout.length_numbered 1 payloads, ← h.texts, List.length_map]
        rw [h.record_eq, List.length_append, List.length_singleton]
        omega
  · rw [hlayout] at hlength
    obtain ⟨data, last, h⟩ := S.fixedSize hlength
    have hchunk := hsize (by simpa [Layout.length?] using hlength) c (List.mem_of_getElem? hk)
    refine h.last_of_short hk ?_
    simp only [Reader.fullChunk, hlayout] at hshort
    omega

theorem HasSealedEnd.counter_ne_none (h : S.HasSealedEnd) (hlength : S.layout.length? ≠ none) :
    S.layout.counter? ≠ none := by
  rcases h with hon | hoff
  · simp [Layout.counter?, hon]
  · simp [Layout.length?, hoff] at hlength

/-- With a sealed end nothing but frames stands in the output. -/
theorem HasSealedEnd.output_eq (h : S.HasSealedEnd) :
    S.output = S.layout.frames S.record := by
  cases hlength : S.layout.length? with
  | none =>
      obtain ⟨data, last, hfixed⟩ := S.fixedSize hlength
      exact hfixed.output_eq
  | some form =>
      obtain ⟨number, hcounter⟩ := Option.ne_none_iff_exists'.1
        (h.counter_ne_none (by simp [hlength]))
      obtain ⟨payloads, data, last, hcounted⟩ := S.counted hlength hcounter
      exact hcounted.output_eq

/-- A reader that waits for chunk `k` and comes to a good end has taken the
frames of all the chunks from there on, or more bytes than they have.  The
induction is on what is yielded: each pull opens the chunk that is due, and the
bytes that carried it are its frame unless they are longer. -/
theorem bytes_of_yields_ok (hend : S.HasSealedEnd) {r : Reader τ} {bytes : Bytes}
    {ending : Except Failure Unit} {t : τ} (hyields : r.Yields bytes ending)
    (hok : ending = .ok ()) (hlayout : r.layout = S.layout)
    (hopener : r.opener.BoundTo t S.record)
    (hsize : S.layout.lengthPrefix = false →
      ∀ c ∈ S.record, c.chunk.length = c.text.length + r.opener.overhead)
    (hreading : r.phase = .reading) {k : Nat} (hafter : r.opener.After t k r.codec)
    (hle : r.source.bytes.length ≤ (S.layout.frames (S.record.drop k)).length) :
    r.source.bytes = S.layout.frames (S.record.drop k) := by
  induction hyields generalizing k with
  | terminated hphase => simp [hphase] at hreading
  | closed hphase => simp [hphase] at hreading
  | failed hphase => simp [hphase] at hreading
  | cut => simp at hok
  | @more r r' bytes ending hphase hpull hnext hrest ih =>
      obtain ⟨taken, c, hcarries, hbytes, hopen, hlayout', hopener', hends⟩ :=
        Reader.pull_opens (r := { r with pending := [] }) (by rw [hlayout]; exact S.sound)
          (by rw [hlayout]; exact hend.counter_ne_none) hphase hpull
      dsimp only at hcarries hbytes hopen hlayout' hopener'
      have hk : S.record[k]? = some c := hopener _ _ _ _ _ hafter hopen
      obtain ⟨hlt, hget⟩ := List.getElem?_eq_some_iff.1 hk
      have hdrop : S.layout.frames (S.record.drop k) =
          S.layout.frame c.chunk ++ S.layout.frames (S.record.drop (k + 1)) := by
        rw [List.drop_eq_getElem_cons hlt, hget, Layout.frames_cons]
      rw [hlayout] at hcarries
      obtain ⟨hlonger, hsame⟩ := hcarries.canonical
      rw [hbytes, hdrop, List.length_append, List.length_append] at hle
      -- The frame is the shortest carrier, so the rest has no more bytes than it should.
      have hrest' : r'.source.bytes = S.layout.frames (S.record.drop (k + 1)) := by
        rcases hnext with hdone | ⟨hgoes, -⟩
        · have hlast := length_le_of_ends (r := { r with pending := [] }) hlayout hsize hk
            (hends hdone)
          rw [List.drop_eq_nil_of_le hlast, Layout.frames_nil, List.length_nil] at hle
          rw [List.drop_eq_nil_of_le hlast, Layout.frames_nil]
          exact List.eq_nil_of_length_eq_zero (by omega)
        · exact ih hok (hlayout'.trans hlayout) (hopener' ▸ hopener) (hopener' ▸ hsize) hgoes
            (hopener' ▸ .opened hafter hopen) (by omega)
      rw [hbytes, hdrop, hrest', hsame (by rw [hrest'] at hle; omega)]

/-- With a sealed end and an opener that is bound to positions, a source that
holds anything else than the output of the session, and no more bytes than that,
makes the reading fail. -/
theorem fails_on_altered (hend : S.HasSealedEnd) {opener : Opener τ} {t : τ}
    (hopener : opener.BoundTo t S.record)
    (hsize : S.layout.lengthPrefix = false →
      ∀ c ∈ S.record, c.chunk.length = c.text.length + opener.overhead)
    {source : Source} (hle : source.bytes.length ≤ S.output.length)
    (hne : source.bytes ≠ S.output) :
    ∃ bytes failure, (S.reader source opener t).Brings bytes (.error failure) ∧
      bytes <+: S.plaintext := by
  obtain ⟨bytes, ending, hyields⟩ :=
    Reader.exists_yields (S.reader source opener t) S.sound
  obtain ⟨hpart, -⟩ := yields_whole hend hopener hsize hyields
  cases ending with
  | error failure => exact ⟨bytes, failure, hyields.brings, hpart⟩
  | ok u =>
      rw [hend.output_eq] at hle hne
      exact (hne (bytes_of_yields_ok hend hyields rfl rfl hopener hsize rfl (k := 0) .start
        hle)).elim

/-- One byte of the output is changed, anywhere.  If the end of the stream is
sealed and the opener is bound to the positions of the chunks, reading fails,
however the source hands out its bytes; what was delivered before is a beginning
of what was written. -/
theorem changed_byte_noticed (S : Session σ) (hend : S.HasSealedEnd) {opener : Opener τ}
    {t : τ} (hopener : opener.BoundTo t S.record)
    (hsize : S.layout.lengthPrefix = false →
      ∀ c ∈ S.record, c.chunk.length = c.text.length + opener.overhead)
    {i : Nat} (hi : i < S.output.length) {b : UInt8} (hb : S.output[i] ≠ b)
    {source : Source} (hbytes : source.bytes = S.output.set i b) :
    ∃ r, Reader.start source opener t S.layout = .ok r ∧
      ∃ bytes failure, r.Brings bytes (.error failure) ∧ bytes <+: S.plaintext := by
  have hle : source.bytes.length ≤ S.output.length := by
    rw [hbytes, List.length_set]
  have hne : source.bytes ≠ S.output := by
    intro hsame
    apply hb
    have hget : (S.output.set i b)[i]? = S.output[i]? := by rw [← hbytes, hsame]
    rw [List.getElem?_set_self hi, List.getElem?_eq_getElem hi] at hget
    exact (Option.some.inj hget).symm
  exact ⟨_, S.start_reader source opener t, fails_on_altered hend hopener hsize hle hne⟩

/-- In the sample session the length of the last chunk gets its top bit set.  With
the zero behind it, it is still read as two. -/
theorem sample_changed_byte :
    sample.HasSealedEnd ∧
      (Opener.inOrder sample.record 1).BoundTo 0 sample.record ∧
      sample.output[8]? = some 2 ∧ IntForm.varint.Spells [130, 0] 2 ∧
      ∃ r, Reader.start (.ofBytes [3, 1, 97, 255, 3, 2, 98, 255, 130, 0, 255])
          (Opener.inOrder sample.record 1) 0 sample.layout = .ok r ∧
        ∃ bytes failure, r.Brings bytes (.error failure) ∧ bytes <+: [97, 98] := by
  have hbound := Opener.inOrder_boundTo sample.record 1
  refine ⟨.inl rfl, hbound, rfl, rfl, ?_⟩
  exact sample.changed_byte_noticed (.inl rfl) hbound (by decide) (i := 8) (b := 130)
    (by decide) (by decide) (Source.bytes_ofBytes _)

end Session

end SealedStream
