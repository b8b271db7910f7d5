import Krypto.Aead.Reseal

/-! What a byte string is as a blob, told from its bytes alone, and that every function that
reads a header agrees. -/

namespace Krypto.Aead
open Effect

inductive Verdict where
  | notBlob
  | changed
  | header (alg : Alg) (id : Bytes)
  deriving DecidableEq

def verdict (b : Bytes) : Verdict :=
  if b.length < 54 ∨ ¬[0x46, 0x41, 0x46, 0x4e] <+: b then .notBlob
  else if b.getD 4 0 ≠ 1 then .changed
  else if b.getD 5 0 = 1 then .header .aegis256 ((b.drop 6).take 16)
  else if b.getD 5 0 = 2 then .header .xchacha20Poly1305 ((b.drop 6).take 16)
  else if b.getD 5 0 = 3 then .header .aes256Gcm ((b.drop 6).take 16)
  else .changed

/-- `r` is the answer of a reader of headers: not a blob is `Format`, and nothing else is; a
changed header is `Auth`. -/
def Reads {α : Type} (b : Bytes) (r : Outcome Error α) : Prop :=
  ((∃ m, r = .err (.format m)) ↔ verdict b = .notBlob) ∧ (verdict b = .changed → r = .err .auth)

variable {b : Bytes}

theorem verdict_eq_notBlob : verdict b = .notBlob ↔ ¬IsBlob b := by
  have hor : (b.length < 54 ∨ ¬[0x46, 0x41, 0x46, 0x4e] <+: b) ↔ ¬IsBlob b := by
    rw [IsBlob, not_and_or, Nat.not_le]
    rfl
  rw [verdict, ← hor]
  split_ifs with h1 h2 <;> simp [h1]

theorem readHeader_verdict (h : IsBlob b) :
    readHeader b = match verdict b with
      | .header alg _ => .ok (alg, b.take HEADER_LEN, b.drop HEADER_LEN)
      | _ => .err .auth := by
  have h4 : 4 < b.length := Nat.lt_of_lt_of_le (by decide) h.1
  have h5 : 5 < b.length := Nat.lt_of_lt_of_le (by decide) h.1
  have hblob : ¬(b.length < 54 ∨ ¬[0x46, 0x41, 0x46, 0x4e] <+: b) :=
    not_or.mpr ⟨Nat.not_lt.mpr h.1, not_not.mpr h.2⟩
  have hver : b.get ⟨4, h4⟩ = b.getD 4 0 := by simp [h4]
  have halg : b.get ⟨5, h5⟩ = b.getD 5 0 := by simp [h5]
  have hone : FORMAT_VER = 1 := rfl
  rw [readHeader_of_isBlob h, verdict, if_neg hblob, hver, halg, hone, Alg.fromId]
  by_cases hv : b.getD 4 0 = 1
  · rw [if_neg (not_not.mpr hv), if_neg (not_not.mpr hv)]
    split_ifs <;> rfl
  · rw [if_pos hv, if_pos hv]

theorem isBlob_of_verdict (h : verdict b ≠ .notBlob) : IsBlob b :=
  not_not.mp (mt verdict_eq_notBlob.mpr h)

theorem readHeader_changed (h : verdict b = .changed) : readHeader b = .err .auth := by
  have hb : IsBlob b := isBlob_of_verdict (by rw [h]; exact Verdict.noConfusion)
  rw [readHeader_verdict hb, h]

theorem verdict_header {alg : Alg} {id : Bytes} (h : verdict b = .header alg id) :
    readHeader b = .ok (alg, b.take HEADER_LEN, b.drop HEADER_LEN) := by
  have hb : IsBlob b := isBlob_of_verdict (by rw [h]; exact Verdict.noConfusion)
  rw [readHeader_verdict hb, h]

theorem blobKeyId_verdict {alg : Alg} {id : Bytes} (h : verdict b = .header alg id) :
    blobKeyId b = .ok id := by
  have hid : id = (b.drop 6).take 16 := by
    unfold verdict at h
    split_ifs at h <;> cases h <;> rfl
  have hfield : ((b.take HEADER_LEN).drop 6).take 16 = (b.drop 6).take 16 := by
    rw [List.drop_take, List.take_take]
    rfl
  rw [blobKeyId_of_readHeader (verdict_header h), hid, hfield]

/-! ## The readers -/

theorem Reads.of_cases {α : Type} {r : Outcome Error α}
    (hnot : ¬IsBlob b → ∃ m, r = .err (.format m)) (hauth : readHeader b = .err .auth → r = .err .auth)
    (hok : ∀ alg, readHeader b = .ok (alg, b.take HEADER_LEN, b.drop HEADER_LEN) →
      ∀ m, r ≠ .err (.format m)) : Reads b r := by
  refine ⟨⟨fun ⟨m, hm⟩ => ?_, fun h => hnot (verdict_eq_notBlob.mp h)⟩, fun h =>
    hauth (readHeader_changed h)⟩
  rw [verdict_eq_notBlob]
  intro hb
  rcases readHeader_cases hb with he | ⟨alg, he⟩
  · rw [hauth he] at hm
    cases hm
  · exact hok alg he m hm

theorem blobKeyId_reads (b : Bytes) : Reads b (blobKeyId b) := by
  apply Reads.of_cases
  · exact blobKeyId_of_not_isBlob
  · intro h
    rw [blobKeyId, h, Outcome.err_bind]
  · intro alg h m hm
    rw [blobKeyId_of_readHeader h] at hm
    cases hm

theorem openBody_reads (P : Primitives) (key : DerivedKey) (b : Bytes) :
    Reads b (openBody P key b) := by
  apply Reads.of_cases
  · exact openBody_of_not_isBlob P key
  · intro h
    rw [openBody, h, Outcome.err_bind]
  · intro alg h m hm
    rcases openBody_of_isBlob P key (isBlob_of_readHeader h) with he | ⟨pt, he⟩
    · rw [he] at hm
      cases hm
    · rw [he] at hm
      cases hm

/-- Over a nonce of the right length, sealing fails only where the cipher does. -/
theorem sealWith_ne_format (P : Primitives) {alg : Alg} {key : DerivedKey} {keyId : Fixed 16}
    {nonce pt : Bytes} (hn : nonce.length = alg.nonceLen) (m : Message) :
    sealWith P nonce key keyId pt alg ≠ .err (.format m) := by
  have hcipher (o : Option Bytes) (header : Bytes) :
      (Outcome.ofOption (.hardening "AEAD encryption failed") o >>= fun ct =>
        (.ok (header ++ ct) : Outcome Error Bytes)) ≠ .err (.format m) := by
    cases o with
    | none => simp
    | some ct => simp
  simp only [sealWith, DerivedKey.withKey_eq]
  cases alg with
  | aegis256 =>
    rw [primitiveSeal_aegis256 P _ _ hn]
    simp
  | xchacha20Poly1305 =>
    rw [primitiveSeal_xchacha P _ _ hn]
    exact hcipher _ _
  | aes256Gcm =>
    rw [primitiveSeal_aesGcm P _ _ hn]
    exact hcipher _ _

section Runs
variable {ν ι : Type} [DecidableEq ν] [DecidableEq ι] {me : ι} {P : Primitives}
  {key old new : DerivedKey} {newKeyId : Fixed 16}

def EndsIn {α : Type} (me : ι) (p : Action ν α) (Q : Outcome Error α → Prop) : Prop :=
  ∀ s : Process ν ι, (∃ r s', Ends (kernel ν me) locksPages p s r s') ∧
    ∀ r s', Ends (kernel ν me) locksPages p s r s' → Q r

theorem openBlob_reads : EndsIn (ν := ν) me (openBlob P key b) (Reads b) := by
  refine fun s => ⟨exists_ends locksPages_total _ s, fun r s' h => ?_⟩
  rw [openBlob_ends P h]
  exact openBody_reads P key b

theorem reseal_reads : EndsIn (ν := ν) me (reseal P old new newKeyId b) (Reads b) := by
  refine fun s => ⟨exists_ends locksPages_total _ s, fun r s' h => ?_⟩
  obtain ⟨ro, t, hopen, ⟨e, rfl, rfl⟩ | ⟨pt, alg, -, -, hread, -, hseal⟩⟩ := ends_reseal h
  · obtain ⟨hformat, hauth⟩ := (openBlob_reads s).2 _ _ hopen
    refine ⟨by simpa using hformat, fun hc => ?_⟩
    have he := hauth hc
    rw [Outcome.err.injEq] at he
    rw [he]
  · -- past the header nothing that `seal` does ends in `Format`
    apply Reads.of_cases
    · exact fun hb => absurd (isBlob_of_readHeader hread) hb
    · intro he
      rw [hread] at he
      cases he
    · intro _ _ m hm
      rcases sealBlob_cases P hseal with ⟨nonce, rfl⟩ | ⟨e, rfl, -⟩
      · exact sealWith_ne_format P nonce.length_eq m hm
      · cases hm

end Runs
end Krypto.Aead
