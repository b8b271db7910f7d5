import Krypto.Aead.Authentic

/-! The lengths of blobs that `seal` makes with AEGIS-256. -/

namespace Krypto.Aead
open Effect

variable {P : Primitives}

structure AegisLengths (P : Primitives) : Prop where
  encrypt : ∀ key nonce msg ad, (P.aegis256Encrypt key nonce msg ad).1.length = msg.length
  decrypt : ∀ key nonce ct tag ad pt,
    P.aegis256Decrypt key nonce ct tag ad = some pt → pt.length = ct.length

def AegisSealed (P : Primitives) (blob : Bytes) : Prop :=
  ∃ key keyId, ∃ nonce : Fixed 32, ∃ pt, sealWith P nonce.toList key keyId pt .aegis256 = .ok blob

theorem primitiveSeal_length (hP : AegisLengths P) {key : Fixed 32} {nonce pt aad body : Bytes}
    (hn : nonce.length = 32) (h : primitiveSeal P .aegis256 key nonce pt aad = .ok body) :
    body.length = pt.length + 32 := by
  rw [primitiveSeal_aegis256 P key aad hn, Outcome.ok.injEq] at h
  rw [← h, List.length_append, hP.encrypt, Fixed.length_eq]

theorem primitiveOpen_length (hP : AegisLengths P) {key : Fixed 32} {nonce pt aad body : Bytes}
    (hn : nonce.length = 32) (h : primitiveOpen P .aegis256 key nonce body aad = .ok pt) :
    body.length = pt.length + 32 := by
  by_cases hlt : body.length < 32
  · rw [primitiveOpen_short P key aad hlt] at h
    cases h
  · obtain ⟨ct, tag, rfl, hopen⟩ := primitiveOpen_aegis256 P key aad hn hlt
    rw [hopen, Outcome.ofOption_eq_ok] at h
    rw [List.length_append, hP.decrypt _ _ _ _ _ _ h, Fixed.length_eq]

theorem sealWith_length (hP : AegisLengths P) {nonce : Fixed 32} {key : DerivedKey}
    {keyId : Fixed 16} {pt blob : Bytes}
    (h : sealWith P nonce.toList key keyId pt .aegis256 = .ok blob) :
    blob.length = HEADER_LEN + pt.length + 32 := by
  obtain ⟨ct, hct, rfl⟩ := (sealWith_eq_ok P).mp h
  have hlen := primitiveSeal_length hP nonce.length_eq hct
  rw [List.length_append, headerBytes_length .aegis256 keyId (Nat.le_of_eq nonce.length_eq), hlen]
  rfl

/-- Whatever key opens a sealed blob, the plaintext has the length of the one sealed. -/
theorem AegisSealed.openBody_length (hP : AegisLengths P) {blob pt : Bytes}
    (hs : AegisSealed P blob) {key : DerivedKey} (h : openBody P key blob = .ok pt) :
    blob.length = HEADER_LEN + pt.length + 32 := by
  obtain ⟨key', keyId, nonce, pt', hseal⟩ := hs
  obtain ⟨ct, -, rfl⟩ := (sealWith_eq_ok P).mp hseal
  have hle : nonce.toList.length ≤ NONCE_FIELD := Nat.le_of_eq nonce.length_eq
  have hheader := readHeader_headerBytes .aegis256 keyId hle ct
  rw [openBody_of_readHeader P key hheader, nonceOf_headerBytes .aegis256 keyId nonce.length_eq] at h
  have hlen := primitiveOpen_length hP nonce.length_eq h
  rw [List.length_append, headerBytes_length .aegis256 keyId hle, hlen]
  rfl

theorem AegisSealed.isBlob {blob : Bytes} (hs : AegisSealed P blob) : IsBlob blob := by
  obtain ⟨key', keyId, nonce, pt', hseal⟩ := hs
  obtain ⟨ct, -, rfl⟩ := (sealWith_eq_ok P).mp hseal
  exact isBlob_of_readHeader
    (readHeader_headerBytes .aegis256 keyId (Nat.le_of_eq nonce.length_eq) ct)

end Krypto.Aead
