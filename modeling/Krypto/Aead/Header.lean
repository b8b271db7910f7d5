import Krypto.Aead

/-! What reading a blob's header answers for every byte string, and that a
blob past its header either opens or is `Auth`. -/

namespace Krypto.Aead
open Effect
variable (P : Primitives)

def IsBlob (b : Bytes) : Prop := HEADER_LEN ≤ b.length ∧ MAGIC <+: b

instance : DecidablePred IsBlob := fun b =>
  inferInstanceAs (Decidable (HEADER_LEN ≤ b.length ∧ MAGIC <+: b))

theorem tryFrom_of_length {n : Nat} {data : Bytes} (h : data.length = n) :
    Fixed.tryFrom n data = some ⟨data, h⟩ := dif_pos h

theorem slice_magic {b : Bytes} (h : HEADER_LEN ≤ b.length) :
    (slice (b.take HEADER_LEN) 0 4 : Outcome Error Bytes) = .ok (b.take 4) := by
  have hlen : 4 ≤ (b.take HEADER_LEN).length := by
    rw [List.length_take, Nat.min_eq_left h]
    decide
  rw [slice_of_le (Nat.zero_le 4) hlen, List.drop_zero, List.take_take]
  rfl

theorem magic_iff {b : Bytes} : MAGIC <+: b ↔ b.take 4 = MAGIC := by
  rw [List.prefix_iff_eq_take]
  exact eq_comm

theorem readHeader_of_not_isBlob {b : Bytes} (h : ¬IsBlob b) :
    ∃ m, readHeader b = .err (.format m) := by
  unfold readHeader
  by_cases hlen : b.length < HEADER_LEN
  · exact ⟨_, if_pos hlen⟩
  have hle := Nat.le_of_not_lt hlen
  have hmagic : b.take 4 ≠ MAGIC := fun e => h ⟨hle, magic_iff.mpr e⟩
  refine ⟨"wrong magic (not FAFN)", ?_⟩
  simp only [if_neg hlen, splitAt_of_le hle, Outcome.ok_bind, slice_magic hle, if_pos hmagic]

theorem readHeader_of_isBlob {b : Bytes} (h : IsBlob b) :
    readHeader b =
      if b.get ⟨4, Nat.lt_of_lt_of_le (by decide) h.1⟩ ≠ FORMAT_VER then .err .auth
      else (Outcome.ofOption .auth (Alg.fromId (b.get ⟨5, Nat.lt_of_lt_of_le (by decide) h.1⟩))) >>=
        fun alg => .ok (alg, b.take HEADER_LEN, b.drop HEADER_LEN) := by
  have hlen : ¬b.length < HEADER_LEN := Nat.not_lt.mpr h.1
  have hmagic : ¬b.take 4 ≠ MAGIC := fun hne => hne (magic_iff.mp h.2)
  have hindex (i : Nat) (hi : i < HEADER_LEN) :
      (index (b.take HEADER_LEN) i : Outcome Error UInt8) =
        .ok (b.get ⟨i, Nat.lt_of_lt_of_le hi h.1⟩) := by
    have hi' : i < (b.take HEADER_LEN).length := by
      rwa [List.length_take, Nat.min_eq_left h.1]
    rw [index_of_lt hi', List.getElem_take, List.get_eq_getElem]
  unfold readHeader
  simp only [if_neg hlen, splitAt_of_le h.1, Outcome.ok_bind, slice_magic h.1, if_neg hmagic,
    hindex 4 (by decide), hindex 5 (by decide)]

theorem readHeader_cases {b : Bytes} (h : IsBlob b) :
    readHeader b = .err .auth ∨
      ∃ alg, readHeader b = .ok (alg, b.take HEADER_LEN, b.drop HEADER_LEN) := by
  rw [readHeader_of_isBlob h]
  split_ifs with hver
  · exact Or.inl rfl
  · cases Alg.fromId (b.get ⟨5, Nat.lt_of_lt_of_le (by decide) h.1⟩) with
    | none => exact Or.inl rfl
    | some alg => exact Or.inr ⟨alg, rfl⟩

theorem isBlob_of_readHeader {b : Bytes} {x : Alg × Bytes × Bytes} (h : readHeader b = .ok x) :
    IsBlob b := by
  by_contra hb
  obtain ⟨m, hm⟩ := readHeader_of_not_isBlob hb
  rw [hm] at h
  cases h

theorem readHeader_ok {b : Bytes} {alg : Alg} {header body : Bytes}
    (h : readHeader b = .ok (alg, header, body)) :
    header = b.take HEADER_LEN ∧ body = b.drop HEADER_LEN := by
  rcases readHeader_cases (isBlob_of_readHeader h) with he | ⟨alg', he⟩
  · rw [he] at h
    cases h
  · rw [he] at h
    cases h
    exact ⟨rfl, rfl⟩

def nonceOf (alg : Alg) (header : Bytes) : Bytes := (header.drop 22).take alg.nonceLen

theorem nonceOf_length (alg : Alg) {header : Bytes} (h : header.length = HEADER_LEN) :
    (nonceOf alg header).length = alg.nonceLen := by
  have hle := alg.nonceLen_le
  simp only [nonceOf, List.length_take, List.length_drop, h, HEADER_LEN, NONCE_FIELD]
  omega

theorem openBody_of_readHeader (key : DerivedKey) {b : Bytes} {alg : Alg} {header body : Bytes}
    (h : readHeader b = .ok (alg, header, body)) :
    openBody P key b = primitiveOpen P alg key.toFixed (nonceOf alg header) body header := by
  obtain ⟨hheader, -⟩ := readHeader_ok h
  have hlen : header.length = HEADER_LEN := by
    rw [hheader, List.length_take, Nat.min_eq_left (isBlob_of_readHeader h).1]
  have hfield : ((header.drop (6 + 16)).take NONCE_FIELD).length = NONCE_FIELD := by
    rw [List.length_take, List.length_drop, hlen]
    decide
  have hnonce : slice header (6 + 16) (6 + 16 + NONCE_FIELD) =
      (.ok ((header.drop (6 + 16)).take NONCE_FIELD) : Outcome Error Bytes) := by
    rw [slice_of_le (Nat.le_add_right _ _) (by rw [hlen]; decide), Nat.add_sub_cancel_left]
  have hpart : slice ((header.drop (6 + 16)).take NONCE_FIELD) 0 alg.nonceLen =
      (.ok (nonceOf alg header) : Outcome Error Bytes) := by
    rw [slice_of_le (Nat.zero_le _) (by rw [hfield]; exact alg.nonceLen_le), List.drop_zero,
      List.take_take, Nat.sub_zero, Nat.min_eq_left (show alg.nonceLen ≤ NONCE_FIELD from
        alg.nonceLen_le)]
    rfl
  simp only [openBody, h, Outcome.ok_bind, hnonce, hpart, DerivedKey.withKey_eq]

section Ciphers
variable (key : Fixed 32) (aad : Bytes) {nonce pt body : Bytes}

theorem primitiveSeal_aegis256 (h : nonce.length = 32) :
    primitiveSeal P .aegis256 key nonce pt aad =
      .ok ((P.aegis256Encrypt key ⟨nonce, h⟩ pt aad).1 ++
        (P.aegis256Encrypt key ⟨nonce, h⟩ pt aad).2.toList) := by
  rw [primitiveSeal, tryFrom_of_length h, Outcome.ofOption_some, Outcome.ok_bind]

theorem primitiveSeal_xchacha (h : nonce.length = 24) :
    primitiveSeal P .xchacha20Poly1305 key nonce pt aad =
      .ofOption (.hardening "AEAD encryption failed") (P.xchachaEncrypt key ⟨nonce, h⟩ pt aad) := by
  rw [primitiveSeal, tryFrom_of_length h, Outcome.ofOption_some, Outcome.ok_bind]

theorem primitiveSeal_aesGcm (h : nonce.length = 12) :
    primitiveSeal P .aes256Gcm key nonce pt aad =
      .ofOption (.hardening "AEAD encryption failed") (P.aesGcmEncrypt key ⟨nonce, h⟩ pt aad) := by
  rw [primitiveSeal, tryFrom_of_length h, Outcome.ofOption_some, Outcome.ok_bind]

theorem primitiveOpen_short (hb : body.length < 32) :
    primitiveOpen P .aegis256 key nonce body aad = .err .auth := by
  rw [primitiveOpen, if_pos hb]

theorem primitiveOpen_aegis256 (h : nonce.length = 32) (hb : ¬body.length < 32) :
    ∃ ct, ∃ tag : Fixed 32, ct ++ tag.toList = body ∧
      primitiveOpen P .aegis256 key nonce body aad =
        .ofOption .auth (P.aegis256Decrypt key ⟨nonce, h⟩ ct tag aad) := by
  have hlen : (body.drop (body.length - 32)).length = 32 := by
    rw [List.length_drop]
    omega
  refine ⟨body.take (body.length - 32), ⟨body.drop (body.length - 32), hlen⟩,
    List.take_append_drop _ _, ?_⟩
  simp only [primitiveOpen, if_neg hb, splitAt_of_le (Nat.sub_le _ _), Outcome.ok_bind,
    tryFrom_of_length hlen, tryFrom_of_length h, Outcome.ofOption_some]

theorem primitiveOpen_xchacha (h : nonce.length = 24) :
    primitiveOpen P .xchacha20Poly1305 key nonce body aad =
      .ofOption .auth (P.xchachaDecrypt key ⟨nonce, h⟩ body aad) := by
  rw [primitiveOpen, tryFrom_of_length h, Outcome.ofOption_some, Outcome.ok_bind]

theorem primitiveOpen_aesGcm (h : nonce.length = 12) :
    primitiveOpen P .aes256Gcm key nonce body aad =
      .ofOption .auth (P.aesGcmDecrypt key ⟨nonce, h⟩ body aad) := by
  rw [primitiveOpen, tryFrom_of_length h, Outcome.ofOption_some, Outcome.ok_bind]

end Ciphers

theorem primitiveOpen_verdict (alg : Alg) (key : Fixed 32) {nonce : Bytes} (body aad : Bytes)
    (h : nonce.length = alg.nonceLen) :
    primitiveOpen P alg key nonce body aad = .err .auth ∨
      ∃ pt, primitiveOpen P alg key nonce body aad = .ok pt := by
  have verdict (o : Option Bytes) :
      (Outcome.ofOption Error.auth o) = .err .auth ∨ ∃ pt, Outcome.ofOption Error.auth o = .ok pt := by
    cases o with
    | none => exact Or.inl rfl
    | some pt => exact Or.inr ⟨pt, rfl⟩
  cases alg with
  | xchacha20Poly1305 =>
    rw [primitiveOpen_xchacha P key aad h]
    exact verdict _
  | aes256Gcm =>
    rw [primitiveOpen_aesGcm P key aad h]
    exact verdict _
  | aegis256 =>
    by_cases hb : body.length < 32
    · exact Or.inl (primitiveOpen_short P key aad hb)
    · obtain ⟨ct, tag, -, hopen⟩ := primitiveOpen_aegis256 P key aad h hb
      rw [hopen]
      exact verdict _

theorem openBody_of_not_isBlob (key : DerivedKey) {b : Bytes} (h : ¬IsBlob b) :
    ∃ m, openBody P key b = .err (.format m) := by
  obtain ⟨m, hm⟩ := readHeader_of_not_isBlob h
  exact ⟨m, by simp [openBody, hm]⟩

theorem openBody_of_isBlob (key : DerivedKey) {b : Bytes} (h : IsBlob b) :
    openBody P key b = .err .auth ∨ ∃ pt, openBody P key b = .ok pt := by
  rcases readHeader_cases h with he | ⟨alg, he⟩
  · exact Or.inl (by simp [openBody, he])
  · rw [openBody_of_readHeader P key he]
    have hlen : (b.take HEADER_LEN).length = HEADER_LEN := by
      rw [List.length_take, Nat.min_eq_left h.1]
    exact primitiveOpen_verdict P alg _ _ _ (nonceOf_length alg hlen)

theorem blobKeyId_of_not_isBlob {b : Bytes} (h : ¬IsBlob b) :
    ∃ m, blobKeyId b = .err (.format m) := by
  obtain ⟨m, hm⟩ := readHeader_of_not_isBlob h
  exact ⟨m, by simp [blobKeyId, hm]⟩

theorem blobKeyId_of_readHeader {b : Bytes} {alg : Alg} {header body : Bytes}
    (h : readHeader b = .ok (alg, header, body)) :
    blobKeyId b = .ok ((header.drop 6).take 16) := by
  have hlen : header.length = HEADER_LEN := by
    rw [(readHeader_ok h).1, List.length_take, Nat.min_eq_left (isBlob_of_readHeader h).1]
  have hs : slice header 6 (6 + 16) = (.ok ((header.drop 6).take 16) : Outcome Error Bytes) := by
    rw [slice_of_le (Nat.le_add_right _ _) (by rw [hlen]; decide), Nat.add_sub_cancel_left]
  simp only [blobKeyId, h, Outcome.ok_bind, hs]

theorem blobKeyId_of_isBlob {b : Bytes} (h : IsBlob b) :
    blobKeyId b = .err .auth ∨ ∃ id, blobKeyId b = .ok id := by
  rcases readHeader_cases h with he | ⟨alg, he⟩
  · exact Or.inl (by simp [blobKeyId, he])
  · exact Or.inr ⟨_, blobKeyId_of_readHeader he⟩

end Krypto.Aead
