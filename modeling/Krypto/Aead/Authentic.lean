import Krypto.Aead.Header
import Krypto.Effect.Quiet

/-! A blob opens exactly when some `seal` under the same key returned it, byte
for byte, when the ciphers are ideal. -/

namespace Krypto
open Effect

section Steps
variable {ν : Type} {A : (op : Call ν) → op.Reply → Prop}

theorem lockedPages_quiet (n : Nat) :
    Quiet Call.Private A (lockedPages n) fun r =>
      r = .ok () ∨ ∃ e, n ≠ 0 ∧ A (.lockPages n) (.error e) ∧ r = .err (.hardening (.text e)) := by
  unfold lockedPages
  split_ifs with hn
  · exact Or.inl rfl
  · refine ⟨trivial, fun y hy => ?_⟩
    cases y with
    | ok _ => exact Or.inl rfl
    | error e => exact Or.inr ⟨e, hn, hy, rfl⟩

theorem fill_quiet (n : Nat) (what : String) :
    Quiet Call.Private A (fill n what) fun r =>
      (∃ b, r = .ok b) ∨
        ∃ e, A (.getrandom n) (.error e) ∧ r = .err (.hardening (.text (what ++ e))) := by
  refine ⟨trivial, fun y hy => ?_⟩
  cases y with
  | ok b => exact Or.inl ⟨b, rfl⟩
  | error e => exact Or.inr ⟨e, hy, rfl⟩

/-- Calls for randomness and pages leave the process as it was. -/
theorem private_ends {ι ε α : Type} [DecidableEq ν] [DecidableEq ι] {me : ι}
    {p : Prog (Call.Reply (ν := ν)) ε α} {E : (kernel ν me).Env} {Q : Outcome ε α → Prop}
    (h : Quiet Call.Private ((kernel ν me).Answers E) p Q) {s s' : Process ν ι} {r : Outcome ε α}
    (hends : Ends (kernel ν me) E p s r s') : Q r ∧ s' = s := by
  have hwp := h.wp (M := kernel ν me) (E := E) (G := fun _ _ _ => True) (s := s)
    fun op c s hop _ => ⟨kernel_private hop c s, trivial⟩
  exact hwp.ends hends

end Steps

namespace Aead
variable {ν ι : Type} [DecidableEq ν] [DecidableEq ι] {me : ι} (P : Primitives)

/-! ## What `seal` returns -/

theorem headerBytes_length (alg : Alg) (keyId : Fixed 16) {nonce : Bytes}
    (h : nonce.length ≤ NONCE_FIELD) : (headerBytes alg keyId nonce).length = HEADER_LEN := by
  simp only [headerBytes, List.length_append, List.length_replicate, Fixed.length_eq,
    MAGIC, List.length_cons, List.length_nil, HEADER_LEN]
  omega

theorem nonceOf_headerBytes (alg : Alg) (keyId : Fixed 16) {nonce : Bytes}
    (h : nonce.length = alg.nonceLen) : nonceOf alg (headerBytes alg keyId nonce) = nonce := by
  have hfront : (MAGIC ++ [FORMAT_VER] ++ [alg.id] ++ keyId.toList).length = 22 := by
    simp [MAGIC]
  rw [nonceOf, headerBytes, List.drop_left' hfront, List.take_left' h]

theorem readHeader_headerBytes (alg : Alg) (keyId : Fixed 16) {nonce : Bytes}
    (h : nonce.length ≤ NONCE_FIELD) (ct : Bytes) :
    readHeader (headerBytes alg keyId nonce ++ ct) =
      .ok (alg, headerBytes alg keyId nonce, ct) := by
  have hlen := headerBytes_length alg keyId h
  have hblob : IsBlob (headerBytes alg keyId nonce ++ ct) := by
    refine ⟨by rw [List.length_append, hlen]; exact Nat.le_add_right _ _, ?_⟩
    simp only [headerBytes, List.append_assoc]
    exact List.prefix_append _ _
  rw [readHeader_of_isBlob hblob, List.take_left' hlen, List.drop_left' hlen]
  have hver : (headerBytes alg keyId nonce ++ ct).get ⟨4, Nat.lt_of_lt_of_le (by decide) hblob.1⟩ =
      FORMAT_VER := by
    simp [headerBytes, MAGIC]
  have halg : (headerBytes alg keyId nonce ++ ct).get ⟨5, Nat.lt_of_lt_of_le (by decide) hblob.1⟩ =
      alg.id := by
    simp [headerBytes, MAGIC]
  rw [hver, halg, Alg.fromId_id]
  simp

theorem sealWith_eq_ok {nonce : Bytes} {key : DerivedKey} {keyId : Fixed 16} {pt : SecretBuf}
    {alg : Alg} {blob : Bytes} :
    sealWith P nonce key keyId pt alg = .ok blob ↔
      ∃ ct, primitiveSeal P alg key.toFixed nonce pt (headerBytes alg keyId nonce) = .ok ct ∧
        blob = headerBytes alg keyId nonce ++ ct := by
  simp only [sealWith, DerivedKey.withKey_eq, Outcome.bind_eq_ok, Outcome.ok.injEq]
  exact exists_congr fun ct => and_congr_right fun _ => eq_comm

theorem blobKeyId_headerBytes (alg : Alg) (keyId : Fixed 16) {nonce : Bytes}
    (h : nonce.length ≤ NONCE_FIELD) (ct : Bytes) :
    blobKeyId (headerBytes alg keyId nonce ++ ct) = .ok keyId.toList := by
  have hfront : (MAGIC ++ [FORMAT_VER] ++ [alg.id]).length = 6 := by simp [MAGIC]
  rw [blobKeyId_of_readHeader (readHeader_headerBytes alg keyId h ct), headerBytes,
    List.append_assoc _ keyId.toList, List.drop_left' hfront, List.take_left' keyId.length_eq]

/-! ## What a `seal` encrypts, and what the ciphers make of it -/

/-- One call of a cipher's `encrypt`, and the ciphertext with its tag. -/
structure Encryption where
  alg : Alg
  key : Fixed 32
  nonce : Bytes
  aad : Bytes
  plaintext : Bytes
  body : Bytes
  deriving DecidableEq

/-- Each cipher decrypts what it encrypted. -/
structure Correct (P : Primitives) : Prop where
  aegis256 : ∀ key nonce msg ad, P.aegis256Decrypt key nonce (P.aegis256Encrypt key nonce msg ad).1
    (P.aegis256Encrypt key nonce msg ad).2 ad = some msg
  xchacha : ∀ key nonce msg aad ct, P.xchachaEncrypt key nonce msg aad = some ct →
    P.xchachaDecrypt key nonce ct aad = some msg
  aesGcm : ∀ key nonce msg aad ct, P.aesGcmEncrypt key nonce msg aad = some ct →
    P.aesGcmDecrypt key nonce ct aad = some msg

/-- Each cipher decrypts what it encrypted, where that was `made`. -/
structure Decrypts (P : Primitives) (made : Encryption → Prop) : Prop where
  aegis256 : ∀ key nonce msg ad ct tag, P.aegis256Encrypt key nonce msg ad = (ct, tag) →
    made ⟨.aegis256, key, nonce.toList, ad, msg, ct ++ tag.toList⟩ →
    P.aegis256Decrypt key nonce ct tag ad = some msg
  xchacha : ∀ key nonce msg aad ct, P.xchachaEncrypt key nonce msg aad = some ct →
    made ⟨.xchacha20Poly1305, key, nonce.toList, aad, msg, ct⟩ →
    P.xchachaDecrypt key nonce ct aad = some msg
  aesGcm : ∀ key nonce msg aad ct, P.aesGcmEncrypt key nonce msg aad = some ct →
    made ⟨.aes256Gcm, key, nonce.toList, aad, msg, ct⟩ →
    P.aesGcmDecrypt key nonce ct aad = some msg

section Decrypts
variable {P} {made : Encryption → Prop}

theorem Correct.decrypts (hP : Correct P) : Decrypts P made where
  aegis256 key nonce msg ad ct tag h _ := by
    have hdecrypt := hP.aegis256 key nonce msg ad
    rw [h] at hdecrypt
    exact hdecrypt
  xchacha key nonce msg aad ct h _ := hP.xchacha key nonce msg aad ct h
  aesGcm key nonce msg aad ct h _ := hP.aesGcm key nonce msg aad ct h

theorem primitiveOpen_primitiveSeal (hP : Decrypts P made) {alg : Alg} {key : Fixed 32}
    {nonce pt aad body : Bytes} (hn : nonce.length = alg.nonceLen)
    (h : primitiveSeal P alg key nonce pt aad = .ok body)
    (hm : made ⟨alg, key, nonce, aad, pt, body⟩) :
    primitiveOpen P alg key nonce body aad = .ok pt := by
  cases alg with
  | xchacha20Poly1305 =>
    rw [primitiveSeal_xchacha P key aad hn, Outcome.ofOption_eq_ok] at h
    rw [primitiveOpen_xchacha P key aad hn, hP.xchacha _ ⟨nonce, hn⟩ _ _ _ h hm, Outcome.ofOption_some]
  | aes256Gcm =>
    rw [primitiveSeal_aesGcm P key aad hn, Outcome.ofOption_eq_ok] at h
    rw [primitiveOpen_aesGcm P key aad hn, hP.aesGcm _ ⟨nonce, hn⟩ _ _ _ h hm, Outcome.ofOption_some]
  | aegis256 =>
    rw [primitiveSeal_aegis256 P key aad hn, Outcome.ok.injEq] at h
    have hnot : ¬body.length < 32 := by
      rw [← h, List.length_append, Fixed.length_eq]
      omega
    obtain ⟨ct, tag, hsplit, hopen⟩ := primitiveOpen_aegis256 P key aad hn hnot
    -- the tag is the last 32 bytes on both sides
    obtain ⟨hct, htag⟩ := List.append_inj' (hsplit.trans h.symm)
      ((Fixed.length_eq _).trans (Fixed.length_eq _).symm)
    have hencrypt : P.aegis256Encrypt key ⟨nonce, hn⟩ pt aad = (ct, tag) :=
      Prod.ext hct.symm (Fixed.ext htag).symm
    rw [← hsplit] at hm
    rw [hopen, hP.aegis256 _ ⟨nonce, hn⟩ _ _ _ _ hencrypt hm, Outcome.ofOption_some]

end Decrypts

structure Sealed where
  key : DerivedKey
  keyId : Fixed 16
  plaintext : SecretBuf
  alg : Alg
  blob : Bytes
  deriving DecidableEq

namespace Sealed

def encryption (c : Sealed) : Encryption where
  alg := c.alg
  key := c.key.toFixed
  nonce := nonceOf c.alg (c.blob.take HEADER_LEN)
  aad := c.blob.take HEADER_LEN
  plaintext := c.plaintext
  body := c.blob.drop HEADER_LEN

/-- The encryption is what `seal` hands to its cipher, and what that returned. -/
theorem encryption_of_blob {c : Sealed} {nonce ct : Bytes} (hn : nonce.length = c.alg.nonceLen)
    (hb : c.blob = headerBytes c.alg c.keyId nonce ++ ct) :
    c.encryption = ⟨c.alg, c.key.toFixed, nonce, headerBytes c.alg c.keyId nonce, c.plaintext, ct⟩ := by
  have hlen := headerBytes_length c.alg c.keyId (hn ▸ c.alg.nonceLen_le : nonce.length ≤ NONCE_FIELD)
  simp only [encryption, hb, List.take_left' hlen, List.drop_left' hlen,
    nonceOf_headerBytes c.alg c.keyId hn]

end Sealed

variable {P} in
/-- What `seal` returned under a key opens under it. -/
theorem openBody_of_sealed {made : Encryption → Prop} (hP : Decrypts P made) {c : Sealed}
    {nonce : Bytes} (hn : nonce.length = c.alg.nonceLen)
    (h : sealWith P nonce c.key c.keyId c.plaintext c.alg = .ok c.blob) (hm : made c.encryption) :
    openBody P c.key c.blob = .ok c.plaintext := by
  obtain ⟨ct, hct, hb⟩ := (sealWith_eq_ok P).mp h
  have hle : nonce.length ≤ NONCE_FIELD := hn ▸ c.alg.nonceLen_le
  rw [Sealed.encryption_of_blob hn hb] at hm
  rw [hb, openBody_of_readHeader P c.key (readHeader_headerBytes c.alg c.keyId hle ct),
    nonceOf_headerBytes c.alg c.keyId hn]
  exact primitiveOpen_primitiveSeal hP hn hct hm

variable {P} in
theorem openBody_sealWith (hP : Correct P) {alg : Alg} {key : DerivedKey} {keyId : Fixed 16}
    {nonce pt blob : Bytes} (hn : nonce.length = alg.nonceLen)
    (h : sealWith P nonce key keyId pt alg = .ok blob) : openBody P key blob = .ok pt := by
  have hP' : Decrypts P fun _ => True := hP.decrypts
  exact openBody_of_sealed hP' (c := ⟨key, keyId, pt, alg, blob⟩) hn h trivial

omit [DecidableEq ν] in
theorem sealBlob_quiet {A : (op : Call ν) → op.Reply → Prop} (key : DerivedKey)
    (keyId : Fixed 16) (pt : SecretBuf) (alg : Alg) :
    Quiet Call.Private A (sealBlob P key keyId pt alg) fun r =>
      (∃ nonce : Fixed alg.nonceLen, r = sealWith P nonce.toList key keyId pt alg) ∨
        ∃ e, A (.getrandom alg.nonceLen) (.error e) ∧
          r = .err (.hardening (.text ("getrandom failed: " ++ e))) := by
  refine (fill_quiet _ _).bind (fun nonce _ => Or.inl ⟨nonce, rfl⟩) (fun e h => ?_) fun h => ?_
  · rcases h with ⟨b, hb⟩ | h
    · cases hb
    · exact Or.inr (by simpa using h)
  · rcases h with ⟨b, hb⟩ | ⟨e, -, he⟩
    · cases hb
    · cases he

omit [DecidableEq ν] in
/-- Opening is the verdict on the blob, unless the plaintext finds no locked pages. -/
theorem openBlob_quiet {A : (op : Call ν) → op.Reply → Prop} (key : DerivedKey) (blob : Bytes) :
    Quiet Call.Private A (openBlob P key blob) fun r =>
      r = openBody P key blob ∨ ∃ pt e, openBody P key blob = .ok pt ∧
        A (.lockPages pt.length) (.error e) ∧ r = .err (.hardening (.text e)) := by
  unfold openBlob
  rw [quiet_bind]
  cases hb : openBody P key blob with
  | err e => exact Or.inl rfl
  | panic => exact Or.inl rfl
  | ok pt =>
    refine (lockedPages_quiet pt.length).bind (fun _ _ => Or.inl rfl) (fun e h => ?_) fun h => ?_
    · rcases h with h | ⟨e', _, ha, he⟩
      · cases h
      · cases he
        exact Or.inr ⟨pt, e', rfl, ha, rfl⟩
    · rcases h with h | ⟨e', _, _, he⟩
      · cases h
      · cases he

theorem openBlob_cases {E : (kernel ν me).Env} {key : DerivedKey} {blob : Bytes} {s s' : Process ν ι}
    {r : Outcome Error SecretBuf} (h : Ends (kernel ν me) E (openBlob P key blob) s r s') :
    r = openBody P key blob ∨ ∃ pt e, openBody P key blob = .ok pt ∧ r = .err (.hardening (.text e)) ∧
      (kernel ν me).Answers E (.lockPages pt.length) (.error e) := by
  rcases (private_ends (openBlob_quiet P key blob) h).1 with h | ⟨pt, e, hpt, ha, hr⟩
  · exact .inl h
  · exact .inr ⟨pt, e, hpt, hr, ha⟩

theorem sealBlob_cases {E : (kernel ν me).Env} {key : DerivedKey} {keyId : Fixed 16} {pt : SecretBuf}
    {alg : Alg} {s s' : Process ν ι} {r : Outcome Error Bytes}
    (h : Ends (kernel ν me) E (sealBlob P key keyId pt alg) s r s') :
    (∃ nonce : Fixed alg.nonceLen, r = sealWith P nonce.toList key keyId pt alg) ∨
      ∃ e, r = .err (.hardening (.text ("getrandom failed: " ++ e))) ∧
        (kernel ν me).Answers E (.getrandom alg.nonceLen) (.error e) := by
  rcases (private_ends (sealBlob_quiet P key keyId pt alg) h).1 with h | ⟨e, ha, hr⟩
  · exact .inl h
  · exact .inr ⟨e, hr, ha⟩

theorem openBlob_ends {key : DerivedKey} {blob : Bytes} {s s' : Process ν ι}
    {r : Outcome Error SecretBuf}
    (h : Ends (kernel ν me) locksPages (openBlob P key blob) s r s') :
    r = openBody P key blob := by
  rcases openBlob_cases P h with h | ⟨pt, e, -, -, c, t, hc, hy⟩
  · exact h
  · have hc' : c = .ok () := hc
    rw [hc'] at hy
    cases hy

/-! ## Ideal ciphers -/

/-- Each cipher decrypts nothing but what was encrypted, and to its plaintext. -/
structure Unforgeable (P : Primitives) (made : List Encryption) : Prop where
  aegis256 : ∀ key nonce ct tag ad pt, P.aegis256Decrypt key nonce ct tag ad = some pt →
    ⟨.aegis256, key, nonce.toList, ad, pt, ct ++ tag.toList⟩ ∈ made
  xchacha : ∀ key nonce ct aad pt, P.xchachaDecrypt key nonce ct aad = some pt →
    ⟨.xchacha20Poly1305, key, nonce.toList, aad, pt, ct⟩ ∈ made
  aesGcm : ∀ key nonce ct aad pt, P.aesGcmDecrypt key nonce ct aad = some pt →
    ⟨.aes256Gcm, key, nonce.toList, aad, pt, ct⟩ ∈ made

/-- Each cipher decrypts exactly what was encrypted, to its plaintext. -/
structure Ideal (P : Primitives) (made : List Encryption) : Prop extends Unforgeable P made where
  decrypts : Decrypts P (· ∈ made)

theorem primitiveOpen_made {P : Primitives} {made : List Encryption} (hP : Unforgeable P made)
    {alg : Alg} {key : Fixed 32} {nonce body aad pt : Bytes} (h : nonce.length = alg.nonceLen)
    (hopen : primitiveOpen P alg key nonce body aad = .ok pt) :
    ⟨alg, key, nonce, aad, pt, body⟩ ∈ made := by
  cases alg with
  | xchacha20Poly1305 =>
    rw [primitiveOpen_xchacha P key aad h, Outcome.ofOption_eq_ok] at hopen
    exact hP.xchacha _ ⟨nonce, h⟩ _ _ _ hopen
  | aes256Gcm =>
    rw [primitiveOpen_aesGcm P key aad h, Outcome.ofOption_eq_ok] at hopen
    exact hP.aesGcm _ ⟨nonce, h⟩ _ _ _ hopen
  | aegis256 =>
    by_cases hb : body.length < 32
    · rw [primitiveOpen_short P key aad hb] at hopen
      cases hopen
    obtain ⟨ct, tag, rfl, hdecrypt⟩ := primitiveOpen_aegis256 P key aad h hb
    rw [hdecrypt, Outcome.ofOption_eq_ok] at hopen
    exact hP.aegis256 _ ⟨nonce, h⟩ _ _ _ _ hopen

theorem openBody_made {P : Primitives} {made : List Encryption} (hP : Unforgeable P made)
    {key : DerivedKey} {b pt : Bytes} (h : openBody P key b = .ok pt) :
    ∃ alg, readHeader b = .ok (alg, b.take HEADER_LEN, b.drop HEADER_LEN) ∧
      ⟨alg, key.toFixed, nonceOf alg (b.take HEADER_LEN), b.take HEADER_LEN, pt,
        b.drop HEADER_LEN⟩ ∈ made := by
  obtain ⟨⟨alg, header, body⟩, hx⟩ : ∃ x, readHeader b = .ok x := by
    simp only [openBody, Outcome.bind_eq_ok] at h
    obtain ⟨x, hx, -⟩ := h
    exact ⟨x, hx⟩
  obtain ⟨rfl, rfl⟩ := readHeader_ok hx
  have hlen : (b.take HEADER_LEN).length = HEADER_LEN := by
    rw [List.length_take, Nat.min_eq_left (isBlob_of_readHeader hx).1]
  rw [openBody_of_readHeader P key hx] at h
  exact ⟨alg, hx, primitiveOpen_made hP (nonceOf_length alg hlen) h⟩

namespace Sealed

def Returned (P : Primitives) (me : ι) (c : Sealed) : Prop :=
  ∃ s s', Ends (kernel ν me) anything (sealBlob P c.key c.keyId c.plaintext c.alg) s
    (.ok c.blob) s'

variable {P : Primitives} {c : Sealed}

theorem Returned.made (h : c.Returned (ν := ν) P me) :
    ∃ nonce ct, nonce.length = c.alg.nonceLen ∧
      c.blob = headerBytes c.alg c.keyId nonce ++ ct ∧
      primitiveSeal P c.alg c.key.toFixed nonce c.plaintext (headerBytes c.alg c.keyId nonce) =
        .ok ct := by
  obtain ⟨s, s', h⟩ := h
  rcases sealBlob_cases P h with ⟨nonce, hn⟩ | ⟨e, he, -⟩
  · obtain ⟨ct, hct, hblob⟩ := (sealWith_eq_ok P).mp hn.symm
    exact ⟨nonce.toList, ct, Fixed.length_eq _, hblob, hct⟩
  · cases he

theorem readHeader_of_made {nonce ct : Bytes} (hn : nonce.length = c.alg.nonceLen)
    (hb : c.blob = headerBytes c.alg c.keyId nonce ++ ct) :
    readHeader c.blob = .ok (c.alg, c.blob.take HEADER_LEN, c.blob.drop HEADER_LEN) := by
  have hle : nonce.length ≤ NONCE_FIELD := hn ▸ c.alg.nonceLen_le
  have hr := readHeader_headerBytes c.alg c.keyId hle ct
  rw [← hb] at hr
  obtain ⟨hh, hbody⟩ := readHeader_ok hr
  rw [hr, hh, hbody]

theorem Returned.readHeader (h : c.Returned (ν := ν) P me) :
    readHeader c.blob = .ok (c.alg, c.blob.take HEADER_LEN, c.blob.drop HEADER_LEN) := by
  obtain ⟨nonce, ct, hn, hb, -⟩ := h.made
  exact readHeader_of_made hn hb

theorem Returned.sealWith (h : c.Returned (ν := ν) P me) :
    ∃ nonce : Bytes, nonce.length = c.alg.nonceLen ∧
      Aead.sealWith P nonce c.key c.keyId c.plaintext c.alg = .ok c.blob := by
  obtain ⟨nonce, ct, hn, hb, hs⟩ := h.made
  exact ⟨nonce, hn, (sealWith_eq_ok P).mpr ⟨ct, hs, hb⟩⟩

theorem Returned.openBody {made : Encryption → Prop} (hP : Decrypts P made)
    (h : c.Returned (ν := ν) P me) (hm : made c.encryption) :
    Aead.openBody P c.key c.blob = .ok c.plaintext := by
  obtain ⟨nonce, hn, hs⟩ := h.sealWith
  exact openBody_of_sealed hP hn hs hm

end Sealed

/-- Where nothing is forged, what opens is a blob that a `seal` under this key returned. -/
theorem exists_call_of_openBody {P : Primitives} {calls : List Sealed}
    (hP : Unforgeable P (calls.map Sealed.encryption)) {key : DerivedKey} {b pt : Bytes}
    (h : openBody P key b = .ok pt) : ∃ c ∈ calls, c.key = key ∧ c.plaintext = pt ∧ c.blob = b := by
  obtain ⟨alg, -, hm⟩ := openBody_made hP h
  obtain ⟨c, hc, he⟩ := List.mem_map.mp hm
  simp only [Sealed.encryption, Encryption.mk.injEq] at he
  refine ⟨c, hc, DerivedKey.toFixed_inj he.2.1, he.2.2.2.2.1, ?_⟩
  rw [← List.take_append_drop HEADER_LEN c.blob, he.2.2.2.1, he.2.2.2.2.2,
    List.take_append_drop]

/-- Among ideal ciphers, a blob opens exactly when a `seal` under this key returned it. -/
theorem openBody_eq_ok_iff {calls : List Sealed} (hc : ∀ c ∈ calls, c.Returned (ν := ν) P me)
    (hP : Ideal P (calls.map Sealed.encryption)) (key : DerivedKey) (b pt : Bytes) :
    openBody P key b = .ok pt ↔ ∃ c ∈ calls, c.key = key ∧ c.plaintext = pt ∧ c.blob = b := by
  constructor
  · intro h
    exact exists_call_of_openBody hP.toUnforgeable h
  · rintro ⟨c, hm, rfl, rfl, rfl⟩
    exact (hc c hm).openBody hP.decrypts (List.mem_map.mpr ⟨c, hm, rfl⟩)

/-! ## Ciphers that only append a tag -/

def tagLen : Alg → Nat
  | .aegis256 => 32
  | .xchacha20Poly1305 | .aes256Gcm => 16

/-- Encryption appends a tag of zeros; decryption takes what was `made`. -/
def transparent (kdf : Bytes → Bytes → Bytes → Fixed 32) (made : Encryption → Bool) :
    Primitives where
  hkdfSha256 := kdf
  aegis256Encrypt _ _ msg _ := (msg, .zero 32)
  aegis256Decrypt key nonce ct tag ad :=
    if made ⟨.aegis256, key, nonce.toList, ad, ct, ct ++ tag.toList⟩ then some ct else none
  xchachaEncrypt _ _ msg _ := some (msg ++ List.replicate 16 0)
  xchachaDecrypt key nonce ct aad :=
    let pt := ct.take (ct.length - 16)
    if made ⟨.xchacha20Poly1305, key, nonce.toList, aad, pt, ct⟩ then some pt else none
  aesGcmEncrypt _ _ msg _ := some (msg ++ List.replicate 16 0)
  aesGcmDecrypt key nonce ct aad :=
    let pt := ct.take (ct.length - 16)
    if made ⟨.aes256Gcm, key, nonce.toList, aad, pt, ct⟩ then some pt else none

theorem transparent_decrypts (kdf : Bytes → Bytes → Bytes → Fixed 32) (made : Encryption → Bool) :
    Decrypts (transparent kdf made) (made · = true) where
  aegis256 key nonce msg ad ct tag h hm := by
    cases h
    simp [transparent, hm]
  xchacha key nonce msg aad ct h hm := by
    cases h
    simp [transparent, -List.reduceReplicate, hm]
  aesGcm key nonce msg aad ct h hm := by
    cases h
    simp [transparent, -List.reduceReplicate, hm]

theorem transparent_ideal (kdf : Bytes → Bytes → Bytes → Fixed 32) (made : List Encryption) :
    Ideal (transparent kdf (· ∈ made)) made where
  aegis256 key nonce ct tag ad pt h := by
    simp only [transparent, decide_eq_true_eq, Option.ite_none_right_eq_some, Option.some.injEq] at h
    obtain ⟨hm, rfl⟩ := h
    exact hm
  xchacha key nonce ct aad pt h := by
    simp only [transparent, decide_eq_true_eq, Option.ite_none_right_eq_some, Option.some.injEq] at h
    obtain ⟨hm, rfl⟩ := h
    exact hm
  aesGcm key nonce ct aad pt h := by
    simp only [transparent, decide_eq_true_eq, Option.ite_none_right_eq_some, Option.some.injEq] at h
    obtain ⟨hm, rfl⟩ := h
    exact hm
  decrypts := by
    have h := transparent_decrypts kdf (· ∈ made)
    simpa only [decide_eq_true_eq] using h

theorem transparent_correct (kdf : Bytes → Bytes → Bytes → Fixed 32) :
    Correct (transparent kdf fun _ => true) where
  aegis256 key nonce msg ad := (transparent_decrypts kdf _).aegis256 key nonce msg ad _ _ rfl rfl
  xchacha key nonce msg aad ct h := (transparent_decrypts kdf _).xchacha key nonce msg aad ct h rfl
  aesGcm key nonce msg aad ct h := (transparent_decrypts kdf _).aesGcm key nonce msg aad ct h rfl

def transparentBlob (alg : Alg) (keyId : Fixed 16) (nonce pt : Bytes) : Bytes :=
  headerBytes alg keyId nonce ++ (pt ++ List.replicate (tagLen alg) 0)

theorem transparent_sealWith (kdf : Bytes → Bytes → Bytes → Fixed 32) (made : Encryption → Bool)
    (key : DerivedKey) (keyId : Fixed 16) (pt : SecretBuf) (alg : Alg) {nonce : Bytes}
    (h : nonce.length = alg.nonceLen) :
    sealWith (transparent kdf made) nonce key keyId pt alg =
      .ok (transparentBlob alg keyId nonce pt) := by
  rw [sealWith_eq_ok]
  refine ⟨pt ++ List.replicate (tagLen alg) 0, ?_, rfl⟩
  cases alg with
  | aegis256 => exact primitiveSeal_aegis256 _ _ _ h
  | xchacha20Poly1305 => exact primitiveSeal_xchacha _ _ _ h
  | aes256Gcm => exact primitiveSeal_aesGcm _ _ _ h

/-! ## Opening any byte string -/

/-- A blob opens exactly when a `seal` under this key returned it, byte for byte; what is too
short for a header or lacks `FAFN` is `Format`, and everything else is `Auth`. -/
theorem openBlob_verdict {calls : List Sealed} (hc : ∀ c ∈ calls, c.Returned (ν := ν) P me)
    (hP : Ideal P (calls.map Sealed.encryption)) (key : DerivedKey) (b : Bytes)
    (s : Process ν ι) :
    (∃ r s', Ends (kernel ν me) locksPages (openBlob P key b) s r s') ∧
      ∀ r s', Ends (kernel ν me) locksPages (openBlob P key b) s r s' →
        (∀ pt, r = .ok pt ↔ ∃ c ∈ calls, c.key = key ∧ c.plaintext = pt ∧ c.blob = b) ∧
        ((∃ m, r = .err (.format m)) ↔ b.length < 54 ∨ ¬MAGIC <+: b) ∧
        (r = .err .auth ↔ ¬(b.length < 54 ∨ ¬MAGIC <+: b) ∧
          ¬∃ c ∈ calls, c.key = key ∧ c.blob = b) := by
  refine ⟨exists_ends locksPages_total _ s, fun r s' h => ?_⟩
  obtain rfl := openBlob_ends P h
  have hok := openBody_eq_ok_iff P hc hP key b
  have hblob : ¬(b.length < 54 ∨ ¬MAGIC <+: b) ↔ IsBlob b := by
    simp only [not_or, Nat.not_lt, not_not]
    rfl
  refine ⟨hok, ?_, ?_⟩
  · rw [← not_iff_not, hblob]
    constructor
    · intro hm
      by_contra hb
      exact hm (openBody_of_not_isBlob P key hb)
    · rintro hb ⟨m, hm⟩
      rcases openBody_of_isBlob P key hb with h | ⟨pt, h⟩ <;> rw [h] at hm <;> cases hm
  · rw [hblob]
    constructor
    · intro ha
      refine ⟨?_, ?_⟩
      · by_contra hb
        obtain ⟨m, hm⟩ := openBody_of_not_isBlob P key hb
        rw [hm] at ha
        cases ha
      · rintro ⟨c, hm, hk, he⟩
        rw [(hok c.plaintext).mpr ⟨c, hm, hk, rfl, he⟩] at ha
        cases ha
    · rintro ⟨hb, hno⟩
      rcases openBody_of_isBlob P key hb with h | ⟨pt, h⟩
      · exact h
      · obtain ⟨c, hm, hk, -, he⟩ := (hok pt).mp h
        exact absurd ⟨c, hm, hk, he⟩ hno

def sampleSealed : List Sealed :=
  [.aegis256, .xchacha20Poly1305, .aes256Gcm].map fun alg =>
    { key := ⟨List.replicate 32 7, rfl⟩
      keyId := .zero 16
      plaintext := [alg.id, 1, 2]
      alg := alg
      blob := transparentBlob alg (.zero 16) (List.replicate alg.nonceLen 9) [alg.id, 1, 2] }

theorem openBlob_verdict_sample :
    let P := transparent (fun _ _ _ => .zero 32) (· ∈ sampleSealed.map Sealed.encryption)
    let b := transparentBlob .aes256Gcm (.zero 16) (List.replicate 12 9) [3, 1, 2]
    (∃ s', Ends (kernel Unit ()) locksPages (openBlob P ⟨List.replicate 32 7, rfl⟩ b) .start
      (.ok [3, 1, 2]) s') ∧
    ∃ s', Ends (kernel Unit ()) locksPages (openBlob P ⟨List.replicate 32 7, rfl⟩ (b ++ [0])) .start
      (.err .auth) s' := by
  intro P b
  have hc : ∀ c ∈ sampleSealed, c.Returned (ν := Unit) P () := by
    intro c hm
    obtain ⟨alg, -, rfl⟩ := List.mem_map.mp hm
    have hlen : (List.replicate alg.nonceLen (9 : UInt8)).length = alg.nonceLen :=
      List.length_replicate
    have hs := transparent_sealWith (fun _ _ _ => .zero 32)
      (· ∈ sampleSealed.map Sealed.encryption) ⟨List.replicate 32 7, rfl⟩ (.zero 16)
      [alg.id, 1, 2] alg hlen
    refine ⟨.start, .start, .step (Except.ok ⟨_, hlen⟩) trivial ?_⟩
    exact hs ▸ Steps.refl _
  have hP : Ideal P (sampleSealed.map Sealed.encryption) :=
    transparent_ideal _ _
  constructor
  · obtain ⟨⟨r, s', h⟩, hall⟩ :=
      openBlob_verdict P hc hP ⟨List.replicate 32 7, rfl⟩ b (Process.start : Process Unit Unit)
    have hr : r = .ok [3, 1, 2] := ((hall r s' h).1 _).mpr
      ⟨_, List.mem_map.mpr ⟨.aes256Gcm, by decide, rfl⟩, rfl, rfl, rfl⟩
    exact ⟨s', hr ▸ h⟩
  · obtain ⟨⟨r, s', h⟩, hall⟩ := openBlob_verdict P hc hP ⟨List.replicate 32 7, rfl⟩ (b ++ [0])
      (Process.start : Process Unit Unit)
    have hno : ∀ c ∈ sampleSealed, c.blob ≠ b ++ [0] := by decide
    have hr : r = .err .auth := (hall r s' h).2.2.mpr
      ⟨by decide, fun ⟨c, hm, _, he⟩ => hno c hm he⟩
    exact ⟨s', hr ▸ h⟩

end Aead
end Krypto
