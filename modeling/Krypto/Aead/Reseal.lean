import Krypto.Aead.Authentic

/-! Resealing: a blob moves to another key, and nothing else about it changes. -/

namespace Krypto.Aead
open Effect
variable {ν ι : Type} [DecidableEq ν] [DecidableEq ι] {me : ι} (P : Primitives)

/-- A ciphertext is as long as its plaintext and its tag, and what is too long to be encrypted
is too long under every key. -/
structure Uniform (P : Primitives) : Prop where
  aegis256 : ∀ key nonce msg ad, (P.aegis256Encrypt key nonce msg ad).1.length = msg.length
  xchacha : ∀ key nonce msg aad ct, P.xchachaEncrypt key nonce msg aad = some ct →
    ct.length = msg.length + 16
  aesGcm : ∀ key nonce msg aad ct, P.aesGcmEncrypt key nonce msg aad = some ct →
    ct.length = msg.length + 16
  xchachaLimit : ∀ key key' nonce nonce' msg aad aad', aad.length = aad'.length →
    (P.xchachaEncrypt key nonce msg aad).isSome = (P.xchachaEncrypt key' nonce' msg aad').isSome
  aesGcmLimit : ∀ key key' nonce nonce' msg aad aad', aad.length = aad'.length →
    (P.aesGcmEncrypt key nonce msg aad).isSome = (P.aesGcmEncrypt key' nonce' msg aad').isSome

section Sealing
variable {P}

theorem sealed_again {e : Error} {o o' : Option Bytes} {body : Bytes} (h : o = some body)
    (hlimit : o.isSome = o'.isSome) : ∃ body', Outcome.ofOption e o' = .ok body' := by
  rw [h, Option.isSome_some] at hlimit
  obtain ⟨body', hbody'⟩ := Option.isSome_iff_exists.mp hlimit.symm
  exact ⟨body', by rw [hbody', Outcome.ofOption_some]⟩

theorem Uniform.primitiveSeal (hP : Uniform P) {alg : Alg} {key : Fixed 32}
    {nonce pt aad body : Bytes} (hn : nonce.length = alg.nonceLen)
    (h : primitiveSeal P alg key nonce pt aad = .ok body) :
    body.length = pt.length + tagLen alg ∧
      ∀ (key' : Fixed 32) (nonce' aad' : Bytes), nonce'.length = alg.nonceLen →
        aad'.length = aad.length → ∃ body', Aead.primitiveSeal P alg key' nonce' pt aad' = .ok body' := by
  cases alg with
  | aegis256 =>
    rw [primitiveSeal_aegis256 P key aad hn, Outcome.ok.injEq] at h
    refine ⟨?_, fun key' nonce' aad' hn' _ => ⟨_, primitiveSeal_aegis256 P key' aad' hn'⟩⟩
    rw [← h, List.length_append, hP.aegis256, Fixed.length_eq]
    rfl
  | xchacha20Poly1305 =>
    rw [primitiveSeal_xchacha P key aad hn, Outcome.ofOption_eq_ok] at h
    refine ⟨hP.xchacha _ _ _ _ _ h, fun key' nonce' aad' hn' haad => ?_⟩
    rw [primitiveSeal_xchacha P key' aad' hn']
    exact sealed_again h (hP.xchachaLimit _ _ _ _ _ _ _ haad.symm)
  | aes256Gcm =>
    rw [primitiveSeal_aesGcm P key aad hn, Outcome.ofOption_eq_ok] at h
    refine ⟨hP.aesGcm _ _ _ _ _ h, fun key' nonce' aad' hn' haad => ?_⟩
    rw [primitiveSeal_aesGcm P key' aad' hn']
    exact sealed_again h (hP.aesGcmLimit _ _ _ _ _ _ _ haad.symm)

theorem Uniform.length (hP : Uniform P) {alg : Alg} {key : DerivedKey} {keyId : Fixed 16}
    {nonce pt blob : Bytes} (hn : nonce.length = alg.nonceLen)
    (h : sealWith P nonce key keyId pt alg = .ok blob) :
    blob.length = HEADER_LEN + pt.length + tagLen alg := by
  obtain ⟨ct, hct, rfl⟩ := (sealWith_eq_ok P).mp h
  have hle : nonce.length ≤ NONCE_FIELD := hn ▸ alg.nonceLen_le
  rw [List.length_append, headerBytes_length alg keyId hle, (hP.primitiveSeal hn hct).1,
    Nat.add_assoc]

theorem Uniform.again (hP : Uniform P) {alg : Alg} {key : DerivedKey} {keyId : Fixed 16}
    {nonce pt blob : Bytes} (hn : nonce.length = alg.nonceLen)
    (h : sealWith P nonce key keyId pt alg = .ok blob) (key' : DerivedKey) (keyId' : Fixed 16)
    {nonce' : Bytes} (hn' : nonce'.length = alg.nonceLen) :
    ∃ blob', sealWith P nonce' key' keyId' pt alg = .ok blob' := by
  obtain ⟨ct, hct, -⟩ := (sealWith_eq_ok P).mp h
  have hle : nonce.length ≤ NONCE_FIELD := hn ▸ alg.nonceLen_le
  have hle' : nonce'.length ≤ NONCE_FIELD := hn' ▸ alg.nonceLen_le
  have haad : (headerBytes alg keyId' nonce').length = (headerBytes alg keyId nonce).length := by
    rw [headerBytes_length alg keyId hle, headerBytes_length alg keyId' hle']
  obtain ⟨ct', hct'⟩ := (hP.primitiveSeal hn hct).2 key'.toFixed nonce' _ hn' haad
  exact ⟨_, (sealWith_eq_ok P).mpr ⟨ct', hct', rfl⟩⟩

end Sealing

section Programs

omit [DecidableEq ν] in
/-- What `reseal` does is what `open` does, and then `seal`. -/
theorem reseal_of_readHeader (old new : DerivedKey) (newKeyId : Fixed 16) {b : Bytes} {alg : Alg}
    {header body : Bytes} (h : readHeader b = .ok (alg, header, body)) :
    (reseal P old new newKeyId b : Action ν Bytes) =
      openBlob P old b >>= fun pt => sealBlob P new newKeyId pt alg := by
  rw [reseal, h, lift_ok_bind]

omit [DecidableEq ν] in
theorem reseal_of_err (old new : DerivedKey) (newKeyId : Fixed 16) {b : Bytes} {e : Error}
    (h : readHeader b = .err e) :
    (reseal P old new newKeyId b : Action ν Bytes) = lift (.err e) ∧
      (openBlob P old b : Action ν SecretBuf) = lift (.err e) := by
  have hbody : openBody P old b = .err e := by rw [openBody, h, Outcome.err_bind]
  refine ⟨?_, ?_⟩
  · rw [reseal, h, lift_err_bind]
  · rw [openBlob, hbody, lift_err_bind]

end Programs

section Runs

def supplied : (kernel ν me).Env
  | .getrandom _, c => ∃ b, c = .ok b
  | .lockPages _, c => c = .ok ()
  | _, _ => True

theorem supplied_total (op : Call ν) : ∃ c, (supplied : (kernel ν me).Env) op c := by
  cases op with
  | lockPages n => exact ⟨Except.ok (), rfl⟩
  | getrandom n => exact ⟨Except.ok (.zero n), _, rfl⟩
  | processId => exact ⟨(0 : Nat), trivial⟩
  | write f data => exact ⟨(none : Option (Fault × Nat)), trivial⟩
  | close f => exact ⟨(), trivial⟩
  | _ => exact ⟨(none : Option Fault), trivial⟩

variable {P} {E : (kernel ν me).Env} {old new : DerivedKey} {newKeyId : Fixed 16} {b : Bytes}
  {s s' : Process ν ι} {r : Outcome Error Bytes}

/-- A run of `reseal`: it opens the blob, and ends there with the error of `open` or calls `seal`
for the plaintext, with the algorithm of the header. -/
theorem ends_reseal (h : Ends (kernel ν me) E (reseal P old new newKeyId b) s r s') :
    ∃ ro t, Ends (kernel ν me) E (openBlob P old b) s ro t ∧
      ((∃ e, ro = .err e ∧ r = .err e) ∨
        ∃ pt alg, ro = .ok pt ∧ openBody P old b = .ok pt ∧
          readHeader b = .ok (alg, b.take HEADER_LEN, b.drop HEADER_LEN) ∧
          Steps (kernel ν me) E (reseal P old new newKeyId b, s) (sealBlob P new newKeyId pt alg, t) ∧
          Ends (kernel ν me) E (sealBlob P new newKeyId pt alg) t r s') := by
  have herr : ∀ e, readHeader b = .err e → ∃ ro t, Ends (kernel ν me) E (openBlob P old b) s ro t ∧
      ∃ e, ro = .err e ∧ r = .err e := by
    intro e he
    obtain ⟨hreseal, hopen⟩ := reseal_of_err (ν := ν) P old new newKeyId he
    rw [hreseal] at h
    obtain ⟨rfl, rfl⟩ := ends_done h
    refine ⟨.err e, s', ?_, e, rfl, rfl⟩
    rw [hopen]
    exact Steps.refl _
  by_cases hb : IsBlob b
  · rcases readHeader_cases hb with he | ⟨alg, hread⟩
    · obtain ⟨ro, t, hopen, hro⟩ := herr _ he
      exact ⟨ro, t, hopen, .inl hro⟩
    · rw [reseal_of_readHeader P old new newKeyId hread] at h ⊢
      obtain ⟨ro, t, hopen, hrest⟩ := ends_andThen h
      refine ⟨ro, t, hopen, ?_⟩
      have hverdict := openBody_of_isBlob P old hb
      rcases openBlob_cases P hopen with rfl | ⟨pt, e, hpt, rfl, -⟩
      · rcases hverdict with ha | ⟨pt, hpt⟩
        · rw [ha] at hrest ⊢
          exact .inl ⟨_, rfl, (ends_done hrest).1⟩
        · rw [hpt] at hopen hrest ⊢
          exact .inr ⟨pt, alg, rfl, rfl, hread, hopen.steps_bind _, hrest⟩
      · exact .inl ⟨_, rfl, (ends_done hrest).1⟩
  · obtain ⟨m, hm⟩ := readHeader_of_not_isBlob hb
    obtain ⟨ro, t, hopen, hro⟩ := herr _ hm
    exact ⟨ro, t, hopen, .inl hro⟩

end Runs

/-! ## Along a list of keys -/

section Chains
variable (me) (calls : List Sealed)

/-- The history has the call of `seal` under `key` that a run of `p` ends in and that returns `b`. -/
def Recorded (p : Action ν Bytes) (key : DerivedKey) (b : Bytes) (s s' : Process ν ι) : Prop :=
  ∀ c : Sealed, c.key = key → c.blob = b → ∀ t,
    Steps (kernel ν me) anything (p, s) (sealBlob P c.key c.keyId c.plaintext c.alg, t) →
    Ends (kernel ν me) anything (sealBlob P c.key c.keyId c.plaintext c.alg) t (.ok b) s' → c ∈ calls

/-- Runs of `reseal`, each on the blob and with the key of the one before. -/
inductive Chain : DerivedKey → Bytes → List (DerivedKey × Fixed 16) → DerivedKey → Bytes → Prop
  | nil (key : DerivedKey) (b : Bytes) : Chain key b [] key b
  | cons {old new last : DerivedKey} {newKeyId : Fixed 16} {b b' final : Bytes}
      {links : List (DerivedKey × Fixed 16)} {s s' : Process ν ι}
      (run : Ends (kernel ν me) anything (reseal P old new newKeyId b) s (.ok b') s')
      (recorded : Recorded me P calls (reseal P old new newKeyId b) new b' s s')
      (rest : Chain new b' links last final) :
      Chain old b ((new, newKeyId) :: links) last final

structure Moved (c : Sealed) (links : List (DerivedKey × Fixed 16)) (key : DerivedKey) (b : Bytes) :
    Prop where
  alg : readHeader b = .ok (c.alg, b.take HEADER_LEN, b.drop HEADER_LEN)
  length : b.length = c.blob.length
  last : key = (links.getLast?.map Prod.fst).getD c.key
  keyId : blobKeyId b = .ok ((links.getLast?.map Prod.snd).getD c.keyId).toList
  opens : openBody P key b = .ok c.plaintext

def FreshNonces : Prop :=
  ∀ c ∈ calls, ∀ d ∈ calls, c.encryption.nonce = d.encryption.nonce → c = d

variable {P me calls}

theorem moved_self (hc : ∀ c ∈ calls, c.Returned (ν := ν) P me)
    (hP : Ideal P (calls.map Sealed.encryption)) {c : Sealed} (h : c ∈ calls) :
    Moved P c [] c.key c.blob where
  alg := (hc c h).readHeader
  length := rfl
  last := rfl
  keyId := by
    obtain ⟨nonce, ct, hn, hb, -⟩ := (hc c h).made
    rw [hb]
    exact blobKeyId_headerBytes c.alg c.keyId (hn ▸ c.alg.nonceLen_le) ct
  opens := (hc c h).openBody hP.decrypts (List.mem_map.mpr ⟨c, h, rfl⟩)

/-- What `reseal` returned, a `seal` returned that the history has, of what the old blob opens to. -/
theorem Recorded.call {old new : DerivedKey} {newKeyId : Fixed 16} {b b' : Bytes}
    {s s' : Process ν ι} (run : Ends (kernel ν me) anything (reseal P old new newKeyId b) s (.ok b') s')
    (hr : Recorded me P calls (reseal P old new newKeyId b) new b' s s') :
    ∃ pt alg, openBody P old b = .ok pt ∧
      readHeader b = .ok (alg, b.take HEADER_LEN, b.drop HEADER_LEN) ∧
      ⟨new, newKeyId, pt, alg, b'⟩ ∈ calls := by
  obtain ⟨ro, t, -, ⟨e, -, he⟩ | ⟨pt, alg, -, hpt, hread, hsteps, hseal⟩⟩ := ends_reseal run
  · cases he
  · exact ⟨pt, alg, hpt, hread, hr ⟨new, newKeyId, pt, alg, b'⟩ rfl rfl t hsteps hseal⟩

/-- Of a blob that `seal` returned, that is the same plaintext, with the same algorithm. -/
theorem Recorded.again (hc : ∀ c ∈ calls, c.Returned (ν := ν) P me)
    (hP : Ideal P (calls.map Sealed.encryption)) {c : Sealed} (h : c ∈ calls) {new : DerivedKey}
    {newKeyId : Fixed 16} {b' : Bytes} {s s' : Process ν ι}
    (run : Ends (kernel ν me) anything (reseal P c.key new newKeyId c.blob) s (.ok b') s')
    (hr : Recorded me P calls (reseal P c.key new newKeyId c.blob) new b' s s') :
    ⟨new, newKeyId, c.plaintext, c.alg, b'⟩ ∈ calls := by
  obtain ⟨pt, alg, hpt, hread, hm⟩ := hr.call run
  have hself := moved_self hc hP h
  obtain rfl := Outcome.ok.inj (hpt.symm.trans hself.opens)
  have halg := Outcome.ok.inj (hread.symm.trans hself.alg)
  rw [Prod.mk.injEq] at halg
  exact halg.1 ▸ hm

theorem Moved.step (hc : ∀ c ∈ calls, c.Returned (ν := ν) P me) (hU : Uniform P) {c d : Sealed}
    (h : c ∈ calls) (hd : d ∈ calls) (halg : d.alg = c.alg) (hpt : d.plaintext = c.plaintext)
    {links : List (DerivedKey × Fixed 16)} {key : DerivedKey} {b : Bytes}
    (hmoved : Moved P d links key b) : Moved P c ((d.key, d.keyId) :: links) key b where
  alg := halg ▸ hmoved.alg
  length := by
    obtain ⟨n, hn, hs⟩ := (hc c h).sealWith
    obtain ⟨n', hn', hs'⟩ := (hc d hd).sealWith
    rw [hmoved.length, hU.length hn hs, hU.length hn' hs', halg, hpt]
  last := by
    rw [hmoved.last, List.getLast?_cons]
    cases links.getLast? <;> rfl
  keyId := by
    rw [hmoved.keyId, List.getLast?_cons]
    cases links.getLast? <;> rfl
  opens := hpt ▸ hmoved.opens

theorem Chain.moved (hc : ∀ c ∈ calls, c.Returned (ν := ν) P me)
    (hP : Ideal P (calls.map Sealed.encryption)) (hU : Uniform P) {c : Sealed} (h : c ∈ calls)
    {links : List (DerivedKey × Fixed 16)} {key : DerivedKey} {b : Bytes}
    (hchain : Chain (ν := ν) me P calls c.key c.blob links key b) : Moved P c links key b := by
  generalize hk : c.key = k, hb : c.blob = b0 at hchain
  induction hchain generalizing c with
  | nil => exact hk ▸ hb ▸ moved_self hc hP h
  | cons run recorded rest ih =>
    subst hk hb
    have hd := recorded.again hc hP h run
    exact (ih hd rfl rfl).step hc hU h hd rfl rfl

/-- What opened was sealed once, so it is not too long to be sealed again. -/
theorem sealWith_of_opened (hc : ∀ c ∈ calls, c.Returned (ν := ν) P me)
    (hP : Ideal P (calls.map Sealed.encryption)) (hU : Uniform P) {old : DerivedKey} {b : Bytes}
    {pt : SecretBuf} {alg : Alg} {header body : Bytes} (hpt : openBody P old b = .ok pt)
    (hread : readHeader b = .ok (alg, header, body)) (new : DerivedKey) (newKeyId : Fixed 16)
    (nonce : Fixed alg.nonceLen) : ∃ b', sealWith P nonce.toList new newKeyId pt alg = .ok b' := by
  obtain ⟨c, hmem, -, rfl, rfl⟩ := (openBody_eq_ok_iff P hc hP old b pt).mp hpt
  have halg := (hc c hmem).readHeader
  rw [hread] at halg
  cases halg
  obtain ⟨n, hn, hs⟩ := (hc c hmem).sealWith
  exact hU.again hn hs new newKeyId nonce.length_eq

/-- Where the system supplies random bytes and locked pages, `reseal` succeeds on what opens,
and otherwise returns the error of `open`. -/
theorem reseal_supplied (hc : ∀ c ∈ calls, c.Returned (ν := ν) P me)
    (hP : Ideal P (calls.map Sealed.encryption)) (hU : Uniform P) {old new : DerivedKey}
    {newKeyId : Fixed 16} {b : Bytes} {s s' : Process ν ι} {r : Outcome Error Bytes}
    (h : Ends (kernel ν me) supplied (reseal P old new newKeyId b) s r s') :
    (∃ b', r = .ok b' ∧ ∃ pt, openBody P old b = .ok pt) ∨
      ∃ e, r = .err e ∧ openBody P old b = .err e := by
  obtain ⟨ro, t, hopen, hcases⟩ := ends_reseal h
  rcases hcases with ⟨e, rfl, rfl⟩ | ⟨pt, alg, rfl, hpt, hread, -, hseal⟩
  · rcases openBlob_cases P hopen with hr | ⟨pt, e', -, -, x, t, hx, he⟩
    · exact .inr ⟨e, rfl, hr.symm⟩
    · have hx' : x = .ok () := hx
      rw [hx'] at he
      cases he
  · rcases sealBlob_cases P hseal with ⟨nonce, hr⟩ | ⟨e, -, x, t, ⟨y, hx⟩, he⟩
    · obtain ⟨b', hb'⟩ := sealWith_of_opened hc hP hU hpt hread new newKeyId nonce
      exact .inl ⟨b', hr.trans hb', pt, hpt⟩
    · rw [hx] at he
      cases he

/-- In any environment, an error of `open` is the error of `reseal`, and what opens is resealed
unless no random bytes are drawn. -/
theorem reseal_anything (hc : ∀ c ∈ calls, c.Returned (ν := ν) P me)
    (hP : Ideal P (calls.map Sealed.encryption)) (hU : Uniform P) {old new : DerivedKey}
    {newKeyId : Fixed 16} {b : Bytes} {s s' : Process ν ι} {r : Outcome Error Bytes}
    (h : Ends (kernel ν me) anything (reseal P old new newKeyId b) s r s') :
    ∃ ro t, Ends (kernel ν me) anything (openBlob P old b) s ro t ∧
      ((∃ e, ro = .err e ∧ r = .err e) ∨ ∃ pt, ro = .ok pt ∧ ((∃ b', r = .ok b') ∨
        ∃ e, r = .err (.hardening (.text ("getrandom failed: " ++ e))))) := by
  obtain ⟨ro, t, hopen, hcases⟩ := ends_reseal h
  refine ⟨ro, t, hopen, ?_⟩
  rcases hcases with he | ⟨pt, alg, rfl, hpt, hread, -, hseal⟩
  · exact .inl he
  · refine .inr ⟨pt, rfl, ?_⟩
    rcases sealBlob_cases P hseal with ⟨nonce, hr⟩ | ⟨e, he, -⟩
    · obtain ⟨b', hb'⟩ := sealWith_of_opened hc hP hU hpt hread new newKeyId nonce
      exact .inl ⟨b', hr.trans hb'⟩
    · exact .inr ⟨e, he⟩

/-- Where no two seals drew the same nonce, a blob opens under one key. -/
theorem key_eq_of_opens (hc : ∀ c ∈ calls, c.Returned (ν := ν) P me)
    (hP : Unforgeable P (calls.map Sealed.encryption)) (hfresh : FreshNonces calls) {d : Sealed}
    (h : d ∈ calls) {key : DerivedKey} {pt : Bytes} (hopen : openBody P key d.blob = .ok pt) :
    key = d.key := by
  obtain ⟨c, hmem, hkey, -, hb⟩ := exists_call_of_openBody hP hopen
  have hread := (hc c hmem).readHeader
  rw [hb, (hc d h).readHeader] at hread
  have halg := Outcome.ok.inj hread
  rw [Prod.mk.injEq] at halg
  have hsame := hfresh c hmem d h (by rw [Sealed.encryption, Sealed.encryption, halg.1, hb])
  exact hkey.symm.trans (congrArg Sealed.key hsame)

theorem not_open_under_old (hc : ∀ c ∈ calls, c.Returned (ν := ν) P me)
    (hP : Unforgeable P (calls.map Sealed.encryption)) (hfresh : FreshNonces calls)
    {old new : DerivedKey} {newKeyId : Fixed 16} {b b' : Bytes} {s s' : Process ν ι} (hne : new ≠ old)
    (run : Ends (kernel ν me) anything (reseal P old new newKeyId b) s (.ok b') s')
    (hr : Recorded me P calls (reseal P old new newKeyId b) new b' s s') :
    openBody P old b' = .err .auth := by
  obtain ⟨pt, alg, -, -, hm⟩ := hr.call run
  rcases openBody_of_isBlob P old (isBlob_of_readHeader (hc _ hm).readHeader) with h | ⟨pt', h⟩
  · exact h
  · exact absurd (key_eq_of_opens hc hP hfresh hm h).symm hne

/-- A chain of reseals moves the key and nothing else, and at each step `reseal` succeeds exactly
where `open` does, as long as random bytes and locked pages are supplied. -/
theorem reseal_moves_key_only (hc : ∀ c ∈ calls, c.Returned (ν := ν) P me)
    (hP : Ideal P (calls.map Sealed.encryption)) (hU : Uniform P) :
    (∀ c ∈ calls, ∀ links key b, Chain (ν := ν) me P calls c.key c.blob links key b →
      Moved P c links key b ∧ ∀ new newKeyId s r s',
        Ends (kernel ν me) supplied (reseal P key new newKeyId b) s r s' → ∃ b', r = .ok b') ∧
    (∀ old new newKeyId b s,
      (∃ r s', Ends (kernel ν me) supplied (reseal P old new newKeyId b) s r s') ∧
      ∀ r s', Ends (kernel ν me) supplied (reseal P old new newKeyId b) s r s' →
        ((∃ b', r = .ok b') ↔ ∃ pt, openBody P old b = .ok pt) ∧
        ∀ e, r = .err e ↔ openBody P old b = .err e) ∧
    (∀ old new newKeyId b s r s',
      Ends (kernel ν me) anything (reseal P old new newKeyId b) s r s' →
      ∃ ro t, Ends (kernel ν me) anything (openBlob P old b) s ro t ∧
        ((∃ e, ro = .err e ∧ r = .err e) ∨ ∃ pt, ro = .ok pt ∧ ((∃ b', r = .ok b') ∨
          ∃ e, r = .err (.hardening (.text ("getrandom failed: " ++ e)))))) ∧
    (FreshNonces calls → ∀ old new newKeyId b b' s s', new ≠ old →
      Ends (kernel ν me) anything (reseal P old new newKeyId b) s (.ok b') s' →
      Recorded me P calls (reseal P old new newKeyId b) new b' s s' →
      openBody P old b' = .err .auth) := by
  refine ⟨fun c h links key b hchain => ?_, fun old new newKeyId b s => ⟨?_, fun r s' h => ?_⟩,
    fun old new newKeyId b s r s' h => reseal_anything hc hP hU h,
    fun hfresh old new newKeyId b b' s s' hne run hr =>
      not_open_under_old hc hP.toUnforgeable hfresh hne run hr⟩
  · have hmoved := hchain.moved hc hP hU h
    refine ⟨hmoved, fun new newKeyId s r s' hrun => ?_⟩
    rcases reseal_supplied hc hP hU hrun with ⟨b', hr, -⟩ | ⟨e, -, he⟩
    · exact ⟨b', hr⟩
    · rw [hmoved.opens] at he
      cases he
  · exact exists_ends supplied_total _ s
  · rcases reseal_supplied hc hP hU h with ⟨b', rfl, pt, hpt⟩ | ⟨e, rfl, he⟩
    · simp [hpt]
    · simp [he]

/-- A blob of XChaCha20-Poly1305 and what it is resealed to, twice. -/
def sampleLink (x : UInt8) : Sealed where
  key := ⟨List.replicate 32 (7 + x), rfl⟩
  keyId := ⟨List.replicate 16 x, rfl⟩
  plaintext := [2, 1, 2]
  alg := .xchacha20Poly1305
  blob := transparentBlob .xchacha20Poly1305 ⟨List.replicate 16 x, rfl⟩ (List.replicate 24 (9 + x)) [2, 1, 2]

def sampleResealed : List Sealed := sampleLink 1 :: sampleLink 2 :: sampleSealed

theorem transparent_uniform (kdf : Bytes → Bytes → Bytes → Fixed 32) (made : Encryption → Bool) :
    Uniform (transparent kdf made) where
  aegis256 _ _ _ _ := rfl
  xchacha _ _ msg _ ct h := by
    cases h
    simp
  aesGcm _ _ msg _ ct h := by
    cases h
    simp
  xchachaLimit _ _ _ _ _ _ _ _ := rfl
  aesGcmLimit _ _ _ _ _ _ _ _ := rfl

theorem transparent_returned (kdf : Bytes → Bytes → Bytes → Fixed 32) (made : Encryption → Bool)
    {c : Sealed} {nonce : Bytes} (hn : nonce.length = c.alg.nonceLen)
    (hb : c.blob = transparentBlob c.alg c.keyId nonce c.plaintext) :
    c.Returned (ν := ν) (transparent kdf made) me := by
  refine ⟨.start, .start, .step (Except.ok ⟨nonce, hn⟩) trivial ?_⟩
  rw [hb, ← transparent_sealWith kdf made c.key c.keyId c.plaintext c.alg hn]
  exact Steps.refl _

theorem transparentBlob_inj {alg alg' : Alg} {keyId keyId' : Fixed 16} {nonce nonce' pt pt' : Bytes}
    (hn : nonce.length = alg.nonceLen) (hn' : nonce'.length = alg'.nonceLen)
    (h : transparentBlob alg keyId nonce pt = transparentBlob alg' keyId' nonce' pt') :
    alg = alg' ∧ keyId = keyId' ∧ pt = pt' := by
  have hle : nonce.length ≤ NONCE_FIELD := hn ▸ alg.nonceLen_le
  have hle' : nonce'.length ≤ NONCE_FIELD := hn' ▸ alg'.nonceLen_le
  have hread := readHeader_headerBytes alg keyId hle (pt ++ List.replicate (tagLen alg) 0)
  have hid := blobKeyId_headerBytes alg keyId hle (pt ++ List.replicate (tagLen alg) 0)
  unfold transparentBlob at h
  rw [h, readHeader_headerBytes alg' keyId' hle', Outcome.ok.injEq, Prod.mk.injEq, Prod.mk.injEq] at hread
  rw [h, blobKeyId_headerBytes alg' keyId' hle', Outcome.ok.injEq] at hid
  obtain ⟨rfl, -, hbody⟩ := hread
  exact ⟨rfl, Fixed.ext hid.symm, (List.append_cancel_right hbody).symm⟩

/-- Of these ciphers the blob tells what was sealed. -/
theorem transparent_recorded (kdf : Bytes → Bytes → Bytes → Fixed 32) (made : Encryption → Bool)
    {c : Sealed} (h : c ∈ calls) {nonce : Bytes} (hn : nonce.length = c.alg.nonceLen)
    (hb : c.blob = transparentBlob c.alg c.keyId nonce c.plaintext) (p : Action ν Bytes)
    (s s' : Process ν ι) : Recorded me (transparent kdf made) calls p c.key c.blob s s' := by
  intro d hkey hblob t _ hseal
  have hreturned : d.Returned (ν := ν) (transparent kdf made) me := ⟨t, s', hblob ▸ hseal⟩
  obtain ⟨nonce', hn', hs⟩ := hreturned.sealWith
  rw [transparent_sealWith kdf made d.key d.keyId d.plaintext d.alg hn', Outcome.ok.injEq, hblob, hb] at hs
  obtain ⟨halg, hid, hpt⟩ := transparentBlob_inj hn' hn hs
  have hd : d = c := by
    cases c
    cases d
    simp only at hkey hblob halg hid hpt
    rw [hkey, hblob, halg, hid, hpt]
  exact hd ▸ h

theorem sampleResealed_made : ∀ c ∈ sampleResealed, ∃ nonce : Bytes, nonce.length = c.alg.nonceLen ∧
    c.blob = transparentBlob c.alg c.keyId nonce c.plaintext := by
  have hnonces : ∀ c ∈ sampleResealed, ∃ nonce ∈ [List.replicate 24 10, List.replicate 24 11,
      List.replicate 32 9, List.replicate 24 9, List.replicate 12 9], nonce.length = c.alg.nonceLen ∧
        c.blob = transparentBlob c.alg c.keyId nonce c.plaintext := by
    decide +kernel
  intro c h
  obtain ⟨nonce, -, hmade⟩ := hnonces c h
  exact ⟨nonce, hmade⟩

theorem sampleResealed_returned : ∀ c ∈ sampleResealed, c.Returned (ν := Unit)
    (transparent (fun _ _ _ => .zero 32) (· ∈ sampleResealed.map Sealed.encryption)) () := by
  intro c h
  obtain ⟨nonce, hn, hb⟩ := sampleResealed_made c h
  exact transparent_returned _ _ hn hb

theorem reseal_moves_key_only_sample :
    let P := transparent (fun _ _ _ => .zero 32) (· ∈ sampleResealed.map Sealed.encryption)
    let key (x : UInt8) : DerivedKey := ⟨List.replicate 32 (7 + x), rfl⟩
    let keyId (x : UInt8) : Fixed 16 := ⟨List.replicate 16 x, rfl⟩
    let b (x : UInt8) := transparentBlob .xchacha20Poly1305 (keyId x) (List.replicate 24 (9 + x)) [2, 1, 2]
    Chain (ν := Unit) () P sampleResealed (key 0) (b 0) [(key 1, keyId 1), (key 2, keyId 2)] (key 2) (b 2) ∧
      blobKeyId (b 2) = .ok (keyId 2).toList ∧ openBody P (key 2) (b 2) = .ok [2, 1, 2] ∧
      (∃ b' s', Ends (kernel Unit ()) supplied (reseal P (key 2) (key 0) (keyId 0) (b 2)) .start
        (.ok b') s') ∧
      openBody P (key 0) (b 1) = .err .auth ∧ openBody P (key 1) (b 2) = .err .auth := by
  intro P key keyId b
  have hc : ∀ c ∈ sampleResealed, c.Returned (ν := Unit) P () := sampleResealed_returned
  have hP : Ideal P (sampleResealed.map Sealed.encryption) := transparent_ideal _ _
  have hrun : ∃ s1, Ends (kernel Unit ()) anything (reseal P (key 0) (key 1) (keyId 1) (b 0)) .start
      (.ok (b 1)) s1 :=
    ends_of_play (drawing 10) (fun _ => trivial) (by decide +kernel)
  have hrun' : ∃ s2, Ends (kernel Unit ()) anything (reseal P (key 1) (key 2) (keyId 2) (b 1)) .start
      (.ok (b 2)) s2 :=
    ends_of_play (drawing 11) (fun _ => trivial) (by decide +kernel)
  obtain ⟨s1, hrun⟩ := hrun
  obtain ⟨s2, hrun'⟩ := hrun'
  have hmem : sampleLink 1 ∈ sampleResealed := List.mem_cons_self
  have hmem' : sampleLink 2 ∈ sampleResealed := List.mem_cons_of_mem _ List.mem_cons_self
  have hnonce : (List.replicate 24 (10 : UInt8)).length = (sampleLink 1).alg.nonceLen := rfl
  have hnonce' : (List.replicate 24 (11 : UInt8)).length = (sampleLink 2).alg.nonceLen := rfl
  have hrec : Recorded () P sampleResealed (reseal P (key 0) (key 1) (keyId 1) (b 0)) (key 1) (b 1) .start s1 :=
    transparent_recorded _ _ hmem hnonce rfl _ _ _
  have hrec' : Recorded () P sampleResealed (reseal P (key 1) (key 2) (keyId 2) (b 1)) (key 2) (b 2) .start s2 :=
    transparent_recorded _ _ hmem' hnonce' rfl _ _ _
  have hchain : Chain (ν := Unit) () P sampleResealed (key 0) (b 0)
      [(key 1, keyId 1), (key 2, keyId 2)] (key 2) (b 2) :=
    .cons hrun hrec (.cons hrun' hrec' (.nil (key 2) (b 2)))
  have hall := reseal_moves_key_only hc hP (transparent_uniform _ _)
  have hfirst : (⟨key 0, keyId 0, [2, 1, 2], .xchacha20Poly1305, b 0⟩ : Sealed) ∈ sampleResealed := by
    decide +kernel
  obtain ⟨hmoved, hagain⟩ := hall.1 _ hfirst _ _ _ hchain
  obtain ⟨r, s', hends⟩ := (hall.2.1 (key 2) (key 0) (keyId 0) (b 2) .start).1
  obtain ⟨b', rfl⟩ := hagain (key 0) (keyId 0) _ _ _ hends
  have hfresh : FreshNonces sampleResealed := by
    unfold FreshNonces
    decide +kernel
  exact ⟨hchain, hmoved.keyId, hmoved.opens, ⟨b', s', hends⟩,
    hall.2.2.2 hfresh _ _ _ _ _ _ _ (by decide +kernel) hrun hrec,
    hall.2.2.2 hfresh _ _ _ _ _ _ _ (by decide +kernel) hrun' hrec'⟩

/-- A blob that opens is not resealed when no random bytes are drawn. -/
theorem reseal_needs_random_bytes :
    let P := transparent (fun _ _ _ => .zero 32) (· ∈ sampleResealed.map Sealed.encryption)
    let old : DerivedKey := ⟨List.replicate 32 7, rfl⟩
    let b := transparentBlob .aegis256 (.zero 16) (List.replicate 32 9) [1, 1, 2]
    openBody P old b = .ok [1, 1, 2] ∧
      ∃ s', Ends (kernel Unit ()) locksPages (reseal P old old (.zero 16) b) .start
        (.err (.hardening "getrandom failed: no entropy")) s' := by
  intro P old b
  have hopens : openBody P old b = .ok [1, 1, 2] := by decide +kernel
  have hread : readHeader b = .ok (.aegis256, b.take HEADER_LEN, b.drop HEADER_LEN) := by
    decide +kernel
  refine ⟨hopens, .start, ?_⟩
  rw [reseal_of_readHeader P old old (.zero 16) hread, openBlob, hopens]
  -- the pages of the plaintext are locked, then the draw of the nonce fails
  exact .step (Except.ok ()) rfl (.step (Except.error "no entropy") trivial (Steps.refl _))

end Chains
end Krypto.Aead
