import Krypto.Store.Failure

/-! A value is bound to its name and to its generation: what a file holds, however
it was put together, is read only where a store sealed it. -/

namespace Krypto.Store
open Effect

structure Derivation where
  master : MasterKey
  salt : Fixed 16
  info : Bytes
  deriving DecidableEq

def Derivation.dek (P : Primitives) (u : Derivation) : DerivedKey :=
  u.master.okm P u.info u.salt.toList

def derivation (g : Generation) (name : Str) : Derivation :=
  ⟨g.master, g.salt, SecretStore.dekInfo name⟩

/-- A secret that `put` or `rotate` sealed, and the blob. -/
structure StoreSeal where
  generation : Generation
  name : Str
  plaintext : SecretBuf
  blob : Bytes
  deriving DecidableEq

namespace StoreSeal
variable {ι : Type} [DecidableEq ι]

def call (P : Primitives) (x : StoreSeal) : Aead.Sealed where
  key := x.generation.dek P x.name
  keyId := x.generation.keyId
  plaintext := x.plaintext
  alg := .aegis256
  blob := x.blob

/-- Some run of what `put` and `rotate` do with each secret returned the blob. -/
def Returned (P : Primitives) (me : ι) (x : StoreSeal) : Prop :=
  ValidName x.name ∧ ∃ st : SecretStore, st.generation = x.generation ∧
    ∃ p p', Ends (kernel Bytes me) anything (st.sealUnder P x.name x.plaintext) p (.ok x.blob) p'

theorem Returned.seals {P : Primitives} {me : ι} {x : StoreSeal} (h : x.Returned P me) :
    x.generation.Seals P x.name x.plaintext x.blob := by
  obtain ⟨hname, st, hst, p, p', hends⟩ := h
  rcases (private_ends (SecretStore.sealUnder_quiet P st hname x.plaintext) hends).1 with ⟨blob, hb, hseal⟩ | hr
  · cases hb
    rw [hst] at hseal
    exact hseal
  · exact absurd rfl (hr.not_ok x.blob)

end StoreSeal

section Secure
variable {ι : Type} [DecidableEq ι] {me : ι} {P : Primitives}

theorem dekInfo_injective : Function.Injective SecretStore.dekInfo :=
  fun _ _ h => Str.asBytes_injective (List.append_cancel_left h)

/-- Nothing decrypts but what was encrypted, the derivations that are used collide nowhere, and
keys of names encrypt only what stores seal. -/
structure Unforged (P : Primitives) (made : List Aead.Encryption) (seals : List StoreSeal)
    (used : Derivation → Prop) : Prop where
  unforgeable : Aead.Unforgeable P made
  collisionFree : ∀ u v, used u → used v → u.dek P = v.dek P → u = v
  derived : ∀ x ∈ seals, used (derivation x.generation x.name)
  stores : ∀ e ∈ made, ∀ g name, used (derivation g name) → e.key = (g.dek P name).toFixed →
    ∃ x ∈ seals, e = (x.call P).encryption

structure Secure (P : Primitives) (me : ι) (made : List Aead.Encryption) (seals : List StoreSeal)
    (used : Derivation → Prop) : Prop extends Unforged P made seals used where
  returned : ∀ x ∈ seals, x.Returned P me

variable {made : List Aead.Encryption} {seals : List StoreSeal} {used : Derivation → Prop}

/-- What is read was sealed: from this derivation, and into this blob. -/
theorem Unforged.seal_of_verdict (hs : Unforged P made seals used) {g : Generation} {name : Str}
    (hu : used (derivation g name)) {blob pt : Bytes} (h : g.verdict P name blob = .ok pt) :
    Aead.blobKeyId blob = .ok g.keyId.toList ∧ ∃ x ∈ seals,
      derivation g name = derivation x.generation x.name ∧ pt = x.plaintext ∧ blob = x.blob := by
  unfold Generation.verdict at h
  obtain ⟨id, hid, h⟩ := Outcome.bind_eq_ok.mp h
  split_ifs at h with hne
  obtain ⟨alg, hread, hmade⟩ := Aead.openBody_made hs.unforgeable h
  obtain ⟨x, hx, he⟩ := hs.stores _ hmade g name hu rfl
  simp only [Aead.Sealed.encryption, Aead.Encryption.mk.injEq] at he
  obtain ⟨-, hkey, -, haad, hpt, hbody⟩ := he
  have hblob : blob = x.blob := by
    have happend := List.take_append_drop Aead.HEADER_LEN blob
    rw [haad, hbody] at happend
    exact happend.symm.trans (List.take_append_drop _ _)
  have hder := hs.collisionFree _ _ hu (hs.derived x hx) (DerivedKey.toFixed_inj hkey)
  exact ⟨not_not.mp hne ▸ hid, x, hx, hder, hpt, hblob⟩

theorem blobKeyId_of_seals {g : Generation} {name : Str} {pt blob : Bytes}
    (h : g.Seals P name pt blob) : Aead.blobKeyId blob = .ok g.keyId.toList := by
  obtain ⟨nonce, hseal⟩ := h
  obtain ⟨ct, -, rfl⟩ := (Aead.sealWith_eq_ok P).mp hseal
  exact Aead.blobKeyId_headerBytes .aegis256 g.keyId (Nat.le_of_eq nonce.length_eq) ct

theorem Secure.sealed_of_verdict (hs : Secure P me made seals used) {g : Generation} {name : Str}
    (hu : used (derivation g name)) {blob pt : Bytes} (h : g.verdict P name blob = .ok pt) :
    (⟨g, name, pt, blob⟩ : StoreSeal) ∈ seals := by
  obtain ⟨hid, x, hx, hder, rfl, rfl⟩ := hs.seal_of_verdict hu h
  simp only [derivation, Derivation.mk.injEq] at hder
  obtain ⟨hmaster, hsalt, hinfo⟩ := hder
  have hkeyId : g.keyId = x.generation.keyId := by
    have hblobId := blobKeyId_of_seals (hs.returned x hx).seals
    rw [hid, Outcome.ok.injEq] at hblobId
    exact Fixed.ext hblobId
  have hgen : g = x.generation := Generation.ext hmaster hsalt hkeyId
  rw [hgen, dekInfo_injective hinfo]
  exact hx

theorem get_ends {st : SecretStore} {name : Str} (hv : name ∈ st.entries → ValidName name)
    {E : (kernel Bytes me).Env} {p p' : Process Bytes ι} {r : Outcome Error SecretBuf}
    (h : Ends (kernel Bytes me) E (st.get P name) p r p') :
    r = st.read P name ∨ SecretStore.Refused (Unlocked ((kernel Bytes me).Answers E)) r :=
  (private_ends (SecretStore.get_quiet P st hv) h).1

/-- However a file was put together: `get` gives a value only where a store sealed it under this
name, master key, salt and key id. What else stands under the name is an error, and for a blob it
is `Auth`, or a hardening error when pages cannot be locked. -/
theorem get_bound_to_name (hs : Secure P me made seals used) (d : Slice) {c : Contents}
    (hc : load d.bytes = .ok c) (path : Bytes) (master : MasterKey) (lock : Option Nat) (name : Str)
    (hu : used (derivation ⟨master, c.salt, c.keyId⟩ name)) (E : (kernel Bytes me).Env)
    (p p' : Process Bytes ι) (r : Outcome Error SecretBuf)
    (h : Ends (kernel Bytes me) E
      (SecretStore.get P { c with path, master, lock } name) p r p') :
    (∀ pt, r = .ok pt → ∃ blob, c.entries.lookup name = some blob ∧
      (⟨⟨master, c.salt, c.keyId⟩, name, pt, blob⟩ : StoreSeal) ∈ seals) ∧
    ∀ blob, c.entries.lookup name = some blob → (∀ pt, r ≠ .ok pt) → (∃ e, r = .err e) ∧
      (Aead.IsBlob blob → r = .err .auth ∨
        Unlocked ((kernel Bytes me).Answers E) ∧ ∃ m, r = .err (.hardening m)) := by
  have hv := load_valid d.length_lt hc
  have hr := get_ends (hv name) h
  constructor
  · rintro pt rfl
    rcases hr with hr | hr
    swap
    · exact absurd rfl (hr.not_ok pt)
    cases hl : c.entries.lookup name with
    | none => simp [SecretStore.read, hl] at hr
    | some blob =>
      rw [SecretStore.read_of_lookup P hl] at hr
      exact ⟨blob, rfl, hs.sealed_of_verdict hu hr.symm⟩
  · intro blob hl hno
    rcases hr with rfl | ⟨hlocks, m, rfl⟩
    swap
    · exact ⟨⟨_, rfl⟩, fun _ => Or.inr ⟨hlocks, m, rfl⟩⟩
    rw [SecretStore.read_of_lookup P hl] at hno ⊢
    rcases Generation.verdict_cases P _ name blob with ⟨hblob, m, hm⟩ | ⟨-, ha | ⟨pt, hpt⟩⟩
    · exact ⟨⟨_, hm⟩, fun hb => absurd hb hblob⟩
    · exact ⟨⟨_, ha⟩, fun _ => Or.inl ha⟩
    · exact absurd hpt (hno pt)

end Secure
/-! ## A file with a sealed entry and a forged one -/

def lastByteKdf (_ _ info : Bytes) : Fixed 32 :=
  ⟨List.replicate 32 (info.getLastD 0), List.length_replicate⟩

def sampleSeal : StoreSeal where
  generation := ⟨sampleKey, .zero 16, .zero 16⟩
  name := ['a']
  plaintext := [5]
  blob := Aead.transparentBlob .aegis256 (.zero 16) (List.replicate 32 0) [5]

def sampleMade : List Aead.Encryption :=
  [(sampleSeal.call (Aead.transparent lastByteKdf fun _ => true)).encryption]

def onceCiphers : Primitives := Aead.transparent lastByteKdf (· ∈ sampleMade)

def forgedBlob : Bytes :=
  Aead.headerBytes .aegis256 (.zero 16) (List.replicate 32 0) ++ List.replicate 40 1

def forgedEntries : List (Str × Bytes) := [(['a'], sampleSeal.blob), (['b'], forgedBlob)]

def forgedFile : Slice where
  bytes := header (.zero 16) (.zero 16) ++ forgedEntries.flatMap entryOf
  length_lt := by decide +kernel

def forgedHandle : SecretStore where
  salt := .zero 16
  keyId := .zero 16
  entries := insertAll ∅ forgedEntries
  path := samplePath
  master := sampleKey
  lock := none

theorem load_forgedFile : load forgedFile.bytes = .ok forgedHandle.toContents := by
  refine load_entries ?_ (by decide) forgedFile.length_lt
  intro e he
  have hname : validateName e.1 = .ok () ∧ e.2.length < 2 ^ 32 := by
    revert e
    decide +kernel
  exact ⟨validateName_eq_ok.mp hname.1, hname.2⟩

theorem sampleSeal_returned : sampleSeal.Returned onceCiphers () := by
  refine ⟨validateName_eq_ok.mp rfl, forgedHandle, rfl, (Process.start : Process Bytes Unit), ?_⟩
  exact ends_of_play (failing fun _ => false) (fun _ => trivial) (by decide +kernel)

def sampleUsed (u : Derivation) : Prop :=
  u = derivation forgedHandle.generation ['a'] ∨ u = derivation forgedHandle.generation ['b']

theorem once_secure : Secure onceCiphers () sampleMade [sampleSeal] sampleUsed := by
  refine ⟨⟨(Aead.transparent_ideal _ _).toUnforgeable, ?_, ?_, ?_⟩, ?_⟩
  · have hne : ((derivation forgedHandle.generation ['a']).dek onceCiphers).key ≠
        ((derivation forgedHandle.generation ['b']).dek onceCiphers).key := by decide +kernel
    rintro u v (rfl | rfl) (rfl | rfl) h
    · rfl
    · exact absurd (congrArg DerivedKey.key h) hne
    · exact absurd (congrArg DerivedKey.key h).symm hne
    · rfl
  · intro x hx
    rw [List.mem_singleton.mp hx]
    exact Or.inl rfl
  · intro e he g name hu hkey
    refine ⟨sampleSeal, List.mem_singleton_self _, ?_⟩
    rw [List.mem_singleton.mp he]
    rfl
  · intro x hx
    rw [List.mem_singleton.mp hx]
    exact sampleSeal_returned

/-- The sealed entry is read, and the forged one is refused. -/
theorem get_bound_to_name_sample :
    (∃ p', Ends (kernel Bytes ()) locksPages (forgedHandle.get onceCiphers ['a'])
      (Process.start : Process Bytes Unit) (.ok [5]) p') ∧
    (⟨⟨sampleKey, .zero 16, .zero 16⟩, ['a'], [5], sampleSeal.blob⟩ : StoreSeal) ∈ [sampleSeal] ∧
    ∃ p', Ends (kernel Bytes ()) locksPages (forgedHandle.get onceCiphers ['b'])
      (Process.start : Process Bytes Unit) (.err .auth) p' := by
  have hlocks : ∀ op, (locksPages : (kernel Bytes ()).Env) op (failing (fun _ => false) op) := by
    intro op
    cases op <;> first | rfl | trivial
  have ha : ∃ p', Ends (kernel Bytes ()) locksPages (forgedHandle.get onceCiphers ['a'])
      (Process.start : Process Bytes Unit) (.ok [5]) p' :=
    ends_of_play (failing fun _ => false) hlocks (by decide +kernel)
  have hb : ∃ p', Ends (kernel Bytes ()) locksPages (forgedHandle.get onceCiphers ['b'])
      (Process.start : Process Bytes Unit) (.err .auth) p' :=
    ends_of_play (failing fun _ => false) hlocks (by decide +kernel)
  obtain ⟨p', hends⟩ := ha
  obtain ⟨hok, -⟩ := get_bound_to_name once_secure forgedFile load_forgedFile samplePath sampleKey
    none ['a'] (Or.inl rfl) locksPages _ p' _ hends
  obtain ⟨blob, hl, hmem⟩ := hok [5] rfl
  have hblob : (some blob : Option Bytes) = some sampleSeal.blob :=
    hl.symm.trans (by decide +kernel)
  exact ⟨⟨p', hends⟩, Option.some.inj hblob ▸ hmem, hb⟩

def refusing (op : Call Bytes) : op.Choice :=
  match op with
  | .lockPages _ => Except.error "mlock failed"
  | op => failing (fun _ => false) op

/-- Where pages cannot be locked, a blob that no one sealed is a hardening error. -/
theorem forged_not_auth_unlocked :
    Secure onceCiphers () sampleMade [sampleSeal] sampleUsed ∧
    load forgedFile.bytes = .ok forgedHandle.toContents ∧
    sampleUsed (derivation forgedHandle.generation ['b']) ∧
    forgedHandle.entries.lookup ['b'] = some forgedBlob ∧ Aead.IsBlob forgedBlob ∧
    ∃ p', Ends (kernel Bytes ()) anything (forgedHandle.get onceCiphers ['b'])
      (Process.start : Process Bytes Unit) (.err (.hardening "mlock failed")) p' :=
  ⟨once_secure, load_forgedFile, Or.inr rfl, by decide +kernel, by decide +kernel,
    ends_of_play refusing (fun _ => trivial) (by decide +kernel)⟩

end Krypto.Store
