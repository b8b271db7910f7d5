import Krypto.Aead.Authentic
import Krypto.Store
import Krypto.Store.Image

/-! What a store does with its secrets: these steps make no call that leaves a
trace, so what they answer depends on the contents and on the randomness only. -/

namespace Krypto
open Effect Store

def Unlocked (A : (op : Call Bytes) → op.Reply → Prop) : Prop := ∃ n e, A (.lockPages n) (.error e)

def Starved (A : (op : Call Bytes) → op.Reply → Prop) : Prop :=
  ∃ n e, A (.getrandom n) (.error e) ∨ A (.lockPages n) (.error e)

theorem Unlocked.starved {A : (op : Call Bytes) → op.Reply → Prop} (h : Unlocked A) : Starved A := by
  obtain ⟨n, e, h⟩ := h
  exact ⟨n, e, Or.inr h⟩

@[ext] structure Generation where
  master : MasterKey
  salt : Fixed 16
  keyId : Fixed 16
  deriving DecidableEq

/-- An error the environment brought about, not the data. -/
def FromEnv (A : (op : Call Bytes) → op.Reply → Prop) (e : Error) : Prop :=
  (∃ x, e = .io x) ∨ (Starved A ∧ ∃ m, e = .hardening m)

theorem FromEnv.not_isFormat {A : (op : Call Bytes) → op.Reply → Prop} {e : Error}
    (h : FromEnv A e) : ¬e.IsFormat := by
  rcases h with ⟨x, rfl⟩ | ⟨-, m, rfl⟩ <;> exact id

namespace Generation

def dek (P : Primitives) (g : Generation) (name : Str) : DerivedKey :=
  g.master.okm P (SecretStore.dekInfo name) g.salt.toList

/-- Some `seal` under the key of `name` returns `blob` for `pt`. -/
def Seals (P : Primitives) (g : Generation) (name : Str) (pt blob : Bytes) : Prop :=
  ∃ nonce : Fixed 32, Aead.sealWith P nonce.toList (g.dek P name) g.keyId pt .aegis256 = .ok blob

def verdict (P : Primitives) (g : Generation) (name : Str) (blob : Bytes) : Outcome Error Bytes := do
  if (← Aead.blobKeyId blob) ≠ g.keyId.toList then .err .auth
  else Aead.openBody P (g.dek P name) blob

theorem Seals.verdict {P : Primitives} (hP : Aead.Correct P) {g : Generation} {name : Str}
    {pt blob : Bytes} (h : g.Seals P name pt blob) : g.verdict P name blob = .ok pt := by
  obtain ⟨nonce, hseal⟩ := h
  have hlen : nonce.toList.length = Alg.aegis256.nonceLen := nonce.length_eq
  have hopen := Aead.openBody_sealWith hP hlen hseal
  obtain ⟨ct, -, rfl⟩ := (Aead.sealWith_eq_ok P).mp hseal
  have hid := Aead.blobKeyId_headerBytes .aegis256 g.keyId (Nat.le_of_eq nonce.length_eq) ct
  have hne : ¬g.keyId.toList ≠ g.keyId.toList := not_not_intro rfl
  rw [Generation.verdict, hid, Outcome.ok_bind, if_neg hne, hopen]

theorem verdict_cases (P : Primitives) (g : Generation) (name : Str) (blob : Bytes) :
    (¬Aead.IsBlob blob ∧ ∃ m, g.verdict P name blob = .err (.format m)) ∨
      (Aead.IsBlob blob ∧
        (g.verdict P name blob = .err .auth ∨ ∃ pt, g.verdict P name blob = .ok pt)) := by
  by_cases hb : Aead.IsBlob blob
  · refine Or.inr ⟨hb, ?_⟩
    rcases Aead.blobKeyId_of_isBlob hb with he | ⟨id, he⟩
    · exact Or.inl (by simp [verdict, he])
    · by_cases hid : id ≠ g.keyId.toList
      · exact Or.inl (by simp [verdict, he, hid])
      · have hv : g.verdict P name blob = Aead.openBody P (g.dek P name) blob := by
          simp only [verdict, he, Outcome.ok_bind, if_neg hid]
        rw [hv]
        exact Aead.openBody_of_isBlob P _ hb
  · obtain ⟨m, hm⟩ := Aead.blobKeyId_of_not_isBlob hb
    exact Or.inl ⟨hb, m, by simp [verdict, hm]⟩

end Generation

namespace SecretStore
variable (P : Primitives) {A : (op : Call Bytes) → op.Reply → Prop}

def generation (self : SecretStore) : Generation := ⟨self.master, self.salt, self.keyId⟩

@[simp] theorem generation_master (self : SecretStore) : self.generation.master = self.master := rfl

@[simp] theorem generation_salt (self : SecretStore) : self.generation.salt = self.salt := rfl

@[simp] theorem generation_keyId (self : SecretStore) : self.generation.keyId = self.keyId := rfl

/-- What `get` answers when there are pages to lock. -/
def read (self : SecretStore) (name : Str) : Outcome Error Bytes := do
  let blob ← .ofOption .keyNotFound (self.entries.lookup name)
  self.generation.verdict P name blob

/-- A hardening error, under the condition `C` that the environment refuses something. -/
def Refused (C : Prop) {α : Type} (r : Outcome Error α) : Prop := C ∧ ∃ m, r = .err (.hardening m)

theorem Refused.imp {C D : Prop} {α : Type} {r : Outcome Error α} (h : Refused C r) (hCD : C → D) :
    Refused D r :=
  ⟨hCD h.1, h.2⟩

theorem Refused.not_ok {C : Prop} {α : Type} {r : Outcome Error α} (h : Refused C r) (a : α) : r ≠ .ok a := by
  obtain ⟨-, m, rfl⟩ := h
  simp

theorem bind_refused {C : Prop} {α β : Type} {p : Action Bytes α} {f : α → Action Bytes β} {S : α → Prop}
    {Q : Outcome Error β → Prop}
    (h : Quiet Call.Private A p fun r => (∃ a, r = .ok a ∧ S a) ∨ Refused C r)
    (hok : ∀ a, S a → Quiet Call.Private A (f a) Q) (href : ∀ r, Refused C r → Q r) :
    Quiet Call.Private A (p >>= f) Q := by
  refine h.bind (fun a ha => ?_) (fun e he => ?_) fun hp => ?_
  · rcases ha with ⟨a', h', hs⟩ | ha
    · cases h'
      exact hok a hs
    · exact absurd rfl (ha.not_ok a)
  · rcases he with ⟨a', h', -⟩ | ⟨hs, m, hm⟩
    · cases h'
    · cases hm
      exact href _ ⟨hs, m, rfl⟩
  · rcases hp with ⟨a', h', -⟩ | ⟨hs, m, hm⟩
    · cases h'
    · cases hm

theorem fill_starved (n : Nat) (what : String) :
    Quiet Call.Private A (fill n what) fun r => (∃ b, r = .ok b ∧ True) ∨ Refused (Starved A) r := by
  refine (fill_quiet n what).imp fun r hr => ?_
  rcases hr with ⟨b, hb⟩ | ⟨e, he, rfl⟩
  · exact Or.inl ⟨b, hb, trivial⟩
  · exact Or.inr ⟨⟨n, e, Or.inl he⟩, _, rfl⟩

/-- A name that is allowed has a key: its info and the salt are within what `derive` takes. -/
theorem checkInputs_dekInfo {name : Str} (h : ValidName name) (salt : Fixed 16) :
    MasterKey.checkInputs (dekInfo name) salt.toList = .ok () := by
  have hstart : (Str.asBytes "krypto/store/v1|".toList).length = 16 := by decide
  have hlen : (dekInfo name).length = 16 + name.length := by
    rw [dekInfo, List.length_append, hstart, h.asBytes_length]
  have hle : name.length ≤ 512 := h.length_le
  refine MasterKey.checkInputs_of_le ?_ ?_ ?_
  · intro hnil
    rw [hnil] at hlen
    simp at hlen
    omega
  · rw [hlen, maxDeriveInputBytes]
    omega
  · rw [Fixed.length_eq]
    decide

theorem dekFor_quiet (self : SecretStore) {name : Str} (h : ValidName name) :
    Quiet Call.Private A (self.dekFor P name) fun r =>
      (∃ dek, r = .ok dek ∧ dek = self.generation.dek P name) ∨ Refused (Unlocked A) r := by
  unfold dekFor MasterKey.derive
  rw [checkInputs_dekInfo h, lift_ok_bind]
  refine (lockedPages_quiet 32).bind (fun _ _ => Or.inl ⟨_, rfl, rfl⟩) (fun e h => ?_) fun h => ?_
  · rcases h with h | ⟨m, -, hm, he⟩
    · cases h
    · cases he
      exact Or.inr ⟨⟨32, m, hm⟩, _, rfl⟩
  · rcases h with h | ⟨m, -, -, he⟩
    · cases h
    · cases he

theorem get_quiet (self : SecretStore) {name : Str} (h : name ∈ self.entries → ValidName name) :
    Quiet Call.Private A (self.get P name) fun r => r = self.read P name ∨ Refused (Unlocked A) r := by
  unfold get read Generation.verdict
  cases hl : self.entries.lookup name with
  | none => exact Or.inl rfl
  | some blob =>
    have hvalid : ValidName name := h (AList.lookup_isSome.mp (by rw [hl]; rfl))
    simp only [Outcome.ofOption_some, lift_ok_bind, Outcome.ok_bind]
    cases Aead.blobKeyId blob with
    | err e => exact Or.inl rfl
    | panic => exact Or.inl rfl
    | ok id =>
      simp only [lift_ok_bind, Outcome.ok_bind]
      by_cases hid : id ≠ self.keyId.toList
      · have hid' : id ≠ self.generation.keyId.toList := hid
        rw [if_pos hid, if_pos hid']
        exact Or.inl rfl
      · have hid' : ¬id ≠ self.generation.keyId.toList := hid
        rw [if_neg hid, if_neg hid']
        refine bind_refused (dekFor_quiet P self hvalid) (fun dek hd => ?_) fun r hr => Or.inr hr
        rw [hd]
        refine (Aead.openBlob_quiet P _ blob).imp fun r hr => hr.imp_right ?_
        rintro ⟨pt, e, -, he, rfl⟩
        exact ⟨⟨pt.length, e, he⟩, _, rfl⟩

theorem sealUnder_quiet (self : SecretStore) {name : Str} (h : ValidName name) (pt : Bytes) :
    Quiet Call.Private A (self.sealUnder P name pt) fun r =>
      (∃ blob, r = .ok blob ∧ self.generation.Seals P name pt blob) ∨ Refused (Starved A) r := by
  have hdek := (dekFor_quiet (A := A) P self h).imp fun r hr =>
    hr.imp_right fun h => h.imp Unlocked.starved
  refine bind_refused hdek (fun dek hd => ?_) fun r hr => Or.inr hr
  refine (Aead.sealBlob_quiet P dek self.keyId pt .aegis256).imp fun r hr => ?_
  rcases hr with ⟨nonce, rfl⟩ | ⟨e, he, rfl⟩
  swap
  · exact Or.inr ⟨⟨_, e, Or.inl he⟩, _, rfl⟩
  left
  have hlen : nonce.toList.length = 32 := nonce.length_eq
  have hct : Aead.primitiveSeal P .aegis256 dek.toFixed nonce.toList pt
      (Aead.headerBytes .aegis256 self.keyId nonce.toList) = .ok _ :=
    Aead.primitiveSeal_aegis256 P dek.toFixed _ hlen
  have hblob := (Aead.sealWith_eq_ok P).mpr ⟨_, hct, rfl⟩
  refine ⟨_, hblob, nonce, ?_⟩
  rw [← hd]
  exact hblob

def readAll (self : SecretStore) : List Str → Outcome Error (List (Str × SecretBuf))
  | [] => .ok []
  | name :: names => do
    let secret ← self.read P name
    let plain ← self.readAll names
    .ok ((name, secret) :: plain)

theorem read_of_lookup {self : SecretStore} {name : Str} {blob : Bytes}
    (h : self.entries.lookup name = some blob) :
    self.read P name = self.generation.verdict P name blob := by
  rw [read, h, Outcome.ofOption_some, Outcome.ok_bind]

theorem read_ne_panic (self : SecretStore) (name : Str) : self.read P name ≠ .panic := by
  intro hp
  cases hl : self.entries.lookup name with
  | none => simp [read, hl] at hp
  | some blob =>
    rw [read_of_lookup P hl] at hp
    rcases self.generation.verdict_cases P name blob with ⟨-, m, hm⟩ | ⟨-, hm | ⟨pt, hm⟩⟩ <;>
      rw [hm] at hp <;> cases hp

theorem readAll_ne_panic (self : SecretStore) (names : List Str) : self.readAll P names ≠ .panic := by
  induction names with
  | nil => simp [readAll]
  | cons name names ih =>
    rw [readAll]
    cases hr : self.read P name with
    | err e => simp
    | panic => exact absurd hr (read_ne_panic P self name)
    | ok secret =>
      cases ha : self.readAll P names with
      | err e => simp
      | panic => exact absurd ha ih
      | ok plain => simp

theorem readAll_eq_ok {self : SecretStore} {names : List Str} {plain : List (Str × SecretBuf)} :
    self.readAll P names = .ok plain ↔
      plain.map Prod.fst = names ∧ ∀ p ∈ plain, self.read P p.1 = .ok p.2 := by
  induction names generalizing plain with
  | nil =>
    simp only [readAll, Outcome.ok.injEq, List.map_eq_nil_iff]
    constructor
    · rintro rfl
      simp
    · rintro ⟨rfl, -⟩
      rfl
  | cons name names ih =>
    simp only [readAll, Outcome.bind_eq_ok, Outcome.ok.injEq, ih]
    constructor
    · rintro ⟨secret, hs, rest, ⟨rfl, hrest⟩, rfl⟩
      refine ⟨rfl, fun p hp => ?_⟩
      rcases List.mem_cons.mp hp with rfl | hp
      · exact hs
      · exact hrest p hp
    · rintro ⟨hnames, hall⟩
      cases plain with
      | nil => cases hnames
      | cons p rest =>
        obtain ⟨rfl, hrest⟩ := List.cons.inj hnames
        exact ⟨p.2, hall p List.mem_cons_self, rest,
          ⟨hrest, fun q hq => hall q (List.mem_cons_of_mem _ hq)⟩, rfl⟩

/-- The error is that of the first name that is not read. -/
theorem readAll_eq_err {self : SecretStore} {names : List Str} {e : Error}
    (h : self.readAll P names = .err e) : ∃ before n after, names = before ++ n :: after ∧
      (∀ m ∈ before, ∃ pt, self.read P m = .ok pt) ∧ self.read P n = .err e := by
  induction names with
  | nil => cases h
  | cons n names ih =>
    rw [readAll] at h
    cases hr : self.read P n with
    | err e' =>
      rw [hr, Outcome.err_bind, Outcome.err.injEq] at h
      exact ⟨[], n, names, rfl, fun m hm => absurd hm List.not_mem_nil, h ▸ hr⟩
    | panic => exact absurd hr (read_ne_panic P self n)
    | ok pt =>
      rw [hr, Outcome.ok_bind] at h
      cases ha : self.readAll P names with
      | ok plain =>
        rw [ha] at h
        cases h
      | panic => exact absurd ha (readAll_ne_panic P self names)
      | err e' =>
        rw [ha, Outcome.err_bind] at h
        obtain ⟨before, m, after, rfl, hbefore, hread⟩ := ih (ha.trans h)
        refine ⟨n :: before, m, after, rfl, fun k hk => ?_, hread⟩
        rcases List.mem_cons.mp hk with rfl | hk
        · exact ⟨pt, hr⟩
        · exact hbefore k hk

theorem exists_readAll {self : SecretStore} {names : List Str}
    (h : ∀ n ∈ names, ∃ pt, self.read P n = .ok pt) : ∃ plain, self.readAll P names = .ok plain := by
  induction names with
  | nil => exact ⟨[], rfl⟩
  | cons name names ih =>
    obtain ⟨pt, hpt⟩ := h name List.mem_cons_self
    obtain ⟨plain, hplain⟩ := ih fun n hn => h n (List.mem_cons_of_mem _ hn)
    refine ⟨(name, pt) :: plain, ?_⟩
    rw [readAll, hpt, Outcome.ok_bind, hplain, Outcome.ok_bind]

theorem decryptAll_quiet (self : SecretStore) {names : List Str} (h : ∀ n ∈ names, ValidName n) :
    Quiet Call.Private A (self.decryptAll P names) fun r =>
      r = self.readAll P names ∨ Refused (Unlocked A) r := by
  induction names with
  | nil => exact Or.inl rfl
  | cons name names ih =>
    have hget := get_quiet (A := A) P self fun _ => h name List.mem_cons_self
    have hrest := ih fun n hn => h n (List.mem_cons_of_mem _ hn)
    unfold decryptAll readAll
    rw [quiet_bind]
    refine hget.imp fun r hr => ?_
    rcases hr with rfl | ⟨hs, m, rfl⟩
    · cases self.read P name with
      | err e => exact Or.inl rfl
      | panic => exact Or.inl rfl
      | ok secret =>
        show Quiet Call.Private A (self.decryptAll P names >>= _) _
        rw [quiet_bind]
        refine hrest.imp fun r hr => ?_
        rcases hr with rfl | ⟨hs, m, rfl⟩
        · cases self.readAll P names <;> exact Or.inl rfl
        · exact Or.inr ⟨hs, m, rfl⟩
    · exact Or.inr ⟨hs, m, rfl⟩

def SealedAs (g : Generation) (plain es : List (Str × Bytes)) : Prop :=
  List.Forall₂ (fun p e => e.1 = p.1 ∧ g.Seals P p.1 p.2 e.2) plain es

theorem sealAll_quiet (self : SecretStore) {plain : List (Str × SecretBuf)}
    (h : ∀ p ∈ plain, ValidName p.1) :
    Quiet Call.Private A (self.sealAll P plain) fun r =>
      (∃ st, r = .ok st ∧ ∃ es, SealedAs P self.generation plain es ∧
        st = { self with entries := insertAll self.entries es }) ∨ Refused (Starved A) r := by
  induction plain generalizing self with
  | nil => exact Or.inl ⟨self, rfl, [], .nil, rfl⟩
  | cons p plain ih =>
    refine bind_refused (sealUnder_quiet P self (h p List.mem_cons_self) p.2) (fun blob hb => ?_)
      fun r hr => Or.inr hr
    have hrest := ih { self with entries := self.entries.insert p.1 blob }
      fun q hq => h q (List.mem_cons_of_mem _ hq)
    refine hrest.imp fun r hr => hr.imp_left ?_
    rintro ⟨st, rfl, es, hes, hst⟩
    exact ⟨st, rfl, (p.1, blob) :: es, .cons ⟨rfl, hb⟩ hes, hst⟩

end SecretStore
end Krypto
