import Krypto.Aead.Length
import Krypto.Store.Outline
import Krypto.Store.Refinement

/-! What the store writes, it opens again: every write is the image of a handle's
contents, within the cap, and only `put` can ask for more than fits. -/

namespace Krypto.Store
open Effect

/-! ## What is written -/

def Writes (Good : Bytes → Prop) : Call Bytes → Prop
  | .write _ data => Good data
  | _ => True

section Writes
variable {Good : Bytes → Prop}

theorem writes_of_private (op : Call Bytes) (h : op.Private) : Writes Good op := by
  cases op <;> first | exact h.elim | exact trivial

theorem writes_of_harmless {path : Bytes} (op : Call Bytes) (h : Harmless path op) :
    Writes Good op := by
  cases op <;> first | exact h.elim | exact trivial

theorem writes_of_plain {path : Bytes} (op : Call Bytes) (h : Plain path op) : Writes Good op := by
  cases op <;> first | exact h.elim | exact trivial

abbrev WritesGood {α : Type} (Good : Bytes → Prop) (p : Action Bytes α) : Prop := Only (Writes Good) p

theorem WritesGood.andThen {α β : Type} {p : Action Bytes α}
    {k : Outcome Error α → Action Bytes β} (h : WritesGood Good p)
    (hk : ∀ r, WritesGood Good (k r)) : WritesGood Good (p.andThen k) :=
  (quiet_andThen _ _ _).mpr (h.imp fun r _ => hk r)

theorem writesGood_orIo {α : Type} (y : Except IoError α) : WritesGood Good (orIo y) := by
  cases y <;> exact trivial

theorem writesGood_ask {op : Call Bytes} (h : Writes Good op) : WritesGood Good (ask op) :=
  only_perform op h

theorem dropFile_writes (f : Nat) : WritesGood Good (dropFile f) := ⟨trivial, fun _ _ => trivial⟩

theorem dropLock_writes (lock : Option Nat) : WritesGood Good (dropLock lock) := by
  cases lock with
  | none => trivial
  | some f => exact dropFile_writes f

theorem atomicWrite_writes (path : Bytes) {data : Bytes} (h : Good data) :
    WritesGood Good (atomicWrite path data) := by
  have hfill : WritesGood Good (fill 8 "getrandom: ") :=
    ((SecretStore.fill_starved 8 "getrandom: ").imp fun _ _ => trivial).calls writes_of_private
  refine hfill.bind fun nonce => Only.bind (writesGood_ask trivial) fun pid => ?_
  refine Only.bind (writesGood_ask trivial) fun y => Only.bind (writesGood_orIo y) fun f => ?_
  have hwrite : WritesGood Good (writeSynced f data) :=
    Only.bind (writesGood_ask h) fun y => Only.bind (writesGood_orIo y) fun _ =>
      Only.bind (writesGood_ask trivial) fun y => writesGood_orIo y
  have hrename : WritesGood Good (renameSynced (tmpPath path pid nonce) path) :=
    Only.bind (writesGood_ask trivial) fun y => Only.bind (writesGood_orIo y) fun _ =>
      Only.bind (writesGood_ask trivial) fun y => Only.bind (writesGood_orIo y) fun _ =>
        Only.bind (writesGood_ask trivial) fun y => writesGood_orIo y
  have hremove : WritesGood Good (removeFile (tmpPath path pid nonce)) :=
    ⟨trivial, fun _ _ => trivial⟩
  have hthen : WritesGood Good (writeThenRename f (tmpPath path pid nonce) path data) :=
    Only.bind (hwrite.andThen fun r => (dropFile_writes f).andThen fun _ => trivial)
      fun _ => hrename
  refine hthen.andThen fun r => ?_
  cases r with
  | ok a => trivial
  | err e => exact hremove.andThen fun _ => trivial
  | panic => trivial

theorem persist_writes (st : SecretStore) :
    WritesGood (fun data => checkedImage st.toContents = .ok data) st.persist := by
  unfold SecretStore.persist
  cases hd : checkedImage st.toContents with
  | ok data => exact atomicWrite_writes st.path rfl
  | err e => exact only_done _
  | panic => exact only_done _

end Writes

/-! ## The handle it is written for -/

/-- A program that writes in `persist` only, on a handle and to an end that are good. -/
inductive Saves {α : Type} (Good : SecretStore → α → Prop) : Action Bytes α → Prop where
  | done (r : Outcome Error α) : Saves Good (.done r)
  | call {op : Call Bytes} {next : op.Reply → Action Bytes α} (h : Writes (fun _ => False) op)
      (hnext : ∀ y, Saves Good (next y)) : Saves Good (.call op next)
  | persist {st : SecretStore} {a : α} {k : Outcome Error Unit → Action Bytes α} (h : Good st a)
      (hok : k (.ok ()) = pure a) (hk : ∀ r, Saves Good (k r)) : Saves Good (st.persist.andThen k)

section Saves
variable {α β : Type} {Good : SecretStore → α → Prop} {Good' : SecretStore → β → Prop}

theorem Saves.of_quiet {p : Action Bytes β} {k : Outcome Error β → Action Bytes α}
    {Q : Outcome Error β → Prop} (h : Quiet (Writes fun _ => False) (fun _ _ => True) p Q)
    (hk : ∀ r, Q r → Saves Good (k r)) : Saves Good (p.andThen k) := by
  induction p with
  | done r => exact hk r h
  | call op next ih => exact .call h.1 fun y => ih y (h.2 y trivial)

theorem saves_of_only {p : Action Bytes α} (h : WritesGood (fun _ => False) p) : Saves Good p := by
  induction p with
  | done r => exact .done r
  | call op next ih => exact .call h.1 fun y => ih y (h.2 y trivial)

theorem Saves.andThen {p : Action Bytes α} {g : Outcome Error α → Action Bytes β} (h : Saves Good p)
    (hok : ∀ st a, Good st a → ∃ b, g (.ok a) = pure b ∧ Good' st b) (hg : ∀ r, Saves Good' (g r)) :
    Saves Good' (p.andThen g) := by
  induction h with
  | done r => exact hg r
  | call h _ ih => exact .call h ih
  | persist h hdone _ ih =>
    obtain ⟨b, hb, hgood⟩ := hok _ _ h
    rw [Prog.andThen_assoc]
    refine .persist hgood ?_ ih
    rw [hdone]
    exact hb

theorem Outline.saves {path : Bytes} {w : Bool} {p : Action Bytes α} (h : Outline path Good w p) :
    Saves (fun st a => st.path = path ∧ Good st a) p := by
  induction h with
  | done r => exact .done r
  | call h _ ih => exact .call (writes_of_plain _ h) ih
  | read cap _ ih => exact .of_quiet ((readCapped_quiet path path cap).calls writes_of_harmless) fun r _ => ih r
  | persist hpath h hok _ ih => exact .persist ⟨hpath, h⟩ hok ih

/-- A run of `p` that comes to `op` in `persist` on `st`, and on its success would end with `a`. -/
def InPersist {ι : Type} [DecidableEq ι] {me : ι} (E : (kernel Bytes me).Env) (p : Action Bytes α)
    (s : Process Bytes ι) (st : SecretStore) (a : α) (op : Call Bytes) (s' : Process Bytes ι) : Prop :=
  ∃ k s1 next, Steps (kernel Bytes me) E (p, s) (st.persist.andThen k, s1) ∧ k (.ok ()) = pure a ∧
    Steps (kernel Bytes me) E (st.persist, s1) (.call op next, s')

section Runs
variable {ι : Type} [DecidableEq ι] {me : ι} {E : (kernel Bytes me).Env} {s s' : Process Bytes ι}

theorem Saves.write {p : Action Bytes α} {f : ℕ} {data : Bytes} {next} (h : Saves Good p)
    (hsteps : Steps (kernel Bytes me) E (p, s) (.call (.write f data) next, s')) :
    ∃ st a, Good st a ∧ InPersist E p s st a (.write f data) s' := by
  induction h generalizing s with
  | done r => cases hsteps
  | call h _ ih =>
    cases hsteps with
    | refl => exact h.elim
    | step c hc hsteps =>
      obtain ⟨st, a, hgood, k, s1, next', hto, hok, hin⟩ := ih _ hsteps
      exact ⟨st, a, hgood, k, s1, next', .step c hc hto, hok, hin⟩
  | @persist st a k h hok hk ih =>
    -- what comes after this `persist` may come to another
    have hafter {r : Outcome Error Unit} {s1 : Process Bytes ι} (hends : Ends (kernel Bytes me) E st.persist s r s1)
        (hrest : Steps (kernel Bytes me) E (k r, s1) (.call (.write f data) next, s')) :
        ∃ st' a, Good st' a ∧ InPersist E (st.persist.andThen k) s st' a (.write f data) s' := by
      obtain ⟨st', a, hgood, k', s2, next', hto, hok, hin⟩ := ih r hrest
      exact ⟨st', a, hgood, k', s2, next', (Steps.andThen hends k).trans hto, hok, hin⟩
    rcases steps_andThen hsteps with ⟨p', hp', hq⟩ | ⟨r, s1, hends, hrest⟩
    · cases p' with
      | done r => exact hafter hp' (hq ▸ .refl _)
      | call op next' =>
        cases hq
        exact ⟨st, a, h, k, s, next', .refl _, hok, hp'⟩
    · exact hafter hends hrest

theorem InPersist.image {p : Action Bytes α} {st : SecretStore} {a : α} {f : ℕ} {data : Bytes}
    (h : InPersist E p s st a (.write f data) s') : checkedImage st.toContents = .ok data := by
  obtain ⟨k, s1, next, -, -, hin⟩ := h
  have hwrites : Quiet _ ((kernel Bytes me).Answers E) st.persist fun _ => True :=
    (persist_writes st).replies fun _ _ _ => trivial
  exact hwrites.steps hin

end Runs
end Saves

section Handles
variable (P : Primitives)

/-- The contents of the handle that serving a request calls `persist` on. -/
inductive Persists (s : Session) : Request → Contents → Prop where
  | reopen {c} (h : c.entries = ∅) : Persists s .reopen c
  | put {st name secret c} (hs : s.handle = some st) (h : PutAttempt P st name secret c) :
      Persists s (.put name secret) c
  | delete {st name} (hs : s.handle = some st) :
      Persists s (.delete name) (erased st.toContents name)
  | rotate {st newMaster c} (hs : s.handle = some st) (h : RotateAttempt P st newMaster c) :
      Persists s (.rotate newMaster) c

variable {P} in
theorem Persists.of_erased {s : Session} {st : SecretStore} {name : Str} {c : Contents}
    (hs : s.handle = some st) (h : c = erased st.toContents name) : Persists P s (.delete name) c := by
  rw [h]
  exact .delete hs

theorem drop_writes (s : Session) : WritesGood (fun _ => False) s.drop := by
  unfold Session.drop
  cases s.handle with
  | none => exact only_done _
  | some st => exact dropLock_writes st.lock

theorem Saves.onErr {α : Type} {Good : SecretStore → α → Prop} {p : Action Bytes α} (h : Saves Good p)
    (lock : Option Nat) : Saves Good (p.onErr (dropLock lock)) := by
  refine h.andThen (fun st a ha => ⟨a, rfl, ha⟩) fun r => ?_
  cases r with
  | ok a => exact .done _
  | err e => exact .of_quiet (dropLock_writes lock) fun _ _ => .done _
  | panic => exact .done _

/-- What serving a request calls `persist` on, and that the session has that handle if it succeeds. -/
def Saved (path : Bytes) (s : Session) (q : Request) (st : SecretStore) (a : Answer × Session) : Prop :=
  st.path = path ∧ Persists P s q st.toContents ∧ a.1 = .done (.ok ()) ∧ a.2.handle = some st

theorem ask_saves {path : Bytes} {s : Session} {q : Request}
    {f : SecretStore → Action Bytes (Answer × Session)}
    (h : ∀ st, s.handle = some st → Saves (Saved P path s q) (f st)) : Saves (Saved P path s q) (s.ask f) := by
  unfold Session.ask
  cases hs : s.handle with
  | none => exact .done _
  | some st => exact h st hs

theorem serve_saves {path : Bytes} {s : Session} (hgood : s.Good path) (q : Request) :
    Saves (Saved P path s q) (serve P path q s) := by
  cases q with
  | reopen =>
    have hlock : WritesGood (fun _ => False) (takeLock path) :=
      (takeLock_quiet.imp fun _ _ => trivial).calls writes_of_harmless
    have hopen (lock : Option Nat) := ((openLocked_outline path s.master lock).saves).onErr lock
    have hstore : Saves (fun st st' => st.path = path ∧ st' = st ∧ st.entries = ∅)
        (SecretStore.openStore path s.master) := by
      refine .of_quiet hlock fun r _ => ?_
      cases r with
      | ok lock => exact hopen lock
      | err e => exact .done _
      | panic => exact .done _
    refine .of_quiet (drop_writes s) fun r _ => ?_
    cases r with
    | ok _ =>
      show Saves _ ((Prog.andThen _ _).andThen _)
      rw [Prog.andThen_assoc]
      refine hstore.andThen ?_ fun r => ?_
      · rintro st _ ⟨hpath, rfl, hempty⟩
        exact ⟨_, rfl, hpath, .reopen hempty, rfl, rfl⟩
      · cases r <;> exact .done _
    | err e => exact .done _
    | panic => exact .done _
  | close => exact .of_quiet (drop_writes s) fun r _ => by cases r <;> exact .done _
  | use master => exact .done _
  | put name secret =>
    refine ask_saves P fun st hs => (put_outline P st name secret).saves.andThen ?_ fun r => ?_
    · rintro st' _ ⟨hpath, rfl, hattempt⟩
      exact ⟨_, rfl, hpath.trans (hgood.path st hs), .put hs hattempt, rfl, rfl⟩
    · cases r <;> exact .done _
  | get name =>
    have hget : WritesGood (fun _ => False) (serve P path (.get name) s) := by
      show Only _ (s.ask _)
      unfold Session.ask
      cases hs : s.handle with
      | none => exact only_done _
      | some st =>
        have hread : WritesGood (fun _ => False) (st.get P name) :=
          ((SecretStore.get_quiet P st (hgood.valid st hs name)).imp fun _ _ => trivial).calls writes_of_private
        exact (hread.andThen fun r => only_done _).bind fun r => only_done _
    exact saves_of_only hget
  | delete name =>
    refine ask_saves P fun st hs => (delete_outline st name).saves.andThen ?_ fun r => ?_
    · rintro st' _ ⟨hpath, rfl, herased⟩
      exact ⟨_, rfl, hpath.trans (hgood.path st hs), .of_erased hs herased, rfl, rfl⟩
    · cases r <;> exact .done _
  | contains name => exact ask_saves P fun st hs => .done _
  | list start => exact ask_saves P fun st hs => .done _
  | rotate newMaster =>
    refine ask_saves P fun st hs => ?_
    show Saves _ ((Prog.andThen _ _).andThen _)
    rw [Prog.andThen_assoc]
    refine ((rotateLocked_outline P (hgood.valid st hs) newMaster).saves.onErr st.lock).andThen ?_ fun r => ?_
    · rintro st' _ ⟨hpath, rfl, hattempt⟩
      exact ⟨_, rfl, hpath.trans (hgood.path st hs), .rotate hs hattempt, rfl, rfl⟩
    · cases r <;> exact .done _

end Handles

/-! ## What is written is opened again -/

/-- Bytes within the cap that a reader takes whole and `load` takes for these contents, of which
no length is cut short, and which do not depend on the order of the map. -/
structure TakenBack (path data : Bytes) (c : Contents) : Prop where
  length_le : data.length ≤ MAX_STORE_BYTES
  load : ∃ c', load data = .ok c' ∧ c'.Same c
  lengths : ∀ n blob, c.entries.lookup n = some blob → n.asBytes.length < 2 ^ 16 ∧ blob.length < 2 ^ 32
  order : ∀ c' : Contents, c'.Same c → checkedImage c' = .ok data
  read : ∀ {ι : Type} [DecidableEq ι] (me : ι) (E : (kernel Bytes me).Env) (p : Process Bytes ι) r p',
    p.disk.stored path = some data → Ends (kernel Bytes me) E (readCapped path MAX_STORE_BYTES) p r p' →
    r = .ok (some data) ∨ ∃ e, r = .err (.io e)

theorem checkedImage_congr {a b : Contents} (h : a.Same b) : checkedImage a = checkedImage b := by
  unfold checkedImage
  rw [image_congr h]

theorem takenBack (path : Bytes) {c : Contents} {data : Bytes} (hv : Valid c.entries)
    (h : checkedImage c = .ok data) : TakenBack path data c := by
  obtain ⟨himage, hlen⟩ := checkedImage_eq_ok.mp h
  refine ⟨hlen, load_checkedImage hv h, fun n blob hb => ⟨?_, ?_⟩, fun c' hc' => ?_, ?_⟩
  · have hname : ValidName n := hv n (AList.lookup_isSome.mp (by rw [hb]; rfl))
    have hle : n.length ≤ 512 := hname.length_le
    rw [hname.asBytes_length]
    omega
  · exact (small_of_image himage).1 n blob hb
  · rw [checkedImage_congr hc', h]
  · intro ι _ me E p r p' hstored hends
    obtain ⟨l, hends'⟩ := hends.logged []
    obtain ⟨hread, -⟩ := (readCapped_wp MAX_STORE_BYTES ([], p)).ends hends'
    cases hread with
    | missing hnone => exact absurd (hnone.symm.trans hstored) (by simp)
    | whole hd hcap =>
      obtain rfl := Option.some.inj (hd.symm.trans hstored)
      exact Or.inl rfl
    | tooBig hd hcap =>
      obtain rfl := Option.some.inj (hd.symm.trans hstored)
      exact absurd hlen (Nat.not_le.mpr hcap)
    | failed => exact Or.inr ⟨_, rfl⟩

/-! ## Only `put` asks for too much -/

def Sealed (P : Primitives) (entries : Entries) : Prop :=
  ∀ n blob, entries.lookup n = some blob → Aead.AegisSealed P blob

section Sizes
variable {P : Primitives} {st : SecretStore} {c : Contents}

theorem aegisSealed_of_seals {g : Generation} {name : Str} {pt blob : Bytes}
    (h : g.Seals P name pt blob) : Aead.AegisSealed P blob := by
  obtain ⟨nonce, hseal⟩ := h
  exact ⟨_, _, nonce, pt, hseal⟩

theorem length_of_seals (hP : Aead.AegisLengths P) {g : Generation} {name : Str}
    {pt blob : Bytes} (h : g.Seals P name pt blob) :
    blob.length = Aead.HEADER_LEN + pt.length + 32 := by
  obtain ⟨nonce, hseal⟩ := h
  exact Aead.sealWith_length hP hseal

theorem openBody_of_verdict {g : Generation} {name : Str} {pt blob : Bytes}
    (h : g.verdict P name blob = .ok pt) : Aead.openBody P (g.dek P name) blob = .ok pt := by
  unfold Generation.verdict at h
  obtain ⟨id, -, h⟩ := Outcome.bind_eq_ok.mp h
  split_ifs at h
  exact h

theorem Sealed.same {a b : Entries} (h : Sealed P a) (hsame : Same b a) : Sealed P b :=
  fun n blob hb => h n blob ((hsame n).symm.trans hb)

theorem sealed_empty : Sealed P ∅ := by
  intro n blob hb
  rw [AList.lookup_empty] at hb
  cases hb

theorem PutAttempt.sealed {name : Str} {secret : SecretBuf} (h : PutAttempt P st name secret c)
    (hs : Sealed P st.entries) : Sealed P c.entries := by
  obtain ⟨blob, -, hseal, rfl⟩ := h
  intro n b hb
  by_cases hn : n = name
  · subst hn
    rw [inserted, AList.lookup_insert, Option.some.injEq] at hb
    exact hb ▸ aegisSealed_of_seals hseal
  · rw [inserted, AList.lookup_insert_ne hn] at hb
    exact hs n b hb

theorem sealed_erased (name : Str) (hs : Sealed P st.entries) :
    Sealed P (erased st.toContents name).entries := by
  intro n b hb
  by_cases hn : n = name
  · subst hn
    rw [erased, AList.lookup_erase] at hb
    cases hb
  · rw [erased, AList.lookup_erase_ne hn] at hb
    exact hs n b hb

theorem RotateAttempt.sealed {newMaster : MasterKey} (h : RotateAttempt P st newMaster c) :
    Sealed P c.entries := by
  intro n b hb
  rcases h.lookup n with ⟨-, hnone⟩ | ⟨old, pt, new, -, -, hnew, hseal⟩
  · rw [hnone] at hb
    cases hb
  · rw [hnew, Option.some.injEq] at hb
    exact hb ▸ aegisSealed_of_seals hseal

theorem RotateAttempt.size_eq (hP : Aead.AegisLengths P) {newMaster : MasterKey}
    (h : RotateAttempt P st newMaster c) (hs : Sealed P st.entries) :
    size c.entries = size st.entries := by
  refine size_congr fun n => ?_
  rcases h.lookup n with ⟨hold, hnew⟩ | ⟨old, pt, new, hold, hverdict, hnew, hseal⟩
  · rw [hold, hnew]
  · have hlen := (hs n old hold).openBody_length hP (openBody_of_verdict hverdict)
    rw [hold, hnew, Option.map_some, Option.map_some, length_of_seals hP hseal, hlen]

theorem fits_erased (name : Str) (h : Fits st.toContents) : Fits (erased st.toContents name) :=
  Nat.le_trans (Nat.add_le_add_left (size_erase_le st.entries name) _) h

theorem read_not_isFormat (hs : Sealed P st.entries) {n : Str} {e : Error}
    (h : st.read P n = .err e) : ¬e.IsFormat := by
  cases hl : st.entries.lookup n with
  | none =>
    simp only [SecretStore.read, hl, Outcome.ofOption_none, Outcome.err_bind, Outcome.err.injEq] at h
    exact h ▸ id
  | some blob =>
    rw [SecretStore.read_of_lookup P hl] at h
    rcases st.generation.verdict_cases P n blob with ⟨hblob, -⟩ | ⟨-, hv | ⟨pt, hv⟩⟩
    · exact absurd (hs n blob hl).isBlob hblob
    · rw [hv, Outcome.err.injEq] at h
      exact h ▸ id
    · rw [hv] at h
      cases h

end Sizes

section Made
variable {ι : Type} {path : Bytes} {P : Primitives} {s s' : Session} {q : Request}

/-- What the store has made of the file and the handle: sealed blobs that fit. -/
structure Made (P : Primitives) (path : Bytes) (s : Session) (p : Process Bytes ι) : Prop where
  file : ∀ d, p.disk.stored path = some d →
    ∃ c, Valid c.entries ∧ Sealed P c.entries ∧ checkedImage c = .ok d
  handle : ∀ st, s.handle = some st → Sealed P st.entries ∧ Fits st.toContents

theorem Persists.valid {c : Contents} (h : Persists P s q c) (hgood : s.Good path) :
    Valid c.entries := by
  cases h with
  | reopen he => exact he ▸ valid_empty
  | put hs h =>
    obtain ⟨blob, hname, -, rfl⟩ := h
    exact (hgood.valid _ hs).insert hname blob
  | delete hs => exact (hgood.valid _ hs).erase _
  | rotate hs h => exact h.valid P (hgood.valid _ hs)

theorem Persists.sealed {c : Contents} {p : Process Bytes ι} (h : Persists P s q c)
    (hmade : Made P path s p) : Sealed P c.entries := by
  cases h with
  | reopen he => exact he ▸ sealed_empty
  | put hs h => exact h.sealed (hmade.handle _ hs).1
  | delete hs => exact sealed_erased _ (hmade.handle _ hs).1
  | rotate hs h => exact h.sealed

theorem Made.keep {p p' : Process Bytes ι} (h : Made P path s p)
    (hp : p'.disk.stored path = p.disk.stored path)
    (hs : ∀ st', s'.handle = some st' → ∃ st, s.handle = some st ∧ Same st'.entries st.entries) :
    Made P path s' p' := by
  refine ⟨fun d hd => h.file d (hp ▸ hd), fun st' hst' => ?_⟩
  obtain ⟨st, hst, hsame⟩ := hs st' hst'
  obtain ⟨hsealed, hfits⟩ := h.handle st hst
  exact ⟨hsealed.same hsame, hfits.same hsame⟩

/-- The file is the image of contents that were persisted, and so the handle has them, if its
entries are not what they were. -/
theorem Made.replace {p p' : Process Bytes ι} {c : Contents} {data : Bytes}
    (h : Made P path s p) (hgood : s.Good path) (hc : Persists P s q c)
    (himage : checkedImage c = .ok data) (hp : p'.disk.stored path = some data)
    (hs : ∀ st', s'.handle = some st' → st'.entries = c.entries ∨
      ∃ st, s.handle = some st ∧ Same st'.entries st.entries) :
    Made P path s' p' := by
  refine ⟨fun d hd => ?_, fun st' hst' => ?_⟩
  · obtain rfl := Option.some.inj (hp.symm.trans hd)
    exact ⟨c, hc.valid hgood, hc.sealed h, himage⟩
  · rcases hs st' hst' with he | ⟨st, hst, hsame⟩
    · have hsame : Same st'.entries c.entries := he ▸ Same.refl _
      exact ⟨(hc.sealed h).same hsame, (fits_of_checkedImage himage).same hsame⟩
    · obtain ⟨hsealed, hfits⟩ := h.handle st hst
      exact ⟨hsealed.same hsame, hfits.same hsame⟩

end Made

section Serving
variable {ι : Type} [DecidableEq ι] {me : ι} {E : (kernel Bytes me).Env} {path : Bytes}
  {P : Primitives} {s s' : Session} {q : Request}

theorem Changed.made {st st' : SecretStore} {Attempt : Contents → Prop} {Bad : Error → Prop}
    {l l' : Log} {p p' : Process Bytes ι} {r : Except Error Unit}
    (h : Changed E st Attempt Bad (l, p) (.ok (r, st')) (l', p')) (hmade : Made P path s p)
    (hgood : s.Good path) (hs : s.handle = some st) (hattempt : ∀ c, Attempt c → Persists P s q c) :
    Made P path { s with handle := some st' } p' := by
  obtain rfl := hgood.path _ hs
  cases h with
  | saved hc himage hstored hdir =>
    refine hmade.replace hgood (hattempt _ hc) himage hstored ?_
    rintro _ ⟨⟩
    exact Or.inl rfl
  | same hstored hdir hc =>
    refine hmade.keep hstored ?_
    rintro _ ⟨⟩
    exact ⟨st, hs, Same.refl _⟩
  | failed hsame hstored hdir he hio =>
    refine hmade.keep hstored ?_
    rintro _ ⟨⟩
    exact ⟨st, hs, hsame⟩
  | late hsame hflaky he hc himage hstored hdir hwrote =>
    refine hmade.replace hgood (hattempt _ hc) himage hstored ?_
    rintro _ ⟨⟩
    exact Or.inr ⟨st, hs, hsame⟩

theorem Served.made {y : Answer} {l l' : Log} {p p' : Process Bytes ι}
    (h : Served P E path q s (l, p) y s' (l', p')) (hgood : s.Good path) (hmade : Made P path s p) :
    Made P path s' p' := by
  cases h with
  | noHandle => exact hmade
  | opened h =>
    cases h with
    | @loaded d c lock t' hd hcap hc ht =>
      obtain ⟨c0, hv, hsealed, himage⟩ := hmade.file d hd
      obtain ⟨c1, hc1, hsame⟩ := load_checkedImage hv himage
      obtain rfl := Outcome.ok.inj (hc1.symm.trans hc)
      refine ⟨fun d' hd' => hmade.file d' (ht.stored ▸ hd'), ?_⟩
      rintro _ ⟨⟩
      exact ⟨hsealed.same hsame.entries, (fits_of_checkedImage himage).same hsame.entries⟩
    | created hnone himage hstored hdir =>
      refine hmade.replace (q := .reopen) hgood (.reopen rfl) himage hstored ?_
      rintro _ ⟨⟩
      exact Or.inl rfl
  | openFailed h =>
    cases h with
    | rejected hd hbad ht => exact hmade.keep ht.stored fun _ hst => nomatch hst
    | failed he hstored hdir hwrote => exact hmade.keep hstored fun _ hst => nomatch hst
    | late he hflaky hnone himage hstored hdir =>
      obtain ⟨salt, keyId, himage⟩ := himage
      exact hmade.replace (q := .reopen) hgood (.reopen rfl) himage hstored fun _ hst => nomatch hst
  | closed ht => exact hmade.keep ht.stored fun _ hst => nomatch hst
  | used => exact hmade.keep rfl fun st hst => ⟨st, hst, Same.refl _⟩
  | put hst h => exact h.made hmade hgood hst fun c hc => .put hst hc
  | got hst h ht => exact hmade.keep ht.stored fun st hst => ⟨st, hst, Same.refl _⟩
  | deleted hst h => exact h.made hmade hgood hst fun c hc => .of_erased hst hc
  | contained => exact hmade
  | listed => exact hmade
  | rotated hst h =>
    obtain rfl := hgood.path _ hst
    cases h with
    | saved hc himage hstored hdir =>
      refine hmade.replace hgood (.rotate hst hc) himage hstored ?_
      rintro _ ⟨⟩
      exact Or.inl rfl
  | rotateFailed hst h =>
    obtain rfl := hgood.path _ hst
    cases h with
    | failed hstored hdir he => exact hmade.keep hstored fun _ hst => nomatch hst
    | late hflaky he hc himage hstored hdir hwrote =>
      exact hmade.replace hgood (.rotate hst hc) himage hstored fun _ hst => nomatch hst

theorem made_of_serves {m0 : MasterKey} {p0 p : Process Bytes ι} {l : List (Request × Answer)}
    (h0 : p0.disk.stored path = none)
    (hrun : Serves (kernel Bytes me) E (serve P path) (.start m0, p0) l (s, p)) :
    s.Good path ∧ Made P path s p := by
  refine hrun.invariant (I := fun s p => s.Good path ∧ Made P path s p) ⟨Session.good_start m0, ?_⟩ ?_
  · refine ⟨fun d hd => ?_, fun st hst => nomatch hst⟩
    rw [h0] at hd
    cases hd
  · rintro q s p y s' p' ⟨hgood, hmade⟩ hends
    obtain ⟨l', -, hserved⟩ := served_of_ends P hgood hends []
    exact ⟨hserved.good P hgood, hserved.made hgood hmade⟩

def Answer.Fails (e : Error) : Answer → Prop
  | .done r => r = .error e
  | .secret r => r = .error e
  | _ => False

def Unchanged (path : Bytes) (st : SecretStore) (s : Session) (p : Process Bytes ι)
    (s' : Session) (p' : Process Bytes ι) : Prop :=
  p'.disk.stored path = p.disk.stored path ∧
    ∃ entries, s' = { s with handle := some { st with entries } } ∧ Same entries st.entries

theorem Changed.isFormat {st st' : SecretStore} {Attempt : Contents → Prop} {Bad : Error → Prop}
    {l l' : Log} {p p' : Process Bytes ι} {e : Error}
    (h : Changed E st Attempt Bad (l, p) (.ok (.error e, st')) (l', p')) (hpath : st.path = path)
    (he : e.IsFormat) :
    (Bad e ∨ ∃ c, Attempt c ∧ checkedImage c = .err e) ∧
      Unchanged path st s p { s with handle := some st' } p' := by
  subst hpath
  cases h with
  | failed hsame hstored hdir herr hio =>
    refine ⟨herr.resolve_left fun h => h.not_isFormat he, hstored, _, rfl, hsame⟩
  | late hsame hflaky herr => exact absurd he herr.not_isFormat

/-- Only a `put` fails with `Format`, for its name or because its image is too big. -/
theorem Served.put_of_isFormat (hP : Aead.AegisLengths P) {y : Answer} {l l' : Log}
    {p p' : Process Bytes ι} {e : Error} (h : Served P E path q s (l, p) y s' (l', p'))
    (hgood : s.Good path) (hmade : Made P path s p) (hy : y.Fails e) (he : e.IsFormat) :
    ∃ st name secret, s.handle = some st ∧ q = .put name secret ∧
      (¬ValidName name ∨ ∃ c, PutAttempt P st name secret c ∧ ¬Fits c) ∧
      Unchanged path st s p s' p' := by
  have hfits {c : Contents} (hc : checkedImage c = .err e) : ¬Fits c :=
    fun hf => checkedImage_of_fits hf hc
  cases h with
  | noHandle => exact hy.elim
  | opened => cases hy
  | openFailed h =>
    cases hy
    cases h with
    | rejected hd hbad ht =>
      -- the file there is an image, and images load
      obtain ⟨c, hv, -, himage⟩ := hmade.file _ hd
      obtain ⟨c', hc', -⟩ := load_checkedImage hv himage
      have hload := hbad (checkedImage_eq_ok.mp himage).2
      rw [hc'] at hload
      cases hload
    | failed he' => exact absurd he he'.not_isFormat
    | late he' => exact absurd he he'.not_isFormat
  | closed => cases hy
  | used => cases hy
  | put hst h =>
    cases hy
    obtain ⟨hwhy, hsame⟩ := h.isFormat (s := s) (hgood.path _ hst) he
    refine ⟨_, _, _, hst, rfl, ?_, hsame⟩
    rcases hwhy with hname | ⟨c, hc, himage⟩
    · refine Or.inl fun hv => ?_
      rw [validateName_eq_ok.mpr hv] at hname
      cases hname
    · exact Or.inr ⟨c, hc, hfits himage⟩
  | got hst h ht =>
    rcases h with rfl | ⟨-, m, rfl⟩
    · cases hr : SecretStore.read P _ _ with
      | ok pt =>
        rw [hr] at hy
        cases hy
      | panic => exact absurd hr (SecretStore.read_ne_panic P _ _)
      | err e' =>
        rw [hr] at hy
        cases hy
        exact absurd he (read_not_isFormat (hmade.handle _ hst).1 hr)
    · cases hy
      exact he.elim
  | deleted hst h =>
    cases hy
    obtain ⟨hwhy, -⟩ := h.isFormat (s := s) (hgood.path _ hst) he
    rcases hwhy with hf | ⟨c, rfl, himage⟩
    · exact hf.elim
    -- a smaller store fits where the larger one did
    · exact absurd (fits_erased _ (hmade.handle _ hst).2) (hfits himage)
  | contained => exact hy.elim
  | listed => exact hy.elim
  | rotated => cases hy
  | rotateFailed hst h =>
    cases hy
    obtain ⟨hsealed, hfit⟩ := hmade.handle _ hst
    cases h with
    | failed hstored hdir herr =>
      rcases herr with herr | herr | ⟨c, hc, himage⟩
      · exact absurd he herr.not_isFormat
      · obtain ⟨-, n, -, -, -, hread⟩ := SecretStore.readAll_eq_err P herr
        exact absurd he (read_not_isFormat hsealed hread)
      · refine absurd ?_ (hfits himage)
        unfold Fits
        rw [hc.size_eq hP hsealed]
        exact hfit
    | late hflaky herr => exact absurd he herr.not_isFormat

theorem PutAttempt.size_eq (hP : Aead.AegisLengths P) {st : SecretStore} {name : Str}
    {secret : SecretBuf} {c c' : Contents} (h : PutAttempt P st name secret c)
    (h' : PutAttempt P st name secret c') : size c.entries = size c'.entries := by
  obtain ⟨blob, -, hseal, rfl⟩ := h
  obtain ⟨blob', -, hseal', rfl⟩ := h'
  refine size_congr fun n => ?_
  by_cases hn : n = name
  · rw [hn, inserted, inserted, AList.lookup_insert, AList.lookup_insert, Option.map_some,
      Option.map_some, length_of_seals hP hseal, length_of_seals hP hseal']
  · rw [inserted, inserted, AList.lookup_insert_ne hn, AList.lookup_insert_ne hn]

/-- A `put` that asks for too much is refused before anything is written. -/
theorem Served.put_too_big (hP : Aead.AegisLengths P) {st : SecretStore} {name : Str}
    {secret : SecretBuf} {c : Contents} {y : Answer} {l l' : Log} {p p' : Process Bytes ι}
    (h : Served P E path (.put name secret) s (l, p) y s' (l', p')) (hgood : s.Good path)
    (hmade : Made P path s p) (hst : s.handle = some st) (hc : PutAttempt P st name secret c) (hbig : ¬Fits c) :
    (∃ e, y = .done (.error e) ∧
      (e.IsFormat ∨ Starved ((kernel Bytes me).Answers E) ∧ ∃ m, e = .hardening m)) ∧
    Unchanged path st s p s' p' := by
  have hnot {c' : Contents} (hc' : PutAttempt P st name secret c') : ¬Fits c' := by
    unfold Fits at hbig ⊢
    rwa [hc'.size_eq hP hc]
  obtain rfl := hgood.path _ hst
  cases h with
  | noHandle hq hs =>
    rw [hst] at hs
    cases hs
  | put hs h =>
    obtain rfl := Option.some.inj (hs.symm.trans hst)
    cases h with
    | saved hc' himage => exact absurd (fits_of_checkedImage himage) (hnot hc')
    | same hstored hdir hc' => exact absurd (hmade.handle _ hst).2 (hnot hc')
    | late hsame hflaky he hc' himage => exact absurd (fits_of_checkedImage himage) (hnot hc')
    | failed hsame hstored hdir he hio =>
      refine ⟨⟨_, rfl, ?_⟩, hstored, _, rfl, hsame⟩
      rcases he with (⟨x, rfl⟩ | hs) | he | ⟨c', -, he⟩
      · rcases hio ⟨x, rfl⟩ with hbad | ⟨c', d, hc', himage⟩
        · exact absurd (isFormat_of_validateName hbad) id
        · exact absurd (fits_of_checkedImage himage) (hnot hc')
      · exact Or.inr hs
      · exact Or.inl (isFormat_of_validateName he)
      · exact Or.inl (isFormat_of_checkedImage he)

/-- In every run from a missing file, whichever calls fail: whatever is about to be written is the
image of the handle that `persist` is called on, and is taken back whole; only a `put` fails with
`Format`, for its name or for its size, and leaves file and entries; and a `put` that is too big does
not succeed. -/
theorem written_store_opens (hP : Aead.AegisLengths P) {m0 : MasterKey} {p0 p : Process Bytes ι}
    {l : List (Request × Answer)} (h0 : p0.disk.stored path = none)
    (hrun : Serves (kernel Bytes me) E (serve P path) (.start m0, p0) l (s, p)) :
    (∀ q f data next p', Steps (kernel Bytes me) E (serve P path q s, p) (.call (.write f data) next, p') →
      ∃ st a, Saved P path s q st a ∧ InPersist E (serve P path q s) p st a (.write f data) p' ∧
        TakenBack path data st.toContents) ∧
    (∀ q y s' p' e, Ends (kernel Bytes me) E (serve P path q s) p (.ok (y, s')) p' → y.Fails e →
      e.IsFormat → ∃ st name secret, s.handle = some st ∧ q = .put name secret ∧
        (¬ValidName name ∨ ∃ c, PutAttempt P st name secret c ∧ ¬Fits c) ∧
        Unchanged path st s p s' p') ∧
    ∀ st name secret c y s' p', s.handle = some st → PutAttempt P st name secret c → ¬Fits c →
      Ends (kernel Bytes me) E (serve P path (.put name secret) s) p (.ok (y, s')) p' →
      (∃ e, y = .done (.error e) ∧
        (e.IsFormat ∨ Starved ((kernel Bytes me).Answers E) ∧ ∃ m, e = .hardening m)) ∧
      Unchanged path st s p s' p' := by
  obtain ⟨hgood, hmade⟩ := made_of_serves h0 hrun
  refine ⟨?_, ?_, ?_⟩
  · intro q f data next p' hsteps
    obtain ⟨st, a, hsaved, hin⟩ := (serve_saves P hgood q).write hsteps
    exact ⟨st, a, hsaved, hin, takenBack path (hsaved.2.1.valid hgood) hin.image⟩
  · intro q y s' p' e hends hy he
    obtain ⟨l', -, hserved⟩ := served_of_ends P hgood hends []
    exact hserved.put_of_isFormat hP hgood hmade hy he
  · intro st name secret c y s' p' hst hc hbig hends
    obtain ⟨l', -, hserved⟩ := served_of_ends P hgood hends []
    exact hserved.put_too_big hP hgood hmade hst hc hbig

end Serving

def sampleRefused : Outcome Error (Answer × Session) × Process Bytes Unit :=
  (kernel Bytes ()).play (failing fun _ => false)
    (serve sampleCiphers samplePath (.put [] [5]) ⟨sampleKey, some sampleHandle⟩) sampleOpened.2

theorem written_store_opens_sample :
    sampleRefused.2.disk.stored samplePath = sampleOpened.2.disk.stored samplePath ∧
    ∀ f data next p', Steps (kernel Bytes ()) (fun _ _ => True)
        (serve sampleCiphers samplePath (.put ['a'] [5]) ⟨sampleKey, some sampleHandle⟩, sampleOpened.2)
        (.call (.write f data) next, p') →
      ∃ st s', InPersist (fun _ _ => True : (kernel Bytes ()).Env)
          (serve sampleCiphers samplePath (.put ['a'] [5]) ⟨sampleKey, some sampleHandle⟩) sampleOpened.2 st
          (.done (.ok ()), s') (.write f data) p' ∧ s'.handle = some st ∧
        ∃ c, load data = .ok c ∧ c.Same st.toContents := by
  have hP : Aead.AegisLengths sampleCiphers := by
    refine ⟨fun _ _ _ _ => rfl, fun key nonce ct tag ad pt h => ?_⟩
    cases h
    rfl
  obtain ⟨hwrites, hformat, -⟩ := written_store_opens hP rfl sampleOpened_run
  constructor
  · have hends := ends_play (M := kernel Bytes ()) (E := fun _ _ => True) (failing fun _ => false)
      (fun _ => trivial)
      (serve sampleCiphers samplePath (.put [] [5]) ⟨sampleKey, some sampleHandle⟩) sampleOpened.2
    obtain ⟨-, -, -, -, -, -, hkept, -⟩ := hformat _ _ _ _ _ hends rfl trivial
    exact hkept
  · intro f data next p' hsteps
    obtain ⟨st, ⟨y, s'⟩, ⟨-, -, hy, hst⟩, hin, htaken⟩ := hwrites _ f data next p' hsteps
    cases hy
    exact ⟨st, s', hin, hst, htaken.load⟩

end Krypto.Store
