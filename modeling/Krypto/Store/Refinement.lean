import Krypto.Store.Failure

/-! A store is a map from names to secrets: the abstract map, and that every run
of a store answers as it does. -/

namespace Krypto.Store
open Effect

structure MapState where
  map : Str → Option SecretBuf
  held : Bool

/-- What a failed write answers: an I/O error, or that the image is too big. -/
def WriteError (e : Error) : Prop := (∃ x, e = .io x) ∨ e.IsFormat

inductive MapStep : MapState → Request → Answer → MapState → Prop where
  | noHandle {m q} (hq : q.NeedsHandle) : MapStep ⟨m, false⟩ q .noHandle ⟨m, false⟩
  | opened {m b} : MapStep ⟨m, b⟩ .reopen (.done (.ok ())) ⟨m, true⟩
  | openFailed {m b x} : MapStep ⟨m, b⟩ .reopen (.done (.error (.io x))) ⟨m, false⟩
  | closed {m b} : MapStep ⟨m, b⟩ .close (.done (.ok ())) ⟨m, false⟩
  | put {m name secret} (hname : ValidName name) :
      MapStep ⟨m, true⟩ (.put name secret) (.done (.ok ()))
        ⟨Function.update m name (some secret), true⟩
  | putFailed {m name secret e} (he : WriteError e) :
      MapStep ⟨m, true⟩ (.put name secret) (.done (.error e)) ⟨m, true⟩
  | got {m name pt} (h : m name = some pt) :
      MapStep ⟨m, true⟩ (.get name) (.secret (.ok pt)) ⟨m, true⟩
  | missing {m name} (h : m name = none) :
      MapStep ⟨m, true⟩ (.get name) (.secret (.error .keyNotFound)) ⟨m, true⟩
  | deleted {m name} :
      MapStep ⟨m, true⟩ (.delete name) (.done (.ok ())) ⟨Function.update m name none, true⟩
  | deleteFailed {m name e} (he : WriteError e) :
      MapStep ⟨m, true⟩ (.delete name) (.done (.error e)) ⟨m, true⟩
  | contained {m name} :
      MapStep ⟨m, true⟩ (.contains name) (.found (m name).isSome) ⟨m, true⟩
  | listed {m start names} (hasc : names.Pairwise Str.Lt)
      (hmem : ∀ n, n ∈ names ↔ (m n).isSome ∧ start <+: n) :
      MapStep ⟨m, true⟩ (.list start) (.names names) ⟨m, true⟩
  | rotated {m newMaster} : MapStep ⟨m, true⟩ (.rotate newMaster) (.done (.ok ())) ⟨m, true⟩
  | rotateFailed {m newMaster e} (he : WriteError e) :
      MapStep ⟨m, true⟩ (.rotate newMaster) (.done (.error e)) ⟨m, false⟩

section Holds
variable (P : Primitives)

/-- The entries hold the map: under each name a blob that opens to the secret, or nothing. -/
def Holds (g : Generation) (entries : Entries) (m : Str → Option SecretBuf) : Prop :=
  ∀ n, (entries.lookup n = none ∧ m n = none) ∨
    ∃ blob pt, entries.lookup n = some blob ∧ m n = some pt ∧ g.verdict P n blob = .ok pt

variable {P} {g : Generation} {entries : Entries} {m : Str → Option SecretBuf}

theorem holds_empty : Holds P g ∅ fun _ => none :=
  fun n => Or.inl ⟨AList.lookup_empty n, rfl⟩

theorem Holds.same {entries' : Entries} (h : Holds P g entries m) (hsame : Same entries' entries) :
    Holds P g entries' m := by
  intro n
  rw [hsame n]
  exact h n

theorem Holds.put (h : Holds P g entries m) {name : Str} {pt blob : Bytes}
    (hv : g.verdict P name blob = .ok pt) :
    Holds P g (entries.insert name blob) (Function.update m name (some pt)) := by
  intro n
  by_cases hn : n = name
  · subst hn
    exact Or.inr ⟨blob, pt, AList.lookup_insert _, Function.update_self _ _ _, hv⟩
  · rw [AList.lookup_insert_ne hn, Function.update_of_ne hn]
    exact h n

theorem Holds.delete (h : Holds P g entries m) (name : Str) :
    Holds P g (entries.erase name) (Function.update m name none) := by
  intro n
  by_cases hn : n = name
  · subst hn
    exact Or.inl ⟨AList.lookup_erase _ _, Function.update_self _ _ _⟩
  · rw [AList.lookup_erase_ne hn, Function.update_of_ne hn]
    exact h n

theorem Holds.isSome (h : Holds P g entries m) (n : Str) : (m n).isSome ↔ n ∈ entries := by
  rw [← AList.lookup_isSome]
  rcases h n with ⟨h1, h2⟩ | ⟨blob, pt, h1, h2, -⟩
  · rw [h1, h2]
  · rw [h1, h2]
    exact iff_of_true rfl rfl

theorem Holds.read {st : SecretStore} (h : Holds P st.generation st.entries m) (n : Str) :
    st.read P n = .ofOption .keyNotFound (m n) := by
  rcases h n with ⟨hnone, hm⟩ | ⟨blob, pt, hsome, hm, hv⟩
  · rw [SecretStore.read, hnone, hm]
    rfl
  · rw [SecretStore.read_of_lookup P hsome, hv, hm]
    rfl

theorem Holds.contains {st : SecretStore} (h : Holds P st.generation st.entries m) (n : Str) :
    st.contains n = (m n).isSome :=
  Bool.eq_iff_iff.mpr (decide_eq_true_iff.trans (h.isSome n).symm)

theorem Holds.readAll {st : SecretStore} (h : Holds P st.generation st.entries m) :
    ∃ plain, st.readAll P (Str.sort st.entries.keys) = .ok plain := by
  refine SecretStore.exists_readAll P fun n hn => ?_
  obtain ⟨pt, hpt⟩ := Option.isSome_iff_exists.mp ((h.isSome n).mpr (mem_of_mem_sort n hn))
  exact ⟨pt, by rw [h.read n, hpt, Outcome.ofOption_some]⟩

theorem PutAttempt.holds (hP : Aead.Correct P) {st : SecretStore} {name : Str} {secret : SecretBuf}
    {c : Contents} (h : PutAttempt P st name secret c) (hv : Valid st.entries)
    (hm : Holds P st.generation st.entries m) :
    c.salt = st.salt ∧ c.keyId = st.keyId ∧ Valid c.entries ∧
      Holds P st.generation c.entries (Function.update m name (some secret)) := by
  obtain ⟨blob, hname, hseal, rfl⟩ := h
  exact ⟨rfl, rfl, hv.insert hname blob, hm.put (hseal.verdict hP)⟩

theorem holds_erased {st : SecretStore} {name : Str} {c : Contents}
    (h : c = erased st.toContents name) (hv : Valid st.entries)
    (hm : Holds P st.generation st.entries m) :
    c.salt = st.salt ∧ c.keyId = st.keyId ∧ Valid c.entries ∧
      Holds P st.generation c.entries (Function.update m name none) := by
  subst h
  exact ⟨rfl, rfl, hv.erase name, hm.delete name⟩

theorem Holds.rotate (hP : Aead.Correct P) {st : SecretStore} {newMaster : MasterKey} {c : Contents}
    (h : Holds P st.generation st.entries m) (hc : RotateAttempt P st newMaster c) :
    Holds P ⟨newMaster, c.salt, c.keyId⟩ c.entries m := by
  intro n
  rcases hc.lookup n with ⟨hold, hnew⟩ | ⟨old, pt, new, hold, hverdict, hnew, hseal⟩
  · rcases h n with ⟨-, hm⟩ | ⟨blob, pt, hsome, -⟩
    · exact Or.inl ⟨hnew, hm⟩
    · rw [hold] at hsome
      cases hsome
  · rcases h n with ⟨hnone, -⟩ | ⟨blob, pt', hsome, hm, hv⟩
    · rw [hold] at hnone
      cases hnone
    · obtain rfl : old = blob := Option.some.inj (hold.symm.trans hsome)
      obtain rfl : pt = pt' := Outcome.ok.inj (hverdict.symm.trans hv)
      exact Or.inr ⟨new, pt, hnew, hm, hseal.verdict hP⟩

end Holds

section Abstraction
variable {ι : Type} {path : Bytes} {P : Primitives}

/-- The file holds the map, and a handle holds what the file does. -/
inductive Represents (P : Primitives) (path : Bytes) (a : MapState) (s : Session)
    (p : Process Bytes ι) : Prop where
  | missing (hp : p.disk.stored path = none) (hs : s.handle = none) (ha : a.held = false)
      (hmap : a.map = fun _ => none)
  | file {d c} (hp : p.disk.stored path = some d) (hcap : d.length ≤ MAX_STORE_BYTES)
      (hc : load d = .ok c) (hmap : Holds P ⟨s.master, c.salt, c.keyId⟩ c.entries a.map)
      (hheld : a.held = s.handle.isSome)
      (hhandle : ∀ st, s.handle = some st → st.master = s.master ∧ c.Same st.toContents)

variable {a : MapState} {s : Session} {p p' : Process Bytes ι}

theorem represents_of_stored (st : SecretStore) {d : Bytes} {c : Contents}
    {m : Str → Option SecretBuf} (hp : p.disk.stored path = some d)
    (hcap : d.length ≤ MAX_STORE_BYTES) (hc : load d = .ok c) (hsame : c.Same st.toContents)
    (hmap : Holds P st.generation st.entries m) :
    Represents P path ⟨m, true⟩ ⟨st.master, some st⟩ p := by
  refine .file hp hcap hc ?_ rfl ?_
  · rw [hsame.salt, hsame.keyId]
    exact hmap.same hsame.entries
  · rintro _ ⟨⟩
    exact ⟨rfl, hsame⟩

theorem represents_of_saved (st : SecretStore) {d : Bytes} {m : Str → Option SecretBuf}
    (hv : Valid st.entries) (himage : checkedImage st.toContents = .ok d)
    (hp : p.disk.stored path = some d) (hmap : Holds P st.generation st.entries m) :
    Represents P path ⟨m, true⟩ ⟨st.master, some st⟩ p := by
  obtain ⟨c, hc, hsame⟩ := load_checkedImage hv himage
  exact represents_of_stored st hp (checkedImage_eq_ok.mp himage).2 hc hsame hmap

theorem Represents.handle {st : SecretStore} (h : Represents P path a s p)
    (hs : s.handle = some st) : a.held = true ∧ st.master = s.master ∧
      Holds P st.generation st.entries a.map ∧
      ∃ d c, p.disk.stored path = some d ∧ d.length ≤ MAX_STORE_BYTES ∧ load d = .ok c ∧
        c.Same st.toContents := by
  cases h with
  | missing hp hnone ha hmap =>
    rw [hs] at hnone
    cases hnone
  | file hp hcap hc hmap hheld hhandle =>
    obtain ⟨hmaster, hsame⟩ := hhandle st hs
    rw [hs] at hheld
    refine ⟨hheld, hmaster, ?_, _, _, hp, hcap, hc, hsame⟩
    have hgen : st.generation = ⟨s.master, _, _⟩ :=
      congr (congrArg₂ Generation.mk hmaster hsame.salt.symm) hsame.keyId.symm
    rw [hgen]
    exact hmap.same fun n => (hsame.entries n).symm

theorem Represents.drop (h : Represents P path a s p)
    (hp' : p'.disk.stored path = p.disk.stored path) :
    Represents P path ⟨a.map, false⟩ { s with handle := none } p' := by
  cases h with
  | missing hp hs ha hmap => exact .missing (hp'.trans hp) rfl rfl hmap
  | file hp hcap hc hmap hheld hhandle =>
    exact .file (hp'.trans hp) hcap hc hmap rfl fun _ hst => nomatch hst

theorem Represents.keep {st : SecretStore} {entries : Entries} (h : Represents P path a s p)
    (hs : s.handle = some st) (hsame : Same entries st.entries)
    (hp' : p'.disk.stored path = p.disk.stored path) :
    Represents P path ⟨a.map, true⟩ { s with handle := some { st with entries } } p' := by
  obtain ⟨hheld, hmaster, hmap, d, c, hd, hcap, hc, hcs⟩ := h.handle hs
  rw [← hmaster]
  refine represents_of_stored { st with entries } (hp'.trans hd) hcap hc ?_
    (hmap.same hsame)
  exact ⟨hcs.salt, hcs.keyId, hcs.entries.trans hsame.symm⟩

theorem Represents.unchanged (h : Represents P path a s p)
    (hp' : p'.disk.stored path = p.disk.stored path) : Represents P path a s p' := by
  cases h with
  | missing hp hs ha hmap => exact .missing (hp'.trans hp) hs ha hmap
  | file hp hcap hc hmap hheld hhandle =>
    exact .file (hp'.trans hp) hcap hc hmap hheld hhandle

end Abstraction

section Steps
variable {ι : Type} [DecidableEq ι] {me : ι} {path : Bytes} {P : Primitives}

/-- Random bytes and locked pages are there, and the directory can be synced: a write that fails
fails before the rename. -/
def steady (me : ι) : (kernel Bytes me).Env
  | .getrandom _, c => ∃ b, c = .ok b
  | .lockPages _, c => c = .ok ()
  | .openDir, c => c = none
  | .syncDir, c => c = none
  | _, _ => True

theorem steady_not_flaky : ¬Flaky (steady me) := by
  rintro ⟨e, he | he⟩ <;> cases he

theorem steady_not_starved : ¬Starved ((kernel Bytes me).Answers (steady me)) := by
  rintro ⟨n, e, ⟨c, s, hc, hy⟩ | ⟨c, s, hc, hy⟩⟩
  · obtain ⟨b, rfl⟩ := hc
    cases hy
  · have hc' : c = .ok () := hc
    subst hc'
    cases hy

theorem io_of_fromEnv {e : Error} (h : FromEnv ((kernel Bytes me).Answers (steady me)) e) :
    ∃ x, e = .io x := by
  rcases h with hx | ⟨hs, -⟩
  · exact hx
  · exact absurd hs steady_not_starved

variable {a : MapState} {s : Session} {p p' : Process Bytes ι}

/-- A change of the handle, saved or given up, when what is attempted holds the map `m`. -/
theorem Changed.represents {st st' : SecretStore} {Attempt : Contents → Prop} {Bad : Error → Prop}
    {m : Str → Option SecretBuf} {l l' : Log} {r : Except Error Unit}
    (h : Changed (steady me) st Attempt Bad (l, p) (.ok (r, st')) (l', p'))
    (hrep : Represents P path a s p) (hs : s.handle = some st) (hpath : st.path = path)
    (hattempt : ∀ c, Attempt c → c.salt = st.salt ∧ c.keyId = st.keyId ∧ Valid c.entries ∧
      Holds P st.generation c.entries m)
    (hbad : ∀ e, Bad e → e.IsFormat) :
    (r = .ok () ∧ (∃ c, Attempt c) ∧
      Represents P path ⟨m, true⟩ { s with handle := some st' } p') ∨
    ∃ e, r = .error e ∧ WriteError e ∧
      Represents P path ⟨a.map, true⟩ { s with handle := some st' } p' := by
  obtain ⟨hheld, hmaster, hmap, d, c, hd, hcap, hc, hcs⟩ := hrep.handle hs
  subst hpath
  cases h with
  | saved hc' himage hstored hdir =>
    left
    refine ⟨rfl, ⟨_, hc'⟩, ?_⟩
    obtain ⟨hsalt, hkeyId, hv, hm⟩ := hattempt _ hc'
    rw [← hmaster]
    refine represents_of_saved ⟨_, st.path, st.master, st.lock⟩ hv himage hstored ?_
    have hgen := congr (congrArg₂ Generation.mk (Eq.refl st.master) hsalt) hkeyId
    show Holds P ⟨st.master, _, _⟩ _ _
    rw [hgen]
    exact hm
  | same hstored hdir hc' =>
    left
    refine ⟨rfl, ⟨_, hc'⟩, ?_⟩
    obtain ⟨-, -, -, hm⟩ := hattempt _ hc'
    rw [← hmaster]
    exact represents_of_stored _ (hstored.trans hd) hcap hc hcs hm
  | failed hsame hstored hdir he =>
    right
    refine ⟨_, rfl, ?_, hrep.keep hs hsame hstored⟩
    rcases he with he | he | ⟨c', -, he⟩
    · exact Or.inl (io_of_fromEnv he)
    · exact Or.inr (hbad _ he)
    · exact Or.inr (isFormat_of_checkedImage he)
  | late hsame hflaky => exact absurd hflaky steady_not_flaky

theorem Opened.represents {l l' : Log} {r : Outcome Error SecretStore}
    (h : Opened (steady me) path s.master (l, p) r (l', p')) (hrep : Represents P path a s p) :
    (∃ st, r = .ok st ∧ Represents P path ⟨a.map, true⟩ { s with handle := some st } p') ∨
      ∃ x, r = .err (.io x) ∧ Represents P path ⟨a.map, false⟩ { s with handle := none } p' := by
  cases h with
  | @loaded d c lock t' hd hcap hc ht =>
    left
    refine ⟨_, rfl, ?_⟩
    cases hrep with
    | missing hp => exact absurd (hp.symm.trans hd) (by simp)
    | @file d' c' hp _ hc' hmap =>
      obtain rfl : d' = d := Option.some.inj (hp.symm.trans hd)
      obtain rfl : c' = c := Outcome.ok.inj (hc'.symm.trans hc)
      exact represents_of_stored { c' with path, master := s.master, lock }
        (ht.stored.trans hd) hcap hc ⟨rfl, rfl, Same.refl _⟩ hmap
  | created hnone himage hstored hdir =>
    left
    refine ⟨_, rfl, ?_⟩
    cases hrep with
    | missing hp hs ha hmap =>
      rw [hmap]
      exact represents_of_saved ⟨⟨_, _, ∅⟩, path, s.master, _⟩ valid_empty himage hstored
        holds_empty
    | file hp => exact absurd (hp.symm.trans hnone) (by simp)
  | @rejected d m t' hd hbad ht =>
    cases hrep with
    | missing hp => exact absurd (hp.symm.trans hd) (by simp)
    | @file d' c' hp hcap hc' =>
      obtain rfl : d' = d := Option.some.inj (hp.symm.trans hd)
      have hload := hbad hcap
      rw [hc'] at hload
      cases hload
  | failed he hstored hdir hwrote =>
    right
    obtain ⟨x, rfl⟩ := io_of_fromEnv he
    exact ⟨x, rfl, hrep.drop hstored⟩
  | late he hflaky => exact absurd hflaky steady_not_flaky

theorem Rotated.represents (hP : Aead.Correct P) {st : SecretStore} {newMaster : MasterKey}
    {l l' : Log} {r : Outcome Error SecretStore}
    (h : Rotated P (steady me) st newMaster (l, p) r (l', p')) (hrep : Represents P path a s p)
    (hs : s.handle = some st) (hpath : st.path = path) (hv : Valid st.entries) :
    (∃ st', r = .ok st' ∧ Represents P path ⟨a.map, true⟩ ⟨newMaster, some st'⟩ p') ∨
      ∃ e, r = .err e ∧ WriteError e ∧
        Represents P path ⟨a.map, false⟩ { s with handle := none } p' := by
  obtain ⟨-, -, hmap, -⟩ := hrep.handle hs
  subst hpath
  cases h with
  | saved hc himage hstored hdir =>
    exact Or.inl ⟨_, rfl, represents_of_saved ⟨_, _, newMaster, _⟩ (hc.valid P hv) himage
      hstored (hmap.rotate hP hc)⟩
  | failed hstored hdir he =>
    right
    refine ⟨_, rfl, ?_, hrep.drop hstored⟩
    rcases he with he | he | ⟨c, -, he⟩
    · exact Or.inl (io_of_fromEnv he)
    · obtain ⟨plain, hplain⟩ := hmap.readAll
      rw [hplain] at he
      cases he
    · exact Or.inr (isFormat_of_checkedImage he)
  | late hflaky => exact absurd hflaky steady_not_flaky

theorem list_ascending (st : SecretStore) (start : Str) : (st.list start).Pairwise Str.Lt :=
  Str.sort_ascending (st.entries.keys_nodup.filter _)

theorem mem_list {st : SecretStore} {start n : Str} : n ∈ st.list start ↔ n ∈ st.entries ∧ start <+: n := by
  rw [SecretStore.list, Str.mem_sort, List.mem_filter, AList.mem_keys, List.isPrefixOf_iff_prefix]

theorem Served.represents (hP : Aead.Correct P) {q : Request} {s' : Session} {y : Answer}
    {l l' : Log} (h : Served P (steady me) path q s (l, p) y s' (l', p'))
    (hgood : s.Good path) (hq : ∀ m, q ≠ .use m) (hrep : Represents P path a s p) :
    ∃ a', MapStep a q y a' ∧ Represents P path a' s' p' := by
  -- A request that reaches the handle finds the map held.
  have hheld : ∀ st, s.handle = some st → a = ⟨a.map, true⟩ := by
    intro st hst
    rw [← (hrep.handle hst).1]
  cases h with
  | noHandle hneeds hnone =>
    refine ⟨a, ?_, hrep⟩
    have hnot : a = ⟨a.map, false⟩ := by
      cases hrep with
      | missing hp hs ha hmap => rw [← ha]
      | file hp hcap hc hmap hheld hhandle =>
        rw [hnone] at hheld
        exact congrArg (MapState.mk a.map) hheld
    rw [hnot]
    exact .noHandle hneeds
  | opened h =>
    rcases h.represents hrep with ⟨st, hst, hrep'⟩ | ⟨x, hx, -⟩
    · cases hst
      exact ⟨_, .opened, hrep'⟩
    · cases hx
  | openFailed h =>
    rcases h.represents hrep with ⟨st, hst, -⟩ | ⟨x, hx, hrep'⟩
    · cases hst
    · cases hx
      exact ⟨_, .openFailed, hrep'⟩
  | closed ht => exact ⟨_, .closed, hrep.drop ht.stored⟩
  | used => exact absurd rfl (hq _)
  | put hst h =>
    have hvalid := hgood.valid _ hst
    obtain ⟨-, -, hmap, -⟩ := hrep.handle hst
    rw [hheld _ hst]
    rcases h.represents hrep hst (hgood.path _ hst)
        (fun c hc => hc.holds hP hvalid hmap) fun e => isFormat_of_validateName with
      ⟨rfl, ⟨c, blob, hname, -⟩, hrep'⟩ | ⟨e, rfl, he, hrep'⟩
    · exact ⟨_, .put hname, hrep'⟩
    · exact ⟨_, .putFailed he, hrep'⟩
  | got hst h ht =>
    obtain ⟨-, -, hmap, -⟩ := hrep.handle hst
    rw [hheld _ hst]
    -- in a steady environment there are locked pages for what is read
    rcases h with rfl | ⟨hlocks, -⟩
    swap
    · exact absurd hlocks.starved steady_not_starved
    have hrep' := hrep.unchanged ht.stored
    rw [hheld _ hst] at hrep'
    rw [hmap.read]
    refine ⟨_, ?_, hrep'⟩
    cases hm : a.map _ with
    | none => exact .missing hm
    | some pt => exact .got hm
  | deleted hst h =>
    have hvalid := hgood.valid _ hst
    obtain ⟨-, -, hmap, -⟩ := hrep.handle hst
    rw [hheld _ hst]
    rcases h.represents hrep hst (hgood.path _ hst)
        (fun c hc => holds_erased hc hvalid hmap) fun e he => he.elim with
      ⟨rfl, -, hrep'⟩ | ⟨e, rfl, he, hrep'⟩
    · exact ⟨_, .deleted, hrep'⟩
    · exact ⟨_, .deleteFailed he, hrep'⟩
  | contained hst =>
    obtain ⟨-, -, hmap, -⟩ := hrep.handle hst
    rw [hheld _ hst] at hrep ⊢
    refine ⟨_, ?_, hrep⟩
    rw [hmap.contains]
    exact .contained
  | listed hst =>
    obtain ⟨-, -, hmap, -⟩ := hrep.handle hst
    rw [hheld _ hst] at hrep ⊢
    refine ⟨_, .listed (list_ascending _ _) fun n => ?_, hrep⟩
    rw [mem_list, hmap.isSome]
  | rotated hst h =>
    rw [hheld _ hst]
    rcases h.represents hP hrep hst (hgood.path _ hst) (hgood.valid _ hst) with
      ⟨st', hst', hrep'⟩ | ⟨e, he, -⟩
    · cases hst'
      exact ⟨_, .rotated, hrep'⟩
    · cases he
  | rotateFailed hst h =>
    rw [hheld _ hst]
    rcases h.represents hP hrep hst (hgood.path _ hst) (hgood.valid _ hst) with
      ⟨st', hst', -⟩ | ⟨e, he, hw, hrep'⟩
    · cases hst'
    · cases he
      exact ⟨_, .rotateFailed hw, hrep'⟩

/-- From a missing file every run of a store answers as the map does, and the handle holds what
`load` finds in the file. -/
theorem store_refines_map (hP : Aead.Correct P) {m0 : MasterKey} {p0 : Process Bytes ι}
    (h0 : p0.disk.stored path = none) {l : List (Request × Answer)} {s : Session}
    {p : Process Bytes ι}
    (hrun : Serves (kernel Bytes me) (steady me) (serve P path) (.start m0, p0) l (s, p))
    (huse : ∀ r ∈ l, ∀ m, r.1 ≠ .use m) :
    ∃ a, Traces MapStep ⟨fun _ => none, false⟩ l a ∧
      ∀ st, s.handle = some st → ∃ d c, p.disk.stored path = some d ∧ load d = .ok c ∧
        c.Same st.toContents := by
  have hstart : Represents P path ⟨fun _ => none, false⟩ (Session.start m0) p0 :=
    .missing h0 rfl rfl rfl
  obtain ⟨a, htrace, -, hrep⟩ := hrun.refines
    (fun a s p => s.Good path ∧ Represents P path a s p) (fun q => ∀ m, q ≠ .use m)
    huse ⟨Session.good_start m0, hstart⟩ (by
      rintro b q s p y s' p' hq ⟨hgood, hrep⟩ hends
      obtain ⟨l', -, hserved⟩ := served_of_ends P hgood hends []
      obtain ⟨c, hc, hrep'⟩ := hserved.represents hP hgood hq hrep
      exact ⟨c, hc, hserved.good P hgood, hrep'⟩)
  refine ⟨a, htrace, fun st hst => ?_⟩
  obtain ⟨-, -, -, d, c, hd, -, hc, hsame⟩ := hrep.handle hst
  exact ⟨d, c, hd, hc, hsame⟩

theorem steady_failing (op : Call Bytes) : steady me op (failing (fun _ => false) op) := by
  cases op with
  | getrandom n => exact ⟨_, rfl⟩
  | lockPages n => rfl
  | openDir => rfl
  | syncDir => rfl
  | _ => trivial

end Steps

def sampleRun : Option (List (Request × Answer) × (Session × Process Bytes Unit)) :=
  serveAll (kernel Bytes ()) (failing fun _ => false) (serve sampleCiphers samplePath)
    [.reopen, .put ['a'] [5], .reopen, .get ['a'], .delete ['a'], .get ['a']]
    (.start sampleKey, .start)

def sampleAnswers : List (Request × Answer) :=
  [(.reopen, .done (.ok ())), (.put ['a'] [5], .done (.ok ())), (.reopen, .done (.ok ())),
    (.get ['a'], .secret (.ok [5])), (.delete ['a'], .done (.ok ())),
    (.get ['a'], .secret (.error .keyNotFound))]

theorem store_refines_map_sample : ∃ s p a, sampleRun = some (sampleAnswers, s, p) ∧
    Traces MapStep ⟨fun _ => none, false⟩ sampleAnswers a ∧
    ∀ st, s.handle = some st → ∃ d c, p.disk.stored samplePath = some d ∧ load d = .ok c ∧
      c.Same st.toContents := by
  obtain ⟨⟨l, s, p⟩, hr⟩ : ∃ r, sampleRun = some r := Option.isSome_iff_exists.mp (by decide +kernel)
  have hl : sampleRun.map Prod.fst = some sampleAnswers := by decide +kernel
  rw [hr] at hl
  obtain rfl : l = sampleAnswers := Option.some.inj hl
  have hrun := serves_of_serveAll steady_failing hr
  have huse : ∀ r ∈ sampleAnswers, ∀ m, r.1 ≠ .use m := by
    simp [sampleAnswers]
  obtain ⟨a, htrace, hfile⟩ := store_refines_map (Aead.transparent_correct _) rfl hrun huse
  exact ⟨s, p, a, hr, htrace, hfile⟩

end Krypto.Store
