import Krypto.Store.Opening

/-! What `put`, `delete` and `rotate` do to the file and to the handle, whichever
calls fail. -/

namespace Krypto.Store
open Effect

section Specs
variable {ι : Type} [DecidableEq ι] {me : ι} {E : (kernel Bytes me).Env} (P : Primitives)

def inserted (c : Contents) (name : Str) (blob : Bytes) : Contents :=
  { c with entries := c.entries.insert name blob }

def erased (c : Contents) (name : Str) : Contents := { c with entries := c.entries.erase name }

/-- How a change of the handle's contents to `c` can end: the file is replaced and the handle
changed, or the handle is as it was, and so is the file unless the directory failed. -/
inductive Changed (E : (kernel Bytes me).Env) (self : SecretStore) (Attempt : Contents → Prop)
    (Bad : Error → Prop) (t : Log × Process Bytes ι) :
    Outcome Error (Except Error Unit × SecretStore) → Log × Process Bytes ι → Prop where
  | saved {c data t'} (hc : Attempt c) (himage : checkedImage c = .ok data)
      (hstored : t'.2.disk.stored self.path = some data) (hdir : dirFailed t'.1 = dirFailed t.1) :
      Changed E self Attempt Bad t (.ok (.ok (), { self with toContents := c })) t'
  | same {t'} (hstored : t'.2.disk.stored self.path = t.2.disk.stored self.path)
      (hdir : dirFailed t'.1 = dirFailed t.1) (hc : Attempt self.toContents) :
      Changed E self Attempt Bad t (.ok (.ok (), self)) t'
  | failed {e entries t'} (hsame : Same entries self.entries)
      (hstored : t'.2.disk.stored self.path = t.2.disk.stored self.path)
      (hdir : dirFailed t'.1 = dirFailed t.1)
      (he : FromEnv ((kernel Bytes me).Answers E) e ∨ Bad e ∨ ∃ c, Attempt c ∧ checkedImage c = .err e)
      (hio : (∃ x, e = .io x) → Bad e ∨ ∃ c data, Attempt c ∧ checkedImage c = .ok data) :
      Changed E self Attempt Bad t (.ok (.error e, { self with entries })) t'
  | late {e entries c data t'} (hsame : Same entries self.entries) (hflaky : Flaky E)
      (he : FromEnv ((kernel Bytes me).Answers E) e) (hc : Attempt c) (himage : checkedImage c = .ok data)
      (hstored : t'.2.disk.stored self.path = some data) (hdir : dirFailed t'.1 = true)
      (hwrote : written t'.1 = written t.1 ++ [data]) :
      Changed E self Attempt Bad t (.ok (.error e, { self with entries })) t'

variable {self : SecretStore} {Attempt : Contents → Prop} {Bad : Error → Prop}

theorem Changed.after {l l1 : Log} {s : Process Bytes ι} {t : Log × Process Bytes ι}
    {r : Outcome Error (Except Error Unit × SecretStore)} (hd : dirFailed l1 = dirFailed l)
    (hw : written l1 = written l) (h : Changed E self Attempt Bad (l1, s) r t) :
    Changed E self Attempt Bad (l, s) r t := by
  cases h with
  | saved hc himage hstored hdir => exact .saved hc himage hstored (hdir.trans hd)
  | same hstored hdir hc => exact .same hstored (hdir.trans hd) hc
  | failed hsame hstored hdir he hio => exact .failed hsame hstored (hdir.trans hd) he hio
  | late hsame hflaky he hc himage hstored hdir hwrote =>
    exact .late hsame hflaky he hc himage hstored hdir (hwrote.trans (by rw [hw]))

variable (Attempt) in
/-- Write the changed contents, and roll the handle back on an error. -/
theorem persist_or_rollback_wp {c : Contents} {rolled : Entries} (hc : Attempt c)
    (hrolled : Same rolled self.entries) (t : Log × Process Bytes ι) :
    wp (kernel Bytes me).logged E anyStep (do
      match ← ({ self with toContents := c } : SecretStore).persist.attempt with
      | .ok () => pure (.ok (), { self with toContents := c })
      | .error e => pure (.error e, { self with entries := rolled }))
      (Changed E self Attempt Bad t) t := by
  obtain ⟨l, s⟩ := t
  rw [wp_bind, wp_attempt]
  refine (persist_wp _ l s).imp fun r t ht => ?_
  cases ht with
  | refused e hr he ht =>
    rw [hr, ht]
    refine .failed hrolled rfl rfl (Or.inr (Or.inr ⟨c, hc, he⟩)) ?_
    rintro ⟨x, rfl⟩
    exact (isFormat_of_checkedImage he).elim
  | replaced data himage h =>
    cases h with
    | saved stored dir wrote => exact .saved hc himage stored dir
    | kept he stored dir =>
      exact .failed hrolled stored dir (Or.inl he) fun _ => Or.inr ⟨c, data, hc, himage⟩
    | late he flaky stored dir wrote => exact .late hrolled flaky he hc himage stored dir wrote

def PutAttempt (self : SecretStore) (name : Str) (secret : Bytes) (c : Contents) : Prop :=
  ∃ blob, ValidName name ∧ self.generation.Seals P name secret blob ∧
    c = inserted self.toContents name blob

theorem put_wp (self : SecretStore) (name : Str) (secret : Bytes) (t : Log × Process Bytes ι) :
    wp (kernel Bytes me).logged E anyStep (self.put P name secret)
      (Changed E self (PutAttempt P self name secret) (fun e => validateName name = .err e) t) t := by
  obtain ⟨l, s⟩ := t
  generalize hBad : (fun e => validateName name = .err e) = Bad
  unfold SecretStore.put
  dsimp only
  rw [wp_bind, wp_attempt]
  rcases validateName_cases name with hv | ⟨m, hv⟩
  swap
  · rw [hv, lift_err_bind]
    have hbad : Bad (.format m) := hBad ▸ hv
    exact .failed (Same.refl _) rfl rfl (Or.inr (Or.inl hbad)) fun _ => Or.inl hbad
  have hvalid := validateName_eq_ok.mp hv
  rw [hv, lift_ok_bind]
  refine (quiet_wp (SecretStore.sealUnder_quiet P self hvalid secret) l s).imp fun r t ht => ?_
  obtain ⟨l1, s1⟩ := t
  obtain ⟨hr, hd, hw, hs⟩ := ht
  obtain rfl : s1 = s := hs
  rcases hr with ⟨blob, rfl, hseal⟩ | ⟨hstarved, m, rfl⟩
  swap
  · exact .failed (Same.refl _) rfl hd (Or.inl (Or.inr ⟨hstarved, m, rfl⟩)) fun h => nomatch h
  have hc : PutAttempt P self name secret (inserted self.toContents name blob) :=
    ⟨blob, hvalid, hseal, rfl⟩
  exact (persist_or_rollback_wp _ hc (same_rolled self.entries name blob) (l1, s1)).imp fun r t h => h.after hd hw

theorem delete_wp (self : SecretStore) (name : Str) (t : Log × Process Bytes ι) :
    wp (kernel Bytes me).logged E anyStep (self.delete name)
      (Changed E self (fun c => c = erased self.toContents name) (fun _ => False) t) t := by
  unfold SecretStore.delete
  cases hold : self.entries.lookup name with
  | none =>
    have hmem : name ∉ self.entries.keys :=
      fun h => AList.lookup_eq_none.mp hold (AList.mem_keys.mpr h)
    have hsame : self.entries.erase name = self.entries :=
      AList.ext (List.kerase_of_notMem_keys hmem)
    refine .same rfl rfl ?_
    rw [erased, hsame]
  | some old =>
    have hc : erased self.toContents name = erased self.toContents name := rfl
    exact persist_or_rollback_wp (fun c => c = erased self.toContents name) hc
      (same_insert_erase hold) t

/-- What `rotate` attempts: every entry, opened with the old key, under the new generation. -/
def RotateAttempt (self : SecretStore) (newMaster : MasterKey) (c : Contents) : Prop :=
  ∃ plain es, self.readAll P (Str.sort self.entries.keys) = .ok plain ∧
    SecretStore.SealedAs P ⟨newMaster, c.salt, c.keyId⟩ plain es ∧ c.entries = insertAll ∅ es

variable {P} in
theorem sealedAs_names {g : Generation} {plain es : List (Str × Bytes)}
    (h : SecretStore.SealedAs P g plain es) : es.map Prod.fst = plain.map Prod.fst := by
  induction h with
  | nil => rfl
  | cons h _ ih => rw [List.map_cons, List.map_cons, h.1, ih]

variable {P} in
theorem sealedAs_mem {g : Generation} {plain es : List (Str × Bytes)}
    (h : SecretStore.SealedAs P g plain es) {n : Str} {pt : Bytes} (hp : (n, pt) ∈ plain) :
    ∃ blob, (n, blob) ∈ es ∧ g.Seals P n pt blob := by
  induction h with
  | nil => exact absurd hp List.not_mem_nil
  | @cons p e _ _ he _ ih =>
    rcases List.mem_cons.mp hp with rfl | hp
    · exact ⟨e.2, List.mem_cons.mpr (Or.inl (Prod.ext he.1.symm rfl)), he.2⟩
    · obtain ⟨blob, hb, hs⟩ := ih hp
      exact ⟨blob, List.mem_cons_of_mem _ hb, hs⟩

variable {P} in
theorem RotateAttempt.lookup {self : SecretStore} {newMaster : MasterKey} {c : Contents}
    (h : RotateAttempt P self newMaster c) (n : Str) :
    (self.entries.lookup n = none ∧ c.entries.lookup n = none) ∨
      ∃ old pt new, self.entries.lookup n = some old ∧ self.generation.verdict P n old = .ok pt ∧
        c.entries.lookup n = some new ∧ Generation.Seals P ⟨newMaster, c.salt, c.keyId⟩ n pt new := by
  obtain ⟨plain, es, hplain, hes, hc⟩ := h
  obtain ⟨hnames, hread⟩ := (SecretStore.readAll_eq_ok P).mp hplain
  have hfst : es.map Prod.fst = Str.sort self.entries.keys := (sealedAs_names hes).trans hnames
  have hnodup : (es.map Prod.fst).Nodup := by
    rw [hfst, (Str.perm_sort _).nodup_iff]
    exact self.entries.keys_nodup
  have hlookup (b : Bytes) : c.entries.lookup n = some b ↔ (n, b) ∈ es := by
    rw [hc, lookup_insertAll (fresh_empty.mpr hnodup), AList.lookup_empty]
    simp
  cases hold : self.entries.lookup n with
  | none =>
    left
    refine ⟨rfl, Option.eq_none_iff_forall_not_mem.mpr fun b hb => ?_⟩
    have hmem : n ∈ es.map Prod.fst := List.mem_map.mpr ⟨_, (hlookup b).mp hb, rfl⟩
    rw [hfst] at hmem
    exact AList.lookup_eq_none.mp hold (mem_of_mem_sort n hmem)
  | some old =>
    right
    have hmem : n ∈ plain.map Prod.fst := by
      rw [hnames, Str.mem_sort, ← AList.mem_keys, ← AList.lookup_isSome, hold]
      rfl
    obtain ⟨⟨m, pt⟩, hp, rfl⟩ := List.mem_map.mp hmem
    obtain ⟨new, hnew, hseal⟩ := sealedAs_mem hes hp
    have hverdict := hread _ hp
    rw [SecretStore.read_of_lookup P hold] at hverdict
    exact ⟨old, pt, new, rfl, hverdict, (hlookup new).mpr hnew, hseal⟩

inductive Rotated (E : (kernel Bytes me).Env) (self : SecretStore) (newMaster : MasterKey)
    (t : Log × Process Bytes ι) : Outcome Error SecretStore → Log × Process Bytes ι → Prop where
  | saved {c data t'} (hc : RotateAttempt P self newMaster c) (himage : checkedImage c = .ok data)
      (hstored : t'.2.disk.stored self.path = some data) (hdir : dirFailed t'.1 = dirFailed t.1) :
      Rotated E self newMaster t
        (.ok { c with path := self.path, master := newMaster, lock := self.lock }) t'
  | failed {e t'} (hstored : t'.2.disk.stored self.path = t.2.disk.stored self.path)
      (hdir : dirFailed t'.1 = dirFailed t.1)
      (he : FromEnv ((kernel Bytes me).Answers E) e ∨
        self.readAll P (Str.sort self.entries.keys) = .err e ∨
        ∃ c, RotateAttempt P self newMaster c ∧ checkedImage c = .err e) :
      Rotated E self newMaster t (.err e) t'
  | late {e c data t'} (hflaky : Flaky E) (he : FromEnv ((kernel Bytes me).Answers E) e)
      (hc : RotateAttempt P self newMaster c) (himage : checkedImage c = .ok data)
      (hstored : t'.2.disk.stored self.path = some data) (hdir : dirFailed t'.1 = true)
      (hwrote : written t'.1 = written t.1 ++ [data]) :
      Rotated E self newMaster t (.err e) t'

theorem valid_sort {entries : Entries} (hv : Valid entries) :
    ∀ n ∈ Str.sort entries.keys, ValidName n :=
  fun n hn => hv n (mem_of_mem_sort n hn)

/-- `rotate` up to the write: the new generation, the error of an entry that is not read, or a
refusal. -/
theorem newGeneration_quiet {A : (op : Call Bytes) → op.Reply → Prop} {self : SecretStore}
    (hv : Valid self.entries) (newMaster : MasterKey) :
    Quiet Call.Private A (self.newGeneration P newMaster) fun r =>
      (∃ c, RotateAttempt P self newMaster c ∧
        r = .ok { c with path := self.path, master := newMaster, lock := self.lock }) ∨
      (∃ e, r = .err e ∧ self.readAll P (Str.sort self.entries.keys) = .err e) ∨
      SecretStore.Refused (Starved A) r := by
  have hnames := valid_sort hv
  unfold SecretStore.newGeneration
  rw [quiet_bind]
  refine (SecretStore.decryptAll_quiet P self hnames).imp fun r hr => ?_
  rcases hr with rfl | ⟨hlocks, m, rfl⟩
  swap
  · exact Or.inr (Or.inr ⟨hlocks.starved, m, rfl⟩)
  cases hplain : self.readAll P (Str.sort self.entries.keys) with
  | panic => exact absurd hplain (SecretStore.readAll_ne_panic P self _)
  | err e => exact Or.inr (Or.inl ⟨e, rfl, rfl⟩)
  | ok plain =>
    have hplainNames : ∀ p ∈ plain, ValidName p.1 := by
      intro p hp
      have hfst := ((SecretStore.readAll_eq_ok P).mp hplain).1
      exact hnames p.1 (hfst ▸ List.mem_map_of_mem hp)
    refine SecretStore.bind_refused (SecretStore.fill_starved 16 "getrandom: ") (fun salt _ => ?_)
      fun r hr => Or.inr (Or.inr hr)
    refine SecretStore.bind_refused (SecretStore.fill_starved 16 "getrandom: ") (fun keyId _ => ?_)
      fun r hr => Or.inr (Or.inr hr)
    refine (SecretStore.sealAll_quiet P _ hplainNames).imp fun r hr => ?_
    rcases hr with ⟨st, rfl, es, hes, rfl⟩ | hr
    · exact Or.inl ⟨⟨salt, keyId, insertAll ∅ es⟩, ⟨plain, es, hplain, hes, rfl⟩, rfl⟩
    · exact Or.inr (Or.inr hr)

theorem Rotated.dropLock {self : SecretStore} {newMaster : MasterKey} {t t1 : Log × Process Bytes ι}
    {e : Error} (lock : Option Nat) (h : Rotated P E self newMaster t (.err e) t1) :
    wp (kernel Bytes me).logged E anyStep
      ((Store.dropLock lock).andThen fun _ => Prog.done (.err e))
      (Rotated P E self newMaster t) t1 := by
  rw [wp_andThen]
  refine (harmless_wp self.path (dropLock_quiet lock (Q := fun _ => True) trivial) t1).imp
    fun _ t' ht => ?_
  have ht' := ht.2
  cases h with
  | failed hstored hdir he => exact .failed (ht'.stored.trans hstored) (ht'.dir.trans hdir) he
  | late hflaky he hc himage hstored hdir hwrote =>
    exact .late hflaky he hc himage (ht'.stored.trans hstored) (ht'.dir.trans hdir)
      (ht'.wrote.trans hwrote)

theorem rotateLocked_wp {self : SecretStore} (hv : Valid self.entries) (newMaster : MasterKey)
    (t : Log × Process Bytes ι) :
    wp (kernel Bytes me).logged E anyStep (self.rotateLocked P newMaster)
      (fun r t' => r ≠ .panic ∧ Rotated P E self newMaster t r t') t := by
  obtain ⟨l, s⟩ := t
  unfold SecretStore.rotateLocked
  rw [wp_bind]
  refine (quiet_wp (newGeneration_quiet P hv newMaster) l s).imp fun r t1 ht => ?_
  obtain ⟨l1, s1⟩ := t1
  obtain ⟨hr, hd, hw, hs⟩ := ht
  obtain rfl : s1 = s := hs
  rcases hr with ⟨c, hc, rfl⟩ | ⟨e, rfl, he⟩ | ⟨hstarved, m, rfl⟩
  · show wp _ _ _ (SecretStore.persist _ >>= fun _ => pure _) _ _
    rw [wp_bind]
    refine (persist_wp _ l1 s1).imp fun r t' ht => ?_
    cases ht with
    | refused e hr he ht =>
      rw [hr, ht]
      exact ⟨by simp, .failed rfl hd (Or.inr (Or.inr ⟨c, hc, he⟩))⟩
    | replaced data himage h =>
      cases h with
      | saved stored dir wrote => exact ⟨by simp, .saved hc himage stored (dir.trans hd)⟩
      | kept he stored dir => exact ⟨by simp, .failed stored (dir.trans hd) (Or.inl he)⟩
      | late he flaky stored dir wrote =>
        exact ⟨by simp, .late flaky he hc himage stored dir (wrote.trans (by rw [hw]))⟩
  · exact ⟨by simp, .failed rfl hd (Or.inr (Or.inl he))⟩
  · exact ⟨by simp, .failed rfl hd (Or.inl (Or.inr ⟨hstarved, m, rfl⟩))⟩

theorem rotate_wp {self : SecretStore} (hv : Valid self.entries) (newMaster : MasterKey)
    (t : Log × Process Bytes ι) :
    wp (kernel Bytes me).logged E anyStep (self.rotate P newMaster)
      (Rotated P E self newMaster t) t := by
  unfold SecretStore.rotate
  rw [Prog.onErr, wp_andThen]
  refine (rotateLocked_wp P hv newMaster t).imp fun r t' h => ?_
  cases r with
  | ok st => exact h.2
  | panic => exact absurd rfl h.1
  | err e => exact h.2.dropLock P self.lock

end Specs
end Krypto.Store
