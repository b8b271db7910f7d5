import Krypto.Store.Effects

/-! What opening a store does to its file: nothing, when there is one, whichever
calls fail; and what the handle then holds. -/

namespace Krypto.Store
open Effect

/-- A call that leaves what is stored at `path` alone, and the directory unsynced. -/
def Harmless (path : Bytes) : Call Bytes → Prop
  | .openCreate n _ => n ≠ path
  | .createNew _ _ | .write _ _ | .sync _ | .rename _ _ | .remove _ | .openDir | .syncDir => False
  | _ => True

section Quiet
variable {A : (op : Call Bytes) → op.Reply → Prop} {path : Bytes}

theorem dropFile_quiet (f : Nat) {Q : Outcome Error Unit → Prop} (h : Q (.ok ())) :
    Quiet (Harmless path) A (dropFile f) Q := ⟨trivial, fun _ _ => h⟩

theorem dropFile_bind_quiet {α : Type} (f : Nat) {p : Action Bytes α} {Q : Outcome Error α → Prop}
    (h : Quiet (Harmless path) A p Q) :
    Quiet (Harmless path) A (dropFile f >>= fun _ => p) Q := ⟨trivial, fun _ _ => h⟩

theorem dropLock_quiet (lock : Option Nat) {Q : Outcome Error Unit → Prop} (h : Q (.ok ())) :
    Quiet (Harmless path) A (dropLock lock) Q := by
  cases lock with
  | none => exact h
  | some f => exact dropFile_quiet f h

def OrIo {α : Type} (S : α → Prop) (r : Outcome Error α) : Prop :=
  (∃ a, r = .ok a ∧ S a) ∨ ∃ e, r = .err (.io e)

theorem openLockFile_quiet {n : Bytes} (hn : n ≠ path) :
    Quiet (Harmless path) A (openLockFile n) (OrIo fun _ => True) := by
  refine ⟨hn, ?_⟩
  rintro (e | f) _
  swap
  · exact Or.inl ⟨_, rfl, trivial⟩
  show Quiet _ _ (if e.kind = .readOnlyFilesystem then pure none
    else if e.kind = .permissionDenied then _ else Prog.throw (Error.io e)) _
  split_ifs
  · exact Or.inl ⟨_, rfl, trivial⟩
  · refine ⟨trivial, ?_⟩
    rintro (e | f) _
    · show Quiet _ _ (if e.kind = .notFound then pure none else Prog.throw (Error.io e)) _
      split_ifs
      · exact Or.inl ⟨_, rfl, trivial⟩
      · exact Or.inr ⟨e, rfl⟩
    · exact Or.inl ⟨_, rfl, trivial⟩
  · exact Or.inr ⟨e, rfl⟩

theorem isSameFile_quiet (f : Nat) (n : Bytes) :
    Quiet (Harmless path) A (isSameFile f n) (OrIo fun _ => True) := by
  refine ⟨trivial, ?_⟩
  rintro (e | held) _
  · exact Or.inr ⟨e, rfl⟩
  refine ⟨trivial, ?_⟩
  rintro (e | now) _
  · show Quiet _ _ (if e.kind = .notFound then pure false else Prog.throw (Error.io e)) _
    split_ifs
    · exact Or.inl ⟨_, rfl, trivial⟩
    · exact Or.inr ⟨e, rfl⟩
  · exact Or.inl ⟨_, rfl, trivial⟩

theorem lockTries_quiet {n : Bytes} (hn : n ≠ path) (tries : Nat) :
    Quiet (Harmless path) A (lockTries n tries) (OrIo fun _ => True) := by
  induction tries with
  | zero => exact Or.inr ⟨_, rfl⟩
  | succ tries ih =>
    refine (openLockFile_quiet hn).bind (fun lock _ => ?_) (fun e he => ?_) fun hp => ?_
    · cases lock with
      | none => exact Or.inl ⟨none, rfl, trivial⟩
      | some f =>
        refine ⟨trivial, ?_⟩
        rintro ((_ | e) | _) _
        · exact dropFile_bind_quiet (p := Prog.throw _) f (Or.inr ⟨_, rfl⟩)
        · exact dropFile_bind_quiet (p := Prog.throw _) f (Or.inr ⟨_, rfl⟩)
        · show Quiet _ _ ((isSameFile f n).onErr (dropFile f) >>= fun same =>
            if same then pure (some f) else dropFile f >>= fun _ => lockTries n tries) _
          rw [quiet_bind, Prog.onErr, quiet_andThen]
          refine (isSameFile_quiet f n).imp fun r hr => ?_
          rcases hr with ⟨same, rfl, -⟩ | ⟨e, rfl⟩
          · cases same with
            | true => exact Or.inl ⟨_, rfl, trivial⟩
            | false => exact dropFile_bind_quiet f ih
          · exact (quiet_andThen _ _ _).mpr (dropFile_quiet f (Or.inr ⟨e, rfl⟩))
    · exact Or.inr (by simpa [OrIo] using he)
    · simp [OrIo] at hp

theorem takeLock_quiet : Quiet (Harmless path) A (takeLock path) (OrIo fun _ => True) :=
  lockTries_quiet (lockPath_ne path) 3

variable (path) in
theorem readCapped_quiet (n : Bytes) (cap : Nat) :
    Quiet (Harmless path) A (readCapped n cap) fun _ => True := by
  refine ⟨trivial, ?_⟩
  rintro (e | f) _
  · show Quiet _ _ (if e.kind = .notFound then pure none else Prog.throw (Error.io e)) _
    split_ifs <;> trivial
  · have hread : Quiet (Harmless path) A
        (Prog.always (do orIo (← ask (.read f (cap + 1)))) (dropFile f)) fun _ => True := by
      refine (quiet_andThen _ _ _).mpr ⟨trivial, ?_⟩
      rintro (e | bytes) _ <;>
        exact (quiet_andThen _ _ _).mpr (dropFile_quiet f (Q := fun _ => True) trivial)
    refine hread.bind (fun bytes _ => ?_) (fun _ _ => trivial) fun _ => trivial
    split_ifs <;> trivial

variable (path) in
theorem makePrivate_quiet (n : Bytes) :
    Quiet (Harmless path) A (makePrivate n) (OrIo fun _ => True) := by
  refine ⟨trivial, ?_⟩
  rintro (e | m) _
  · exact Or.inr ⟨e, rfl⟩
  show Quiet _ _ (if m.mode &&& 0o777 = 0o600 then pure () else _) _
  split_ifs
  · exact Or.inl ⟨_, rfl, trivial⟩
  refine ⟨trivial, ?_⟩
  rintro (e | _) _
  · show Quiet _ _ (if e.kind = .permissionDenied then pure () else Prog.throw (Error.io e)) _
    split_ifs
    · exact Or.inl ⟨_, rfl, trivial⟩
    · exact Or.inr ⟨e, rfl⟩
  · exact Or.inl ⟨_, rfl, trivial⟩

end Quiet

section Specs
variable {ι : Type} [DecidableEq ι] {me : ι} {E : (kernel Bytes me).Env} {path : Bytes}

structure Untouched (path : Bytes) (t t' : Log × Process Bytes ι) : Prop where
  stored : t'.2.disk.stored path = t.2.disk.stored path
  dir : dirFailed t'.1 = dirFailed t.1
  wrote : written t'.1 = written t.1

omit [DecidableEq ι] in
theorem Untouched.refl (t : Log × Process Bytes ι) : Untouched path t t := ⟨rfl, rfl, rfl⟩

omit [DecidableEq ι] in
theorem Untouched.trans {t t' t'' : Log × Process Bytes ι} (h : Untouched path t t')
    (h' : Untouched path t' t'') : Untouched path t t'' :=
  ⟨h'.stored.trans h.stored, h'.dir.trans h.dir, h'.wrote.trans h.wrote⟩

variable (me path) in
theorem untouched_step (op : Call Bytes) (h : Harmless path op) (c : op.Choice)
    (t : Log × Process Bytes ι) :
    Untouched path t (t.1 ++ [⟨op, (Process.step me op c t.2).1⟩], (Process.step me op c t.2).2) := by
  obtain ⟨l, s⟩ := t
  have hsilent (y : op.Reply) : dirFailure ⟨op, y⟩ = false ∧ writeOf ⟨op, y⟩ = none := by
    cases op <;> first | exact h.elim | exact ⟨rfl, rfl⟩
  obtain ⟨hd, hw⟩ := hsilent (Process.step me op c s).1
  refine ⟨?_, by simp [hd], by simp [hw]⟩
  show (Process.step me op c s).2.disk.stored path = s.disk.stored path
  generalize (Process.step me op c s).2 = s', Process.step_moves me op c s = hstep
  cases hstep with
  | same | opened | openedRead | locked | chmoded | closed => rfl
  | openedNew => exact s.disk.stored_create_of_ne (Ne.symm h) _
  | _ => exact h.elim

variable (path) in
theorem harmless_wp {α : Type} {p : Action Bytes α} {Q : Outcome Error α → Prop}
    (h : Quiet (Harmless path) ((kernel Bytes me).Answers E) p Q) (t : Log × Process Bytes ι) :
    wp (kernel Bytes me).logged E anyStep p (fun r t' => Q r ∧ Untouched path t t') t :=
  h.logged.wp_keeps (R := Untouched path) .refl Untouched.trans
    (fun op c t' hop _ => ⟨untouched_step me path op hop c t', trivial⟩) t

inductive Read (cap : Nat) (stored : Option Bytes) : Outcome Error (Option Bytes) → Prop where
  | missing (h : stored = none) : Read cap stored (.ok none)
  | whole {d} (h : stored = some d) (hcap : d.length ≤ cap) : Read cap stored (.ok (some d))
  | tooBig {d m} (h : stored = some d) (hcap : cap < d.length) : Read cap stored (.err (.format m))
  | failed {e} : Read cap stored (.err (.io e))

theorem readCapped_wp (cap : Nat) (t : Log × Process Bytes ι) :
    wp (kernel Bytes me).logged E anyStep (readCapped path cap)
      (fun r t' => Read cap (t.2.disk.stored path) r ∧ Untouched path t t') t := by
  obtain ⟨l, s⟩ := t
  unfold readCapped
  rw [wp_ask_bind]
  intro c _
  have hopen := untouched_step me path (.openRead path) trivial c (l, s)
  rcases c with _ | ⟨e, he⟩
  swap
  · show wp _ _ _ (if e.kind = .notFound then pure none else Prog.throw (Error.io e)) _ _
    rw [if_neg he]
    exact ⟨.failed, hopen⟩
  cases hdir : s.disk.dir path with
  | none =>
    simp only [Process.step, hdir] at hopen ⊢
    exact ⟨.missing (by simp [Disk.stored, hdir]), hopen⟩
  | some i =>
    simp only [Process.step, hdir] at hopen ⊢
    rw [wp_bind, Prog.always, wp_andThen]
    rw [wp_ask_bind]
    intro c _
    have hread := untouched_step me path (.read s.nextFile (cap + 1)) trivial
      c (l ++ [⟨.openRead path, .ok s.nextFile⟩], s.openFile i)
    rcases c with _ | e
    swap
    · show wp _ _ _ (Prog.throw (Error.io e.1)) _ _
      rw [wp_throw, wp_andThen]
      refine dropFile_wp _ ⟨.failed, ?_⟩
      exact (hopen.trans hread).trans (untouched_step me path (.close s.nextFile) trivial () _)
    simp only [Process.step, Process.openFile_files, Process.openFile_disk] at hread ⊢
    show wp _ _ _ (pure ((s.disk.content i).take (cap + 1))) _ _
    rw [wp_pure, wp_andThen]
    refine dropFile_wp _ ?_
    have hall := (hopen.trans hread).trans
      (untouched_step me path (.close s.nextFile) trivial () _)
    have hstored : s.disk.stored path = some (s.disk.content i) := by simp [Disk.stored, hdir]
    show wp _ _ _ (if cap < ((s.disk.content i).take (cap + 1)).length then _ else _) _ _
    by_cases hcap : cap < (s.disk.content i).length
    · have hlen : cap < ((s.disk.content i).take (cap + 1)).length := by
        rw [List.length_take]
        omega
      rw [if_pos hlen]
      exact ⟨.tooBig hstored hcap, hall⟩
    · have htake : (s.disk.content i).take (cap + 1) = s.disk.content i :=
        List.take_of_length_le (by omega)
      rw [htake] at hall
      rw [htake, if_neg hcap]
      exact ⟨.whole hstored (Nat.le_of_not_lt hcap), hall⟩

inductive Opened (E : (kernel Bytes me).Env) (path : Bytes) (master : MasterKey)
    (t : Log × Process Bytes ι) : Outcome Error SecretStore → Log × Process Bytes ι → Prop where
  | loaded {d c lock t'} (hd : t.2.disk.stored path = some d) (hcap : d.length ≤ MAX_STORE_BYTES)
      (hc : load d = .ok c) (ht : Untouched path t t') :
      Opened E path master t (.ok { c with path, master, lock }) t'
  | created {salt keyId data lock t'} (hnone : t.2.disk.stored path = none)
      (himage : checkedImage ⟨salt, keyId, ∅⟩ = .ok data)
      (hstored : t'.2.disk.stored path = some data) (hdir : dirFailed t'.1 = dirFailed t.1) :
      Opened E path master t (.ok { salt, keyId, entries := ∅, path, master, lock }) t'
  | rejected {d m t'} (hd : t.2.disk.stored path = some d)
      (hbad : d.length ≤ MAX_STORE_BYTES → load d = .err (.format m)) (ht : Untouched path t t') :
      Opened E path master t (.err (.format m)) t'
  | failed {e t'} (he : FromEnv ((kernel Bytes me).Answers E) e)
      (hstored : t'.2.disk.stored path = t.2.disk.stored path)
      (hdir : dirFailed t'.1 = dirFailed t.1) (hwrote : t.2.disk.stored path ≠ none → Untouched path t t') :
      Opened E path master t (.err e) t'
  | late {e data t'} (he : FromEnv ((kernel Bytes me).Answers E) e) (hflaky : Flaky E) (hnone : t.2.disk.stored path = none)
      (himage : ∃ salt keyId, checkedImage ⟨salt, keyId, ∅⟩ = .ok data)
      (hstored : t'.2.disk.stored path = some data) (hdir : dirFailed t'.1 = true) :
      Opened E path master t (.err e) t'

variable {master : MasterKey}

theorem opened_ne_panic {t t' : Log × Process Bytes ι} : ¬Opened E path master t .panic t' := by
  intro h
  cases h

theorem Opened.after {t t1 t' : Log × Process Bytes ι} {r : Outcome Error SecretStore}
    (ht : Untouched path t t1) (h : Opened E path master t1 r t') : Opened E path master t r t' := by
  cases h with
  | loaded hd hcap hc ht' => exact .loaded (ht.stored ▸ hd) hcap hc (ht.trans ht')
  | created hnone himage hstored hdir =>
    exact .created (ht.stored ▸ hnone) himage hstored (hdir.trans ht.dir)
  | rejected hd hbad ht' => exact .rejected (ht.stored ▸ hd) hbad (ht.trans ht')
  | failed he hstored hdir hwrote =>
    exact .failed he (hstored.trans ht.stored) (hdir.trans ht.dir)
      fun hne => ht.trans (hwrote (ht.stored ▸ hne))
  | late he hflaky hnone himage hstored hdir =>
    exact .late he hflaky (ht.stored ▸ hnone) himage hstored hdir

theorem Opened.dropLock {t t1 : Log × Process Bytes ι} {e : Error} (lock : Option Nat)
    (h : Opened E path master t (.err e) t1) :
    wp (kernel Bytes me).logged E anyStep
      ((Store.dropLock lock).andThen fun _ => Prog.done (.err e))
      (Opened E path master t) t1 := by
  rw [wp_andThen]
  refine (harmless_wp path (dropLock_quiet lock (Q := fun _ => True) trivial) t1).imp
    fun _ t' ht => ?_
  have ht' := ht.2
  cases h with
  | rejected hd hbad ht1 => exact .rejected hd hbad (ht1.trans ht')
  | failed he hstored hdir hwrote =>
    exact .failed he (ht'.stored.trans hstored) (ht'.dir.trans hdir)
      fun hne => (hwrote hne).trans ht'
  | late he hflaky hnone himage hstored hdir =>
    exact .late he hflaky hnone himage (ht'.stored.trans hstored) (ht'.dir.trans hdir)

theorem load_err_format {d : Bytes} {r : Outcome Error Contents} (hcap : d.length ≤ MAX_STORE_BYTES)
    (hr : load d = r) : (∃ c, r = .ok c) ∨ ∃ m, r = .err (.format m) := by
  have hlt : d.length < 2 ^ 63 := Nat.lt_of_le_of_lt hcap (by decide)
  rcases load_cases hlt with ⟨m, hm⟩ | ⟨salt, keyId, es, rfl, hw, hn⟩
  · exact Or.inr ⟨m, hr ▸ hm⟩
  · exact Or.inl ⟨_, hr ▸ load_entries hw hn hlt⟩

theorem checkedImage_empty (salt keyId : Fixed 16) :
    checkedImage ⟨salt, keyId, ∅⟩ = .ok (header salt keyId) := by
  have hsmall : Small (∅ : Entries) := by
    intro n b hb
    rw [AList.lookup_empty] at hb
    cases hb
  have hlist : listing (∅ : Entries) = [] := rfl
  have hfit : ¬MAX_STORE_BYTES < (header salt keyId ++ [].flatMap entryOf).length := by
    rw [List.flatMap_nil, List.append_nil, header_length]
    decide
  rw [checkedImage, image_of_small hsmall, Outcome.ok_bind]
  dsimp only
  rw [hlist, if_neg hfit, List.flatMap_nil, List.append_nil]

theorem createStore_wp (lock : Option Nat) {t : Log × Process Bytes ι}
    (hnone : t.2.disk.stored path = none) :
    wp (kernel Bytes me).logged E anyStep (do
      let salt ← fill 16 "getrandom: "
      let keyId ← fill 16 "getrandom: "
      let store : SecretStore := { salt, keyId, entries := ∅, path, master, lock }
      store.persist
      pure store) (Opened E path master t) t := by
  obtain ⟨l, s⟩ := t
  rw [wp_bind]
  refine (quiet_wp (SecretStore.fill_starved 16 "getrandom: ") l s).imp fun r t ht => ?_
  obtain ⟨l1, s1⟩ := t
  obtain ⟨hr, hd1, hw1, hs1⟩ := ht
  obtain rfl : s1 = s := hs1
  rcases hr with ⟨salt, rfl, -⟩ | ⟨hstarved, m, rfl⟩
  swap
  · exact .failed (Or.inr ⟨hstarved, m, rfl⟩) rfl hd1 fun hne => absurd hnone hne
  show wp _ _ _ (fill 16 "getrandom: " >>= _) _ _
  rw [wp_bind]
  refine (quiet_wp (SecretStore.fill_starved 16 "getrandom: ") l1 s1).imp fun r t ht => ?_
  obtain ⟨l2, s2⟩ := t
  obtain ⟨hr, hd2, hw2, hs2⟩ := ht
  obtain rfl : s2 = s1 := hs2
  rcases hr with ⟨keyId, rfl, -⟩ | ⟨hstarved, m, rfl⟩
  swap
  · exact .failed (Or.inr ⟨hstarved, m, rfl⟩) rfl (hd2.trans hd1) fun hne => absurd hnone hne
  show wp _ _ _ (SecretStore.persist _ >>= fun _ => pure _) _ _
  rw [wp_bind]
  refine (persist_wp _ l2 s2).imp fun r t ht => ?_
  have himage := checkedImage_empty salt keyId
  cases ht with
  | refused e hr he ht => exact absurd (himage.symm.trans he) (by simp)
  | replaced data hdata h =>
    cases h with
    | saved stored dir wrote =>
      exact .created hnone hdata stored (dir.trans (hd2.trans hd1))
    | kept he stored dir =>
      exact .failed he stored (dir.trans (hd2.trans hd1)) fun hne => absurd hnone hne
    | late he flaky stored dir wrote => exact .late he flaky hnone ⟨_, _, hdata⟩ stored dir

theorem openLocked_wp (path : Bytes) (master : MasterKey) (lock : Option Nat)
    (t : Log × Process Bytes ι) :
    wp (kernel Bytes me).logged E anyStep (SecretStore.openLocked path master lock)
      (Opened E path master t) t := by
  unfold SecretStore.openLocked
  rw [wp_bind]
  refine (readCapped_wp MAX_STORE_BYTES t).imp fun r t2 h2 => ?_
  obtain ⟨hread, ht2⟩ := h2
  cases hread with
  | failed => exact .failed (fromEnv_io _) ht2.stored ht2.dir fun _ => ht2
  | tooBig h hcap => exact .rejected h (fun hle => absurd hcap (Nat.not_lt.mpr hle)) ht2
  | missing h =>
    refine (createStore_wp lock (ht2.stored.trans h)).imp fun r t' h' => ?_
    exact h'.after ht2
  | whole h hcap =>
    rename_i d
    show wp _ _ _ (makePrivate path >>= fun _ => lift (load d) >>= _) _ _
    rw [wp_bind]
    refine (harmless_wp path (makePrivate_quiet path path) t2).imp fun r t3 h3 => ?_
    obtain ⟨hr, ht3⟩ := h3
    have ht := ht2.trans ht3
    rcases hr with ⟨-, rfl, -⟩ | ⟨e, rfl⟩
    swap
    · exact .failed (fromEnv_io e) ht.stored ht.dir fun _ => ht
    simp only [Prog.onOk]
    rcases load_err_format hcap rfl with ⟨c, hc⟩ | ⟨m, hm⟩
    · rw [hc, lift_ok_bind, wp_pure]
      exact .loaded h hcap hc ht
    · rw [hm, lift_err_bind]
      exact .rejected h (fun _ => hm) ht

theorem openStore_wp (path : Bytes) (master : MasterKey) (t : Log × Process Bytes ι) :
    wp (kernel Bytes me).logged E anyStep (SecretStore.openStore path master)
      (Opened E path master t) t := by
  unfold SecretStore.openStore
  rw [wp_bind]
  refine (harmless_wp path takeLock_quiet t).imp fun r t1 h1 => ?_
  obtain ⟨hr, ht1⟩ := h1
  rcases hr with ⟨lock, rfl, -⟩ | ⟨e, rfl⟩
  swap
  · exact .failed (fromEnv_io e) ht1.stored ht1.dir fun _ => ht1
  simp only [Prog.onOk]
  rw [Prog.onErr, wp_andThen]
  refine (openLocked_wp path master lock t1).imp fun r t' h => ?_
  cases r with
  | ok st => exact h.after ht1
  | panic => exact absurd h opened_ne_panic
  | err e => exact (h.after ht1).dropLock lock

end Specs
end Krypto.Store
