import Krypto.Effect.HostErrors
import Krypto.Store.Conflict
import Krypto.Store.Opening

/-! When an open is refused with `WouldBlock`, where no call fails by a fault: just
when the file that its lock's path leads to is locked. -/

namespace Krypto.Store
open Effect

theorem readPath_plain {path : Bytes} {e : IoError} (h : readPath path = .error e) : e.Plain := by
  unfold readPath at h
  split at h
  · cases h
    exact .inl rfl
  · split at h
    · cases h
      exact .inr (.inr rfl)
    · cases h

/-- Where no call fails by a fault, every error is one of the tree's. -/
theorem answers_plain {ι : Type} [DecidableEq ι] {j : ι} {op : Call Bytes} {y : op.Reply}
    (h : (hostKernel readPath j).Answers calm op y) {e : IoError} (he : op.ioError y = some e) :
    e.Plain := by
  obtain ⟨c, s, hc, rfl⟩ := h
  have hread (path : Bytes) : ∀ e, readPath path = .error e → e.Plain := fun _ => readPath_plain
  -- no call fails by the environment here, so each error is the one of the tree
  cases op with
  | getrandom n => cases he
  | lockPages n => cases he
  | processId => cases he
  | close f => cases he
  | tryLock f => cases he
  | openCreate p mode =>
    obtain rfl : c = none := hc
    exact Host.openOrCreate_plain (hread p) (errorOf_eq_some he)
  | openRead p =>
    obtain rfl : c = none := hc
    exact Host.find_plain (hread p) (Host.openExisting_error (errorOf_eq_some he)).1
  | createNew p mode =>
    obtain rfl : c = none := hc
    exact Host.createNew_plain (hread p) (errorOf_eq_some he)
  | fstat f =>
    obtain rfl : c = none := hc
    exact Host.onFile_plain (fun i h => by cases h) (errorOf_eq_some he)
  | stat p =>
    obtain rfl : c = none := hc
    exact Host.onPath_plain (hread p) (errorOf_eq_some he)
  | chmod p mode =>
    obtain rfl : c = none := hc
    exact Host.onPath_plain (hread p) (errorOf_eq_some he)
  | read f limit =>
    obtain rfl : c = none := hc
    exact Host.onFile_plain (fun i => Host.readFile_plain) (errorOf_eq_some he)
  | write f data =>
    obtain rfl : c = none := hc
    exact Host.onFile_plain (fun i h => by cases h) (errorOf_eq_some he)
  | sync f =>
    obtain rfl : c = none := hc
    exact Host.onFile_plain (fun i h => by cases h) (errorOf_eq_some he)
  | rename p p' =>
    obtain rfl : c = none := hc
    exact Host.rename_plain (hread p) (hread p') (errorOf_eq_some he)
  | remove p =>
    obtain rfl : c = none := hc
    exact Host.remove_plain (hread p) (errorOf_eq_some he)
  | openDir =>
    obtain rfl : c = none := hc
    cases he
  | syncDir =>
    obtain rfl : c = none := hc
    cases he

/-- Every I/O error of a reply is one of the tree's. -/
def Tame (A : (op : Call Bytes) → op.Reply → Prop) : Prop :=
  ∀ op y e, A op y → op.ioError y = some e → e.Plain

/-- A value that `P` is true of, or an error, which is not `WouldBlock` where the replies are tame. -/
def Unblocked (A : (op : Call Bytes) → op.Reply → Prop) {α : Type} (P : α → Prop) :
    Outcome Error α → Prop
  | .ok a => P a
  | .err e => Tame A → ∀ e', e = .io e' → e'.kind ≠ .wouldBlock
  | .panic => True

abbrev Frees (A : (op : Call Bytes) → op.Reply → Prop) {α : Type} (p : Action Bytes α)
    (P : α → Prop) : Prop := Quiet (fun _ => True) A p (Unblocked A P)

section Frees
variable {A : (op : Call Bytes) → op.Reply → Prop} {α β : Type} {P : α → Prop}

theorem unblocked_io {op : Call Bytes} {y : op.Reply} {e : IoError} (hy : A op y)
    (he : op.ioError y = some e) : Unblocked A P (.err (.io e)) := by
  rintro hA e' ⟨⟩ hkind
  rcases hA op y e hy he with h | h | h <;> rw [h] at hkind <;> cases hkind

theorem unblocked_of_isFormat {e : Error} (h : e.IsFormat) : Unblocked A P (.err e) := by
  rintro - e' rfl
  exact h.elim

theorem Frees.bind {p : Action Bytes α} {f : α → Action Bytes β} {R : β → Prop} (h : Frees A p P)
    (hf : ∀ a, P a → Frees A (f a) R) : Frees A (p >>= f) R :=
  Quiet.bind h hf (fun _ => id) fun _ => trivial

theorem quiet_any (p : Action Bytes α) : Quiet (fun _ => True) A p fun _ => True := by
  induction p with
  | done r => trivial
  | call op next ih => exact ⟨trivial, fun y _ => ih y⟩

theorem Frees.always {p : Action Bytes α} (h : Frees A p P) (cleanup : Action Bytes Unit) :
    Frees A (p.always cleanup) P := by
  refine (quiet_andThen _ _ _).mpr (h.imp fun r hr => ?_)
  exact (quiet_andThen _ _ _).mpr ((quiet_any cleanup).imp fun _ _ => hr)

theorem Frees.onErr {p : Action Bytes α} (h : Frees A p P) (cleanup : Action Bytes Unit) :
    Frees A (p.onErr cleanup) P := by
  refine (quiet_andThen _ _ _).mpr (h.imp fun r hr => ?_)
  cases r with
  | ok a => exact hr
  | err e => exact (quiet_andThen _ _ _).mpr ((quiet_any cleanup).imp fun _ _ => hr)
  | panic => exact hr

theorem fill_frees (n : ℕ) (what : String) : Frees A (fill n what) fun _ => True := by
  refine ⟨trivial, fun y _ => ?_⟩
  cases y with
  | ok bytes => trivial
  | error e => exact fun _ e' h => nomatch h

theorem readCapped_frees (path : Bytes) (cap : ℕ) :
    Frees A (readCapped path cap) fun r => ∀ data, r = some data → data.length ≤ cap := by
  refine ⟨trivial, fun y hy => ?_⟩
  cases y with
  | error e =>
    change Quiet _ _ (if e.kind = .notFound then pure none else Prog.throw (Error.io e)) _
    split
    · exact fun _ h => nomatch h
    · exact unblocked_io hy rfl
  | ok f =>
    have hread : Frees A (do orIo (← ask (.read f (cap + 1)))) fun _ => True := by
      refine ⟨trivial, fun y hy => ?_⟩
      cases y with
      | ok bytes => trivial
      | error e => exact unblocked_io hy rfl
    refine (hread.always (dropFile f)).bind fun bytes _ => ?_
    split
    · exact unblocked_of_isFormat trivial
    next hlen =>
      rintro data ⟨⟩
      exact Nat.le_of_not_lt hlen

theorem makePrivate_frees (path : Bytes) : Frees A (makePrivate path) fun _ => True := by
  refine ⟨trivial, fun y hy => ?_⟩
  cases y with
  | error e => exact unblocked_io hy rfl
  | ok metadata =>
    change Quiet _ _ (if metadata.mode &&& 0o777 = 0o600 then _ else _) _
    split
    · trivial
    refine ⟨trivial, fun y hy => ?_⟩
    cases y with
    | ok u => trivial
    | error e =>
      change Quiet _ _ (if e.kind = .permissionDenied then pure () else Prog.throw (Error.io e)) _
      split
      · trivial
      · exact unblocked_io hy rfl

theorem writeThenRename_frees (f : ℕ) (tmp path data : Bytes) :
    Frees A (writeThenRename f tmp path data) fun _ => True := by
  have hwrite : Frees A (writeSynced f data) fun _ => True := by
    refine ⟨trivial, fun y hy => ?_⟩
    cases y with
    | error e => exact unblocked_io hy rfl
    | ok u =>
      refine ⟨trivial, fun y hy => ?_⟩
      cases y with
      | error e => exact unblocked_io hy rfl
      | ok u => trivial
  refine (hwrite.always (dropFile f)).bind fun _ _ => ?_
  refine ⟨trivial, fun y hy => ?_⟩
  cases y with
  | error e => exact unblocked_io hy rfl
  | ok u =>
    refine ⟨trivial, fun y hy => ?_⟩
    cases y with
    | error e => exact unblocked_io hy rfl
    | ok u =>
      refine ⟨trivial, fun y hy => ?_⟩
      cases y with
      | error e => exact unblocked_io hy rfl
      | ok u => trivial

theorem persistIn_frees (self : SecretStore) : Frees A self.persistIn fun _ => True := by
  unfold SecretStore.persistIn
  cases himage : checkedImage self.toContents with
  | panic => trivial
  | err e => exact unblocked_of_isFormat (isFormat_of_checkedImage himage)
  | ok buf =>
    refine (fill_frees 8 _).bind fun nonce _ => ?_
    refine ⟨trivial, fun pid _ => ⟨trivial, fun y hy => ?_⟩⟩
    cases y with
    | error e => exact unblocked_io hy rfl
    | ok f => exact (writeThenRename_frees _ _ _ _).onErr _

theorem openLockedIn_frees (path : Bytes) (master : MasterKey) (lock : Option ℕ) :
    Frees A (SecretStore.openLockedIn path master lock) fun store => store.lock = lock := by
  refine (readCapped_frees path MAX_STORE_BYTES).bind fun r hr => ?_
  cases r with
  | some data =>
    refine (makePrivate_frees path).bind fun _ _ => ?_
    rcases load_err_format (hr data rfl) rfl with ⟨c, hc⟩ | ⟨m, hm⟩
    · rw [hc]
      exact rfl
    · rw [hm]
      exact unblocked_of_isFormat trivial
  | none =>
    refine (fill_frees 16 _).bind fun salt _ => ?_
    refine (fill_frees 16 _).bind fun keyId _ => ?_
    exact (persistIn_frees _).bind fun _ _ => rfl

end Frees

section Opening
variable {ι : Type} [DecidableEq ι] {j : ι} {E : (hostKernel readPath j).Env} {s : Host Bytes ι}

theorem Frees.wp {α : Type} {p : Action Bytes α} {P : α → Prop}
    (h : Frees ((hostKernel readPath j).Answers E) p P) (s : Host Bytes ι) :
    wp (hostKernel readPath j) E freely p
      (fun r _ => Unblocked ((hostKernel readPath j).Answers E) P r) s := by
  have hwp := Quiet.wp_invariant (G := freely) (I := fun _ : Host Bytes ι => True) h
    (s := s) trivial fun _ _ _ _ _ _ => ⟨trivial, trivial⟩
  exact hwp.imp fun _ _ hr => hr.1

/-- A handle that has a lock has locked the file that its lock's path leads to. -/
theorem openStoreIn_holds (path : Bytes) (master : MasterKey) (s : Host Bytes ι) :
    wp (hostKernel readPath j) E freely (SecretStore.openStoreIn path master)
      (fun r s' => ∀ store, r = .ok store → ∀ f, store.lock = some f →
        ∃ i, s'.Holds j (readPath (lockPathIn path)) f i) s := by
  unfold SecretStore.openStoreIn takeLockIn
  rw [wp_bind]
  refine (lockTries_holds _ 3 s).imp fun r s1 h1 => ?_
  match r with
  | .err e => exact fun _ h => nomatch h
  | .panic => exact fun _ h => nomatch h
  | .ok lock =>
    refine wp_onErr ?_
    have hlock := (openLockedIn_frees path master lock).wp (E := E) s1
    cases lock with
    | none =>
      refine hlock.imp fun r s2 h2 store hr f hf => ?_
      subst hr
      have hnone : store.lock = none := h2
      cases hnone.symm.trans hf
    | some f =>
      obtain ⟨i, hi⟩ := h1 f rfl
      have hboth := hlock.and (openLockedIn_holds hi path master (some f))
      refine wp_mono (fun _ _ _ _ => trivial) (fun r s2 h2 store hr g hg => ?_) hboth
      subst hr
      have hsome : store.lock = some f := h2.1
      cases hsome.symm.trans hg
      exact ⟨i, h2.2 store rfl⟩

end Opening

/-! ## Without faults -/

section Refused
variable {ι : Type} [DecidableEq ι] {j : ι} {s s1 : Host Bytes ι} {path : Bytes}

def faultless (j : ι) : (hostKernel readPath j).Env := calm

def lockAt (s : Host Bytes ι) (j : ι) (path : Bytes) : Except IoError ℕ :=
  s.find j (readPath (lockPathIn path))

def Locked (s : Host Bytes ι) (j : ι) (path : Bytes) : Prop :=
  ∃ i x, lockAt s j path = .ok i ∧ s.tree.isDir i = false ∧ s.locks i = some x

/-- The lock file is open, as the new file `f` on the inode `i`. -/
structure LockOpen (s : Host Bytes ι) (j : ι) (path : Bytes) (f i : ℕ) (s1 : Host Bytes ι) : Prop where
  file : s1.files j f = some i
  leads : lockAt s1 j path = .ok i
  own : ∀ x, s1.locks x ≠ some (j, f)
  locked : Locked s j path ↔ ∃ x, s1.locks i = some x

omit [DecidableEq ι] in
theorem own_new (s : Host Bytes ι) (j : ι) (x : ℕ) : s.locks x ≠ some (j, s.nextFile j) := by
  intro h
  exact Nat.lt_irrefl _ (s.files_lt j _ x (s.locks_open x j _ h)).1

omit [DecidableEq ι] in
theorem locks_fresh (s : Host Bytes ι) : s.locks s.tree.fresh = none := by
  cases h : s.locks s.tree.fresh with
  | none => rfl
  | some x => exact absurd (s.files_lt x.1 x.2 _ (s.locks_open _ x.1 x.2 h)).2 (Nat.lt_irrefl _)

theorem openLockFile_calm (s : Host Bytes ι) (path : Bytes) :
    wp (hostKernel readPath j) (faultless j) freely (openLockFile (lockPathIn path)) (fun r s1 =>
      (∃ f i, r = .ok (some f) ∧ LockOpen s j path f i s1) ∨
        ∃ e, r = .err (.io e) ∧ e.Plain ∧ ¬Locked s j path) s := by
  refine wp_openCreate (fun e he => nomatch he) (fun e s1 he => ?_) (fun i hi hfind hfile => ?_)
    fun r d n hr hmissing => ?_
  · have hplain := Host.openOrCreate_plain (fun _ => readPath_plain) he
    have hfree : ¬Locked s j path := by
      rintro ⟨i, x, hfind, hfile, -⟩
      cases (Host.openOrCreate_found hfind hfile).symm.trans he
    have hkind : ¬e.kind = .readOnlyFilesystem ∧ ¬e.kind = .permissionDenied := by
      rcases hplain with h | h | h <;> rw [h] <;> decide
    dsimp only
    rw [if_neg hkind.1, if_neg hkind.2]
    exact .inr ⟨e, rfl, hplain, hfree⟩
  · refine .inl ⟨_, i, rfl, ?_, hfind, own_new s j, ?_⟩
    · simp [Host.openFile]
    · constructor
      · rintro ⟨c, x, hc, -, hx⟩
        cases hc.symm.trans hfind
        exact ⟨x, hx⟩
      · rintro ⟨x, hx⟩
        exact ⟨i, x, hfind, hfile, hx⟩
  · refine .inl ⟨_, s.tree.fresh, rfl, ?_, ?_, own_new s j, ?_⟩
    · simp [Host.openFile, Host.create]
    · refine (congrArg _ hr).trans (Host.find_of_resolve ?_)
      exact Tree.create_missing hmissing
    · constructor
      · rintro ⟨c, x, hc, -, -⟩
        obtain ⟨r', hr', hfound⟩ := Host.find_eq_ok hc
        cases hr.symm.trans hr'
        cases hmissing.symm.trans hfound
      · rintro ⟨x, hx⟩
        cases (locks_fresh s).symm.trans hx

/-- Where no one else has locked it, the lock is had at the first try. -/
theorem isSameFile_calm {f i : ℕ} (hf : s1.files j f = some i) (hpath : lockAt s1 j path = .ok i) :
    wp (hostKernel readPath j) (faultless j) freely (isSameFile f (lockPathIn path))
      (fun r _ => r = .ok true) s1 := by
  intro c hc
  obtain rfl : c = none := hc
  have hfstat : (hostKernel readPath j).step (.fstat f) none s1 = (.ok ⟨i, s1.mode i⟩, s1) :=
    Host.onFile_some hf
  have hstat : (hostKernel readPath j).step (.stat (lockPathIn path)) none s1 =
      (.ok ⟨i, s1.mode i⟩, s1) := Host.onPath_ok hpath
  refine ⟨trivial, ?_⟩
  rw [hfstat]
  intro c hc
  obtain rfl : c = none := hc
  refine ⟨trivial, ?_⟩
  rw [hstat]
  exact congrArg Outcome.ok (decide_eq_true rfl)

/-- Taking a lock is refused when it is locked, and only then. -/
theorem takeLockIn_calm (s : Host Bytes ι) (path : Bytes) :
    wp (hostKernel readPath j) (faultless j) freely (takeLockIn path) (fun r _ =>
      (Locked s j path ∧ r = .err alreadyOpen) ∨
        (¬Locked s j path ∧ ((∃ f, r = .ok (some f)) ∨ ∃ e, r = .err (.io e) ∧ e.Plain))) s := by
  unfold takeLockIn lockTries
  rw [wp_bind]
  refine (openLockFile_calm s path).imp fun r s1 hr => ?_
  obtain ⟨f, i, rfl, hopen⟩ | ⟨e, rfl, hplain, hfree⟩ := hr
  · intro c hc
    obtain rfl : c = none := hc
    refine ⟨trivial, ?_⟩
    cases hl : s1.locks i with
    | some x =>
      have hx : x ≠ (j, f) := fun h => hopen.own i (h ▸ hl)
      have hstep : (hostKernel readPath j).step (.tryLock f) none s1 = (.error .wouldBlock, s1) :=
        Host.tryLock_held hopen.file hl hx
      rw [hstep]
      exact wp_close (.inl ⟨hopen.locked.mpr ⟨x, hl⟩, rfl⟩)
    | none =>
      have hfree : ¬Locked s j path := by
        intro h
        obtain ⟨x, hx⟩ := hopen.locked.mp h
        cases hl.symm.trans hx
      have hstep : (hostKernel readPath j).step (.tryLock f) none s1 =
          (.ok (), s1.lockFile j f i hopen.file) := Host.tryLock_free hopen.file hl
      rw [hstep]
      change wp _ _ _ ((isSameFile f (lockPathIn path)).onErr (dropFile f) >>= _) _ _
      rw [wp_bind, Prog.onErr, wp_andThen]
      refine wp.imp (isSameFile_calm hopen.file hopen.leads) fun r s2 hr => ?_
      subst hr
      exact .inr ⟨hfree, .inl ⟨f, rfl⟩⟩
  · exact .inr ⟨hfree, .inr ⟨e, rfl, hplain⟩⟩

def Blocks (r : Outcome Error SecretStore) : Prop := ∃ e, r = .err (.io e) ∧ e.kind = .wouldBlock

/-- Opening is refused when the lock is locked, and only then. -/
theorem openStoreIn_calm (s : Host Bytes ι) (path : Bytes) (master : MasterKey) :
    wp (hostKernel readPath j) (faultless j) freely (SecretStore.openStoreIn path master)
      (fun r _ => Blocks r ↔ Locked s j path) s := by
  unfold SecretStore.openStoreIn
  rw [wp_bind]
  refine (takeLockIn_calm s path).imp fun r s1 hr => ?_
  obtain ⟨hlocked, rfl⟩ | ⟨hfree, ⟨f, rfl⟩ | ⟨e, rfl, hplain⟩⟩ := hr
  · exact iff_of_true ⟨_, rfl, rfl⟩ hlocked
  · have hopen := ((openLockedIn_frees path master (some f)).onErr (dropLock (some f))).wp
      (E := faultless j) s1
    refine hopen.imp fun r s2 h2 => iff_of_false ?_ hfree
    rintro ⟨e, rfl, hkind⟩
    exact h2 (fun op y e hy he => answers_plain hy he) e rfl hkind
  · refine iff_of_false ?_ hfree
    rintro ⟨e', ⟨⟩, hkind⟩
    rcases hplain with h | h | h <;> rw [h] at hkind <;> cases hkind

end Refused
end Krypto.Store
