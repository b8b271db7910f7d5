import Krypto.Store.Locking
import Krypto.Store.Path

/-! Two handles and one file: when an open is refused because of another handle,
in a tree with links. -/

namespace Krypto.Store
open Effect

section Writing
variable {ι : Type} [DecidableEq ι] {j : ι} {E : (hostKernel readPath j).Env}
  {s : Host Bytes ι} {lock : Except IoError (Route Bytes)} {f i : ℕ}

theorem readCapped_holds (hs : s.Holds j lock f i) (path : Bytes) (cap : ℕ) :
    wp (hostKernel readPath j) E freely (readCapped path cap) (fun r s' => s'.Holds j lock f i ∧
      (r = .ok none → s' = s ∧ ∃ e, s.find j (readPath path) = .error e ∧ e.kind = .notFound)) s := by
  apply wp_openRead
  · intro e
    dsimp only
    rw [if_neg e.2]
    exact ⟨hs, fun h => nomatch h⟩
  · intro e hfind
    dsimp only
    split
    next hkind => exact ⟨hs, fun _ => ⟨rfl, e, hfind, hkind⟩⟩
    · exact ⟨hs, fun h => nomatch h⟩
  · intro k hk
    have hg : s.nextFile j ≠ f := Nat.ne_of_gt hs.opened.1
    dsimp only [Prog.always]
    rw [wp_bind, wp_andThen]
    refine wp_data (.read _ _) trivial fun reply s2 halike => ?_
    have hclosed := (halike.holds (hs.openFile k hk)).closeFile hg
    cases reply with
    | error e => exact fun _ _ => ⟨trivial, hclosed, fun h => nomatch h⟩
    | ok bytes =>
      refine fun _ _ => ⟨trivial, ?_⟩
      change wp _ _ _ (if cap < bytes.length then _ else _) _ _
      split
      · exact ⟨hclosed, fun h => nomatch h⟩
      · exact ⟨hclosed, fun h => nomatch h⟩

theorem wp_onErr {α : Type} {p : Action Bytes α} {cleanup : Action Bytes Unit}
    {P : α → Host Bytes ι → Prop}
    (h : wp (hostKernel readPath j) E freely p (fun r s' => ∀ a, r = .ok a → P a s') s) :
    wp (hostKernel readPath j) E freely (p.onErr cleanup)
      (fun r s' => ∀ a, r = .ok a → P a s') s := by
  rw [Prog.onErr, wp_andThen]
  refine h.imp fun r s' hr => ?_
  cases r with
  | ok a => exact hr
  | err e =>
    rw [wp_andThen]
    exact wp_of_forall _ (fun _ _ _ h => by cases h) _
  | panic => exact hr

theorem writeSynced_alike (g : ℕ) (data : Bytes) :
    wp (hostKernel readPath j) E freely (writeSynced g data) (fun _ s' => Host.Alike s s') s := by
  refine wp_data (.write g data) trivial fun reply s1 h1 => ?_
  cases reply with
  | error e => exact h1
  | ok u =>
    refine wp_data (.sync g) trivial fun reply s2 h2 => ?_
    cases reply with
    | error e => exact h1.trans h2
    | ok u => exact h1.trans h2

/-- No path to the inode `i` passes the entry that `path` names. -/
def Apart (s : Host Bytes ι) (j : ι) (path : Bytes) (i : ℕ) : Prop :=
  ∀ r c m, readPath path = .ok r → s.holder j r = some (c, m) →
    ∀ links rest, s.tree.walk links c (.name m :: rest) ≠ .found i

omit [DecidableEq ι] in
theorem apart_of_missing {path : Bytes} {e : IoError} (hfind : s.find j (readPath path) = .error e)
    (hkind : e.kind = .notFound) (i : ℕ) : Apart s j path i := by
  intro r c m hr hholder links rest
  rw [hr] at hfind
  unfold Host.find at hfind
  dsimp only [bind, Except.bind] at hfind
  refine Tree.walk_ne_found_of_holder hholder (fun hlinks => ?_) (fun k hk => ?_) links i rest
  · rw [Host.resolve, hlinks] at hfind
    cases hfind
    cases hkind
  · rw [Host.resolve, hk] at hfind
    cases hfind

theorem renameSynced_holds {s' : Host Bytes ι} (hs : s.Holds j lock f i) (hs' : s'.Holds j lock f i)
    {path tmp : Bytes} {r : Route Bytes} {d : ℕ} {n : Bytes} (hapart : Apart s j path i)
    (htree : s'.tree = s.tree.create d n) (hcwd : s'.cwd = s.cwd)
    (hfree : s.tree.next d (.name n) = .nothing n) (htmp : readPath tmp = .ok r)
    (hholder : s.holder j r = some (d, n)) :
    wp (hostKernel readPath j) E freely (renameSynced tmp path)
      (fun r s' => ∀ u, r = .ok u → s'.Holds j lock f i) s' := by
  have hmoved {r' : Route Bytes} {x : ℕ × Bytes} (h : s'.holder j r' = some x) :
      s.holder j r' = some x := by
    rw [Host.holder, htree, hcwd] at h
    exact Tree.create_holder_back hfree h
  refine wp_rename (fun e t _ h => by cases h) ?_
  intro r1 r2 d1 n1 c m k hk hr1 hr2 hholder1 hholder2 hentry
  cases htmp.symm.trans hr1
  cases hholder.symm.trans (hmoved hholder1)
  have hreplaced : ((s'.setEntry d n none fun _ hk => by cases hk).setEntry c m (some k) hk).Holds
      j lock f i := by
    obtain ⟨rl, hlock, hresolve⟩ := Host.find_eq_ok hs.leads
    rw [hlock]
    have hresolve' := Tree.replace_resolve htree (fun _ hk => by cases hk) hk hfree
      (hapart r2 c m hr2 (hmoved hholder2)) hresolve
    rw [← hcwd] at hresolve'
    exact ⟨hs'.lock, Host.find_of_resolve hresolve'⟩
  refine wp_data .openDir trivial fun y t1 h1 => ?_
  cases y with
  | error e => exact fun _ h => by cases h
  | ok u =>
    refine wp_data .syncDir trivial fun y t2 h2 => ?_
    cases y with
    | error e => exact fun _ h => by cases h
    | ok u => exact fun _ _ => (h1.trans h2).holds hreplaced

/-- Replacing the file at `path` leaves the lock of a file apart from it. -/
theorem atomicWriteIn_holds (hs : s.Holds j lock f i) {path : Bytes} (hapart : Apart s j path i)
    (data : Bytes) :
    wp (hostKernel readPath j) E freely (atomicWriteIn path data)
      (fun r s' => ∀ u, r = .ok u → s'.Holds j lock f i) s := by
  unfold atomicWriteIn fill
  rw [wp_bind]
  refine wp_data (.getrandom 8) trivial fun reply s1 h1 => ?_
  cases reply with
  | error e => exact fun _ h => by cases h
  | ok nonce =>
    refine wp_data .processId trivial fun pid s2 h2 => ?_
    have halike := h1.trans h2
    refine wp_createNew (fun e s' _ h => by cases h) ?_
    intro r d n hr hholder hentry
    have hfree := Host.holder_free hholder hentry
    have hnew := ((halike.holds hs).create 0o600 hfree).openFile (j := j) s2.tree.fresh (Nat.lt_succ_self _)
    have hg : s2.nextFile j ≠ f := Nat.ne_of_gt (halike.holds hs).opened.1
    dsimp only [orIo]
    refine wp_onErr ?_
    unfold writeThenRename
    rw [wp_bind, Prog.always, wp_andThen]
    refine (writeSynced_alike _ data).imp fun r4 s4 h4 => ?_
    rw [wp_andThen]
    refine wp_close ?_
    cases r4 with
    | err e => exact fun _ h => by cases h
    | panic => exact fun _ h => by cases h
    | ok u =>
      have hcwd : ((s4.closeFile j (s2.nextFile j)).cwd) = s2.cwd := h4.cwd
      refine renameSynced_holds (halike.holds hs) ((h4.holds hnew).closeFile hg) ?_ h4.tree hcwd hfree
        hr hholder
      intro r' c m hr' hholder' links rest
      rw [halike.holder] at hholder'
      rw [halike.tree]
      exact hapart r' c m hr' hholder' links rest

end Writing

/-! ## Taking the lock, and opening -/

section Taking
variable {ι : Type} [DecidableEq ι] {j : ι} {E : (hostKernel readPath j).Env} {s : Host Bytes ι}

/-- What is checked after a lock is taken: the file at the path is the one now locked. -/
theorem isSameFile_holds {n : Bytes} {f i : ℕ} (hlock : s.locks i = some (j, f)) :
    wp (hostKernel readPath j) E freely (isSameFile f n)
      (fun r s' => s' = s ∧ (r = .ok true → s.Holds j (readPath n) f i)) s := by
  have hfile := s.locks_open i j f hlock
  refine wp_fstat (fun e => ⟨rfl, fun h => nomatch h⟩) fun held hheld => ?_
  refine wp_stat (fun e => ?_) fun now hnow => ?_
  · dsimp only [orIo]
    split
    · exact ⟨rfl, fun h => nomatch h⟩
    · exact ⟨rfl, fun h => nomatch h⟩
  · refine ⟨rfl, fun h => ?_⟩
    have hinode : held.inode = now.inode := by simpa using h
    have hi : i = held.inode := Option.some.inj (hfile.symm.trans hheld)
    rw [← hinode, ← hi] at hnow
    exact ⟨hlock, hnow⟩

/-- The lock that is returned is held on the file that the lock's path leads to. -/
theorem lockTries_holds (n : Bytes) (tries : ℕ) (s : Host Bytes ι) :
    wp (hostKernel readPath j) E freely (lockTries n tries)
      (fun r s' => ∀ f, r = .ok (some f) → ∃ i, s'.Holds j (readPath n) f i) s := by
  induction tries generalizing s with
  | zero => exact fun _ h => by cases h
  | succ tries ih =>
    unfold lockTries
    rw [wp_bind]
    refine wp_of_forall _ (fun r s1 => ?_) s
    cases r with
    | err e => exact fun _ h => by cases h
    | panic => exact fun _ h => by cases h
    | ok opened =>
      obtain rfl | ⟨f, rfl⟩ := opened.eq_none_or_eq_some
      · exact fun _ h => by cases h
      refine wp_tryLock (fun e => ?_) fun i s2 hfile hlock _ _ _ => ?_
      · cases e with
        | wouldBlock => exact wp_close fun _ h => by cases h
        | error e => exact wp_close fun _ h => by cases h
      dsimp only
      rw [wp_bind, Prog.onErr, wp_andThen]
      refine (isSameFile_holds hlock).imp fun r s3 h3 => ?_
      obtain ⟨rfl, hsame⟩ := h3
      cases r with
      | err e => exact wp_close fun _ h => by cases h
      | panic => exact fun _ h => by cases h
      | ok same =>
        cases same with
        | false => exact wp_close (ih _)
        | true =>
          rintro f ⟨⟩
          exact ⟨i, hsame rfl⟩

theorem makePrivate_alike (path : Bytes) :
    wp (hostKernel readPath j) E freely (makePrivate path) (fun _ s' => Host.Alike s s') s := by
  refine wp_data (.stat path) trivial fun reply s1 h1 => ?_
  cases reply with
  | error e => exact h1
  | ok metadata =>
    change wp _ _ _ (if metadata.mode &&& 0o777 = 0o600 then _ else _) _ _
    split
    · exact h1
    refine wp_data (.chmod path 0o600) trivial fun reply s2 h2 => ?_
    cases reply with
    | ok u => exact h1.trans h2
    | error e =>
      dsimp only
      split
      · exact h1.trans h2
      · exact h1.trans h2

theorem fill_alike (n : ℕ) (what : String) :
    wp (hostKernel readPath j) E freely (fill n what) (fun _ s' => Host.Alike s s') s := by
  refine wp_data (.getrandom n) trivial fun reply s1 h1 => ?_
  cases reply with
  | error e => exact h1
  | ok bytes => exact h1

theorem persistIn_holds {lp : Except IoError (Route Bytes)} {f i : ℕ} (hs : s.Holds j lp f i)
    {self : SecretStore} (hapart : Apart s j self.path i) :
    wp (hostKernel readPath j) E freely self.persistIn
      (fun r s' => ∀ u, r = .ok u → s'.Holds j lp f i) s := by
  unfold SecretStore.persistIn
  rcases checkedImage self.toContents with buf | e | -
  · exact atomicWriteIn_holds hs hapart buf
  · exact fun _ h => nomatch h
  · exact fun _ h => nomatch h

theorem openLockedIn_holds {lp : Except IoError (Route Bytes)} {f i : ℕ} (hs : s.Holds j lp f i)
    (path : Bytes) (master : MasterKey) (lock : Option ℕ) :
    wp (hostKernel readPath j) E freely (SecretStore.openLockedIn path master lock)
      (fun r s' => ∀ store, r = .ok store → s'.Holds j lp f i) s := by
  unfold SecretStore.openLockedIn
  rw [wp_bind]
  refine (readCapped_holds hs path MAX_STORE_BYTES).imp fun r s1 hr => ?_
  obtain ⟨h1, hmissing⟩ := hr
  match r with
  | .err e => exact fun _ h => nomatch h
  | .panic => exact fun _ h => nomatch h
  -- the file is there: reading it and changing its mode touch no entry
  | .ok (some data) =>
    dsimp only [Prog.onOk]
    rw [wp_bind]
    refine (makePrivate_alike path).imp fun r s2 h2 => ?_
    match r with
    | .err e => exact fun _ h => nomatch h
    | .panic => exact fun _ h => nomatch h
    | .ok () =>
      dsimp only [Prog.onOk]
      rcases load data with c | e | -
      · exact fun _ _ => h2.holds h1
      · exact fun _ h => nomatch h
      · exact fun _ h => nomatch h
  | .ok none =>
    obtain ⟨rfl, e, hfind, hkind⟩ := hmissing rfl
    dsimp only [Prog.onOk]
    rw [wp_bind]
    refine (fill_alike 16 _).imp fun r s2 h2 => ?_
    match r with
    | .err e => exact fun _ h => nomatch h
    | .panic => exact fun _ h => nomatch h
    | .ok salt =>
      dsimp only [Prog.onOk]
      rw [wp_bind]
      refine (fill_alike 16 _).imp fun r s3 h3 => ?_
      match r with
      | .err e => exact fun _ h => nomatch h
      | .panic => exact fun _ h => nomatch h
      | .ok keyId =>
        dsimp only [Prog.onOk]
        have halike := h2.trans h3
        rw [wp_bind]
        -- the file was missing, so that no path to the lock's file passes its entry
        have hapart : Apart s3 j path i := by
          refine apart_of_missing (e := e) ?_ hkind i
          rw [halike.find]
          exact hfind
        refine (persistIn_holds (halike.holds h1) hapart).imp fun r s4 h4 => ?_
        match r with
        | .err e => exact fun _ h => nomatch h
        | .panic => exact fun _ h => nomatch h
        | .ok () => exact fun _ _ => h4 () rfl

end Taking
end Krypto.Store
