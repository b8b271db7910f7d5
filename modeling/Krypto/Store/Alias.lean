import Krypto.Store.Failure
import Krypto.Store.Refusal

/-! Two paths and one store file: whether the lock of one path tells that the file
is open by the other. Locks go by how a path is spelled, stores by where it leads. -/

namespace Krypto.Store
open Effect

section Alias
variable {ι : Type} [DecidableEq ι]

/-- The store file of a path: what an open reads, or where it makes a new one. -/
def storeAt (s : Host Bytes ι) (j : ι) (path : Bytes) : Option (Place Bytes) :=
  match s.find j (readPath path) with
  | .ok i => if s.tree.isDir i then none else some (.found i)
  | .error e =>
    if e.kind = .notFound then
      (s.slot j (readPath path)).toOption.map fun entry => .missing entry.1 entry.2
    else
      none

def SameStore (s : Host Bytes ι) (i : ι) (p : Bytes) (j : ι) (q : Bytes) : Prop :=
  ∃ place, storeAt s i p = some place ∧ storeAt s j q = some place

def OtherStore (s : Host Bytes ι) (i : ι) (p : Bytes) (j : ι) (q : Bytes) : Prop :=
  ∃ place place', storeAt s i p = some place ∧ storeAt s j q = some place' ∧ place ≠ place'

def Refused (s : Host Bytes ι) (j : ι) (q : Bytes) : Prop :=
  ∀ master r s', Ends (hostKernel readPath j) (faultless j) (SecretStore.openStoreIn q master) s r s' →
    Blocks r

def MayRefuse (s : Host Bytes ι) (j : ι) (q : Bytes) : Prop :=
  ∃ master r s', Ends (hostKernel readPath j) (faultless j) (SecretStore.openStoreIn q master) s r s' ∧
    Blocks r

def without (s : Host Bytes ι) (i : ι) : Option ℕ → Host Bytes ι
  | none => s
  | some f => s.closeFile i f

/-- The guard of a handle on `p`, when process `j` opens `q`: it refuses the same store file, and
no other on account of this handle. -/
structure Guards (s : Host Bytes ι) (i : ι) (lock : Option ℕ) (p : Bytes) (j : ι) (q : Bytes) :
    Prop where
  same : SameStore s i p j q → Refused s j q
  other : OtherStore s i p j q → ¬(MayRefuse s j q ∧ ¬MayRefuse (without s i lock) j q)

/-- The lock of `q` leads to the file that the lock of `p` led to, which the handle has locked. -/
def Meets (opened s : Host Bytes ι) (i : ι) (lock : Option ℕ) (p : Bytes) (j : ι) (q : Bytes) :
    Prop :=
  lock.isSome ∧ ∃ x, lockAt opened i p = .ok x ∧ lockAt s j q = .ok x ∧ s.tree.isDir x = false

def Taken (s : Host Bytes ι) (i : ι) (lock : Option ℕ) (j : ι) (q : Bytes) : Prop :=
  ∃ x y, lockAt s j q = .ok x ∧ s.tree.isDir x = false ∧ s.locks x = some y ∧
    ∀ f, lock = some f → y ≠ (i, f)

/-- The two locks meet where the two stores do. -/
structure LocksTell (opened s : Host Bytes ι) (i : ι) (lock : Option ℕ) (p : Bytes) (j : ι)
    (q : Bytes) : Prop where
  same : SameStore s i p j q → Meets opened s i lock p j q ∨ Taken s i lock j q
  other : OtherStore s i p j q → ¬Meets opened s i lock p j q

/-- What may happen while a handle lives: the calls of every process, but the one that closes its
lock, and any change of directories and links. -/
inductive Life (i : ι) (lock : Option ℕ) (opened : Host Bytes ι) : Host Bytes ι → Prop where
  | start : Life i lock opened opened
  | call {s : Host Bytes ι} (k : ι) (op : Call Bytes) (c : op.Choice) (life : Life i lock opened s)
      (hkeeps : ∀ f, lock = some f → ¬(k = i ∧ op = .close f)) :
      Life i lock opened (Host.step readPath k op c s).2
  | change {s s' : Host Bytes ι} (life : Life i lock opened s) (hlocks : s'.locks = s.locks) :
      Life i lock opened s'

variable {i j : ι} {opened s : Host Bytes ι} {p q : Bytes}

theorem Life.locks {f x : ℕ} (h : Life i (some f) opened s) (hlock : opened.locks x = some (i, f)) :
    s.locks x = some (i, f) := by
  induction h with
  | start => exact hlock
  | call k op c life hkeeps ih => exact Host.step_locks readPath (hkeeps f rfl) ih
  | change life hlocks ih => rw [hlocks, ih]

theorem refused_iff : Refused s j q ↔ Locked s j q := by
  constructor
  · intro h
    obtain ⟨r, s', hends⟩ := exists_ends (M := hostKernel readPath j) (E := faultless j) calm_total
      (SecretStore.openStoreIn q sampleKey) s
    exact ((openStoreIn_calm s q sampleKey).ends hends).mp (h _ _ _ hends)
  · intro h master r s' hends
    exact ((openStoreIn_calm s q master).ends hends).mpr h

theorem mayRefuse_iff : MayRefuse s j q ↔ Locked s j q := by
  constructor
  · rintro ⟨master, r, s', hends, hblocks⟩
    exact ((openStoreIn_calm s q master).ends hends).mp hblocks
  · intro h
    obtain ⟨r, s', hends⟩ := exists_ends (M := hostKernel readPath j) (E := faultless j) calm_total
      (SecretStore.openStoreIn q sampleKey) s
    exact ⟨sampleKey, r, s', hends, refused_iff.mpr h _ _ _ hends⟩

theorem locked_without (s : Host Bytes ι) (i : ι) (lock : Option ℕ) (j : ι) (q : Bytes) :
    Locked (without s i lock) j q ↔ Taken s i lock j q := by
  cases lock with
  | none =>
    constructor
    · rintro ⟨x, y, hx, hfile, hy⟩
      exact ⟨x, y, hx, hfile, hy, fun f hf => by cases hf⟩
    · rintro ⟨x, y, hx, hfile, hy, -⟩
      exact ⟨x, y, hx, hfile, hy⟩
  | some f =>
    have hlocks (x : ℕ) : (s.closeFile i f).locks x =
        if s.locks x = some (i, f) then none else s.locks x := rfl
    constructor
    · rintro ⟨x, y, hx, hfile, hy⟩
      have hy' := (hlocks x).symm.trans hy
      split at hy'
      · cases hy'
      next hne =>
        refine ⟨x, y, hx, hfile, hy', ?_⟩
        rintro g ⟨⟩ rfl
        exact hne hy'
    · rintro ⟨x, y, hx, hfile, hy, hother⟩
      refine ⟨x, y, hx, hfile, (hlocks x).trans ?_⟩
      have hne : s.locks x ≠ some (i, f) := by
        rw [hy]
        rintro ⟨⟩
        exact hother f rfl rfl
      rw [if_neg hne, hy]

def HasLock (opened s : Host Bytes ι) (i : ι) (lock : Option ℕ) (p : Bytes) : Prop :=
  ∀ f, lock = some f → ∃ x, lockAt opened i p = .ok x ∧ s.locks x = some (i, f)

theorem meets_or_taken {lock : Option ℕ} (h : HasLock opened s i lock p) :
    Locked s j q ↔ Meets opened s i lock p j q ∨ Taken s i lock j q := by
  constructor
  · rintro ⟨x, y, hx, hfile, hy⟩
    by_cases hown : ∃ f, lock = some f ∧ y = (i, f)
    · obtain ⟨f, hf, rfl⟩ := hown
      obtain ⟨c, hc, hlock⟩ := h f hf
      -- one open file holds one lock
      have hcx : c = x :=
        Option.some.inj ((s.locks_open c i f hlock).symm.trans (s.locks_open x i f hy))
      subst hcx
      exact .inl ⟨hf ▸ rfl, c, hc, hx, hfile⟩
    · refine .inr ⟨x, y, hx, hfile, hy, fun f hf hyf => ?_⟩
      exact hown ⟨f, hf, hyf⟩
  · rintro (⟨hsome, x, hp, hq, hfile⟩ | ⟨x, y, hx, hfile, hy, -⟩)
    · obtain ⟨f, hf⟩ := Option.isSome_iff_exists.mp hsome
      obtain ⟨c, hc, hlock⟩ := h f hf
      cases hp.symm.trans hc
      exact ⟨x, (i, f), hq, hfile, hlock⟩
    · exact ⟨x, y, hx, hfile, hy⟩

omit [DecidableEq ι] in
theorem not_taken_of_meets {lock : Option ℕ} (h : HasLock opened s i lock p)
    (hmeets : Meets opened s i lock p j q) : ¬Taken s i lock j q := by
  rintro ⟨x, y, hx, -, hy, hother⟩
  obtain ⟨hsome, c, hp, hq, -⟩ := hmeets
  obtain ⟨f, hf⟩ := Option.isSome_iff_exists.mp hsome
  obtain ⟨d, hd, hlock⟩ := h f hf
  cases hp.symm.trans hd
  cases hq.symm.trans hx
  exact hother f hf (Option.some.inj (hy.symm.trans hlock))

/-- While a handle on `p` lives, it guards its store against an open of `q` just when the locks of
the two paths meet where their stores do. -/
theorem guards_iff_locksTell {E : (hostKernel readPath i).Env} {master : MasterKey}
    {store : SecretStore} {start : Host Bytes ι}
    (hopen : Ends (hostKernel readPath i) E (SecretStore.openStoreIn p master) start (.ok store) opened)
    (life : Life i store.lock opened s) (j : ι) (q : Bytes) :
    Guards s i store.lock p j q ↔ LocksTell opened s i store.lock p j q := by
  have hlock : HasLock opened s i store.lock p := by
    intro f hf
    obtain ⟨x, hx⟩ := (openStoreIn_holds p master start).ends hopen store rfl f hf
    rw [hf] at life
    exact ⟨x, hx.leads, life.locks hx.lock⟩
  have hown : MayRefuse s j q ∧ ¬MayRefuse (without s i store.lock) j q ↔
      Meets opened s i store.lock p j q := by
    rw [mayRefuse_iff, mayRefuse_iff, locked_without, meets_or_taken hlock]
    constructor
    · rintro ⟨hmeets | htaken, hnot⟩
      · exact hmeets
      · exact absurd htaken hnot
    · intro hmeets
      exact ⟨.inl hmeets, not_taken_of_meets hlock hmeets⟩
  constructor
  · intro h
    refine ⟨fun hsame => ?_, fun hother hmeets => ?_⟩
    · exact (meets_or_taken hlock).mp (refused_iff.mp (h.same hsame))
    · exact h.other hother (hown.mpr hmeets)
  · intro h
    refine ⟨fun hsame => ?_, fun hother hrefuses => ?_⟩
    · exact refused_iff.mpr ((meets_or_taken hlock).mpr (h.same hsame))
    · exact h.other hother (hown.mp hrefuses)

end Alias

/-! ## A store under two names -/

def linkedTree : Effect.Tree Bytes where
  node
    | 0 => .dir (fun n => if n = [0x73] then some 1 else if n = [0x6c] then some 2 else none) 0
    | 2 => .link ⟨false, [.name [0x73]]⟩
    | _ => .file
  root := 0
  maxLinks := 40
  fresh := 3
  root_lt := by decide
  below := by
    intro d
    split
    · refine ⟨by decide, fun n i h => ?_⟩
      dsimp only at h
      split_ifs at h <;> cases h <;> decide
    · trivial
    · trivial
  unused := by
    intro i hi
    match i with
    | 0 => cases hi
    | 1 => rfl
    | 2 => exact absurd hi (by decide)
    | i + 3 => rfl

def linkedHost : Host Bytes Unit where
  tree := linkedTree
  cwd _ := 0
  content
    | 1 => header (.zero 16) (.zero 16)
    | _ => []
  mode _ := 0o600
  locks _ := none
  files _ _ := none
  nextFile _ := 0
  cwd_lt _ := by decide
  files_lt _ _ _ h := nomatch h
  locks_open _ _ _ h := nomatch h

def openedAt (path : Bytes) (s : Host Bytes Unit) : Outcome Error SecretStore × Host Bytes Unit :=
  (hostKernel readPath ()).play (failing fun _ => false) (SecretStore.openStoreIn path sampleKey) s

theorem openedAt_ends (path : Bytes) (s : Host Bytes Unit) :
    Ends (hostKernel readPath ()) (faultless ()) (SecretStore.openStoreIn path sampleKey) s
      (openedAt path s).1 (openedAt path s).2 := by
  refine ends_play _ (fun op => ?_) _ _
  cases op with
  | getrandom n => exact trivial
  | lockPages n => exact trivial
  | processId => exact trivial
  | close f => exact trivial
  | _ => exact rfl

theorem opened_linked : (openedAt [0x73] linkedHost).1 = .ok sampleHandle := by decide +kernel

/-- The link is opened again, as the store is; and of two names that are not UTF-8 the one is in the
way of the other. -/
theorem lock_misses_store :
    (∃ opened, Ends (hostKernel readPath ()) (faultless ()) (SecretStore.openStoreIn [0x73] sampleKey)
        linkedHost (.ok sampleHandle) opened ∧
      ¬Guards opened () sampleHandle.lock [0x73] () [0x6c]) ∧
    ∃ opened, Ends (hostKernel readPath ()) (faultless ()) (SecretStore.openStoreIn [0xff] sampleKey)
        linkedHost (.ok { sampleHandle with path := [0xff] }) opened ∧
      ¬Guards opened () sampleHandle.lock [0xff] () [0xfe] := by
  constructor
  · refine ⟨_, opened_linked ▸ openedAt_ends [0x73] linkedHost, fun h => ?_⟩
    have hsame : SameStore (openedAt [0x73] linkedHost).2 () [0x73] () [0x6c] :=
      ⟨.found 1, by decide +kernel, by decide +kernel⟩
    have hagain : (openedAt [0x6c] (openedAt [0x73] linkedHost).2).1 =
        .ok { sampleHandle with path := [0x6c], lock := some 2 } := by decide +kernel
    obtain ⟨e, he, -⟩ := h.same hsame _ _ _ (openedAt_ends _ _)
    cases hagain.symm.trans he
  · have hopened : (openedAt [0xff] linkedHost).1 = .ok { sampleHandle with path := [0xff] } := by
      decide +kernel
    refine ⟨_, hopened ▸ openedAt_ends [0xff] linkedHost, fun h => ?_⟩
    have hother : OtherStore (openedAt [0xff] linkedHost).2 () [0xff] () [0xfe] :=
      ⟨.found 4, .missing 0 [0xfe], by decide +kernel, by decide +kernel, by decide⟩
    have hlocked : Locked (openedAt [0xff] linkedHost).2 () [0xfe] :=
      ⟨3, ((), 0), by decide +kernel, by decide +kernel, by decide +kernel⟩
    refine h.other hother ⟨mayRefuse_iff.mpr hlocked, fun hmay => ?_⟩
    obtain ⟨x, y, hx, -, hy⟩ := mayRefuse_iff.mp hmay
    have hlock : lockAt (without (openedAt [0xff] linkedHost).2 () (some 0)) () [0xfe] = .ok 3 := by
      decide +kernel
    have hfree : (without (openedAt [0xff] linkedHost).2 () (some 0)).locks 3 = none := by
      decide +kernel
    cases hlock.symm.trans hx
    cases hfree.symm.trans hy

/-- Another spelling of the same name is refused. -/
theorem guards_other_spelling :
    Guards (openedAt [0x73] linkedHost).2 () sampleHandle.lock [0x73] () [0x2e, 0x2f, 0x73] := by
  have hopen := opened_linked ▸ openedAt_ends [0x73] linkedHost
  refine (guards_iff_locksTell hopen .start () [0x2e, 0x2f, 0x73]).mpr ⟨fun _ => .inl ?_, ?_⟩
  · exact ⟨rfl, 3, by decide +kernel, by decide +kernel, by decide +kernel⟩
  · rintro ⟨place, place', hp, hq, hne⟩
    have hfirst : storeAt (openedAt [0x73] linkedHost).2 () [0x73] = some (.found 1) := by
      decide +kernel
    have hsecond : storeAt (openedAt [0x73] linkedHost).2 () [0x2e, 0x2f, 0x73] = some (.found 1) := by
      decide +kernel
    cases hfirst.symm.trans hp
    cases hsecond.symm.trans hq
    exact absurd rfl hne

end Krypto.Store
