import Krypto.Effect.Kernel
import Krypto.Effect.Tree

/-! The calls of processes that share a tree of directories with links: what the
system does where the names of a call are paths. -/

namespace Krypto.Effect

structure Host (ν ι : Type) where
  tree : Tree ν
  cwd : ι → Nat
  content : Nat → Bytes
  mode : Nat → Nat
  /-- The open file that holds the lock on an inode, and whose it is. -/
  locks : Nat → Option (ι × Nat)
  files : ι → Nat → Option Nat
  nextFile : ι → Nat
  cwd_lt : ∀ j, cwd j < tree.fresh
  files_lt : ∀ j f i, files j f = some i → f < nextFile j ∧ i < tree.fresh
  locks_open : ∀ i j f, locks i = some (j, f) → files j f = some i

def isDirectory : IoError := ⟨.other, "Is a directory"⟩

def notDirectory : IoError := ⟨.other, "Not a directory"⟩

def Place.error {ν : Type} : Place ν → IoError
  | found _ => isDirectory
  | missing _ _ | slashed | absent => Process.notFound
  | notDirectory => Effect.notDirectory
  | tooManyLinks => ⟨.other, "Too many levels of symbolic links"⟩

namespace Host
variable {ν ι π : Type}

/-! ## What a path leads to -/

def resolve (s : Host ν ι) (j : ι) (r : Route ν) : Place ν := s.tree.resolve (s.cwd j) r

def holder (s : Host ν ι) (j : ι) (r : Route ν) : Option (Nat × ν) := s.tree.holder (s.cwd j) r

theorem resolve_lt (s : Host ν ι) {j : ι} {r : Route ν} {i : Nat} (h : s.resolve j r = .found i) :
    i < s.tree.fresh := Tree.resolve_lt (s.cwd_lt j) h

def find (s : Host ν ι) (j : ι) (path : Except IoError (Route ν)) : Except IoError Nat := do
  match s.resolve j (← path) with
  | .found i => .ok i
  | place => .error place.error

theorem find_eq_ok {s : Host ν ι} {j : ι} {path : Except IoError (Route ν)} {i : Nat}
    (h : s.find j path = .ok i) : ∃ r, path = .ok r ∧ s.resolve j r = .found i := by
  cases path with
  | error e => cases h
  | ok r =>
    refine ⟨r, rfl, ?_⟩
    unfold find at h
    dsimp only [bind, Except.bind] at h
    split at h
    next c hc =>
      cases h
      exact hc
    · cases h

theorem find_lt {s : Host ν ι} {j : ι} {path : Except IoError (Route ν)} {i : Nat}
    (h : s.find j path = .ok i) : i < s.tree.fresh := by
  obtain ⟨r, -, hr⟩ := find_eq_ok h
  exact s.resolve_lt hr

theorem entry_lt (s : Host ν ι) {d : Nat} {n : ν} {i : Nat} (h : s.tree.entry d n = some i) :
    i < s.tree.fresh := by
  have hbelow := s.tree.below d
  unfold Tree.entry at h
  split at h
  next entries parent hnode =>
    rw [hnode] at hbelow
    exact hbelow.2 n i h
  · cases h

def onFile {α : Type} (s : Host ν ι) (j : ι) (f : Nat) (act : Nat → Except IoError α × Host ν ι) :
    Except IoError α × Host ν ι :=
  match s.files j f with
  | none => (.error Process.badFile, s)
  | some i => act i

def onPath {α : Type} (s : Host ν ι) (j : ι) (path : Except IoError (Route ν))
    (act : Nat → α × Host ν ι) : Except IoError α × Host ν ι :=
  match s.find j path with
  | .error e => (.error e, s)
  | .ok i => (.ok (act i).1, (act i).2)

def readFile (s : Host ν ι) (i limit : Nat) : Except IoError Bytes × Host ν ι :=
  if s.tree.isDir i then (.error isDirectory, s)
  else (.ok ((s.content i).take limit), s)

def writeFile (s : Host ν ι) (i : Nat) (data : Bytes) : Host ν ι :=
  { s with content := Function.update s.content i data }

def orFault {α : Type} (c : Option Fault) (s : Host ν ι) (r : Except IoError α × Host ν ι) :
    Except IoError α × Host ν ι :=
  match c with
  | some e => (.error e.1, s)
  | none => r

section Finding
variable {s : Host ν ι} {j : ι} {path path' : Except IoError (Route ν)}

theorem find_of_resolve {r : Route ν} (h : s.resolve j r = .found i) : s.find j (.ok r) = .ok i := by
  simp only [find, bind, Except.bind, h]

theorem holder_free {r : Route ν} {d : Nat} {n : ν} (h : s.holder j r = some (d, n))
    (hentry : s.tree.entry d n = none) : s.tree.next d (.name n) = .nothing n := by
  obtain ⟨hdir, -⟩ := Tree.holder_eq_some h
  rw [Tree.next_name n hdir, hentry]

theorem onFile_none {α : Type} {f : Nat} {act : Nat → Except IoError α × Host ν ι}
    (h : s.files j f = none) : s.onFile j f act = (.error Process.badFile, s) := by
  rw [onFile, h]

theorem onFile_some {α : Type} {f i : Nat} {act : Nat → Except IoError α × Host ν ι}
    (h : s.files j f = some i) : s.onFile j f act = act i := by
  rw [onFile, h]

theorem onPath_error {α : Type} {e : IoError} {act : Nat → α × Host ν ι}
    (h : s.find j path = .error e) : s.onPath j path act = (.error e, s) := by
  rw [onPath, h]

theorem onPath_ok {α : Type} {i : Nat} {act : Nat → α × Host ν ι} (h : s.find j path = .ok i) :
    s.onPath j path act = (.ok (act i).1, (act i).2) := by
  rw [onPath, h]

end Finding

/-! ## Calls on the data of files -/

structure Alike (s s' : Host ν ι) : Prop where
  tree : s'.tree = s.tree
  cwd : s'.cwd = s.cwd
  locks : s'.locks = s.locks
  files : s'.files = s.files
  nextFile : s'.nextFile = s.nextFile

section Alike
variable {s s' s'' : Host ν ι}

theorem Alike.refl (s : Host ν ι) : Alike s s := ⟨rfl, rfl, rfl, rfl, rfl⟩

theorem Alike.trans (h : Alike s s') (h' : Alike s' s'') : Alike s s'' :=
  ⟨h'.tree.trans h.tree, h'.cwd.trans h.cwd, h'.locks.trans h.locks, h'.files.trans h.files,
    h'.nextFile.trans h.nextFile⟩

theorem Alike.find (h : Alike s s') (j : ι) (path : Except IoError (Route ν)) :
    s'.find j path = s.find j path := by
  unfold Host.find Host.resolve
  rw [h.tree, h.cwd]

theorem Alike.holder (h : Alike s s') (j : ι) (r : Route ν) : s'.holder j r = s.holder j r := by
  unfold Host.holder
  rw [h.tree, h.cwd]

end Alike

/-- A call on what is in files, not on where they are. -/
def OnData : Call π → Prop
  | .getrandom _ | .lockPages _ | .processId | .fstat _ | .stat _ | .chmod _ _ | .read _ _
  | .write _ _ | .sync _ | .openDir | .syncDir => True
  | _ => False

theorem alike_orFault {α : Type} {c : Option Fault} {s : Host ν ι} {r : Except IoError α × Host ν ι}
    (h : Alike s r.2) : Alike s (orFault c s r).2 := by
  cases c with
  | some e => exact .refl s
  | none => exact h

theorem alike_onFile {α : Type} {s : Host ν ι} {j : ι} {f : Nat}
    {act : Nat → Except IoError α × Host ν ι} (h : ∀ i, Alike s (act i).2) :
    Alike s (s.onFile j f act).2 := by
  unfold onFile
  split
  · exact .refl s
  · exact h _

theorem alike_onPath {α : Type} {s : Host ν ι} {j : ι} {path : Except IoError (Route ν)}
    {act : Nat → α × Host ν ι} (h : ∀ i, Alike s (act i).2) : Alike s (s.onPath j path act).2 := by
  unfold onPath
  split
  · exact .refl s
  · exact h _

theorem alike_readFile (s : Host ν ι) (i limit : Nat) : Alike s (s.readFile i limit).2 := by
  unfold readFile
  split <;> exact .refl s

/-! ## Open files -/

section Files
variable [DecidableEq ι]

def openFile (s : Host ν ι) (j : ι) (i : Nat) (hi : i < s.tree.fresh) : Host ν ι :=
  { s with
    files := Function.update s.files j (Function.update (s.files j) (s.nextFile j) (some i))
    nextFile := Function.update s.nextFile j (s.nextFile j + 1)
    files_lt := by
      intro k f c h
      by_cases hk : k = j
      · subst hk
        rw [Function.update_self] at h ⊢
        by_cases hf : f = s.nextFile k
        · subst hf
          obtain rfl : i = c := by simpa using h
          exact ⟨Nat.lt_succ_self _, hi⟩
        · obtain ⟨hlt, hc⟩ := s.files_lt k f c (by simpa [Function.update_of_ne hf] using h)
          exact ⟨Nat.lt_succ_of_lt hlt, hc⟩
      · rw [Function.update_of_ne hk] at h ⊢
        exact s.files_lt k f c h
    locks_open := by
      intro c k f h
      have hopen := s.locks_open c k f h
      by_cases hk : k = j
      · subst hk
        have hf : f ≠ s.nextFile k := Nat.ne_of_lt (s.files_lt k f c hopen).1
        rw [Function.update_self, Function.update_of_ne hf]
        exact hopen
      · rw [Function.update_of_ne hk]
        exact hopen }

def closeFile (s : Host ν ι) (j : ι) (f : Nat) : Host ν ι :=
  { s with
    files := Function.update s.files j (Function.update (s.files j) f none)
    locks := fun i => if s.locks i = some (j, f) then none else s.locks i
    files_lt := by
      intro k g c h
      by_cases hk : k = j
      · subst hk
        rw [Function.update_self] at h
        by_cases hg : g = f
        · rw [hg, Function.update_self] at h
          cases h
        · exact s.files_lt k g c (by simpa [Function.update_of_ne hg] using h)
      · exact s.files_lt k g c (by simpa [Function.update_of_ne hk] using h)
    locks_open := by
      intro c k g h
      split at h
      · cases h
      next hne =>
        have hopen := s.locks_open c k g h
        by_cases hk : k = j
        · subst hk
          have hg : g ≠ f := by
            rintro rfl
            exact hne h
          rw [Function.update_self, Function.update_of_ne hg]
          exact hopen
        · rw [Function.update_of_ne hk]
          exact hopen }

def lockFile (s : Host ν ι) (j : ι) (f i : Nat) (h : s.files j f = some i) : Host ν ι :=
  { s with
    locks := Function.update s.locks i (some (j, f))
    locks_open := by
      intro c k g hc
      by_cases hi : c = i
      · subst hi
        rw [Function.update_self] at hc
        cases hc
        exact h
      · rw [Function.update_of_ne hi] at hc
        exact s.locks_open c k g hc }

def openExisting (s : Host ν ι) (j : ι) (path : Except IoError (Route ν)) :
    Except IoError Nat × Host ν ι :=
  match h : s.find j path with
  | .error e => (.error e, s)
  | .ok i => (.ok (s.nextFile j), s.openFile j i (find_lt h))

def tryLock (s : Host ν ι) (j : ι) (f : Nat) : Except TryLockError Unit × Host ν ι :=
  match h : s.files j f with
  | none => (.error (.error Process.badFile), s)
  | some i =>
    match s.locks i with
    | none => (.ok (), s.lockFile j f i h)
    | some x => if x = (j, f) then (.ok (), s) else (.error .wouldBlock, s)

variable {s : Host ν ι} {j : ι} {path path' : Except IoError (Route ν)}

theorem openExisting_ok {f : Nat} (h : (s.openExisting j path).1 = .ok f) :
    f = s.nextFile j ∧ ∃ i, ∃ hi : i < s.tree.fresh, (s.openExisting j path).2 = s.openFile j i hi := by
  unfold openExisting at h ⊢
  split at h
  · cases h
  next i hfind =>
    cases h
    exact ⟨rfl, i, find_lt hfind, rfl⟩

theorem openExisting_error {e : IoError} (h : (s.openExisting j path).1 = .error e) :
    s.find j path = .error e ∧ (s.openExisting j path).2 = s := by
  unfold openExisting at h ⊢
  split at h
  next hfind =>
    cases h
    exact ⟨hfind, rfl⟩
  · cases h

theorem tryLock_free {f i : ℕ} (hf : s.files j f = some i) (hl : s.locks i = none) :
    s.tryLock j f = (.ok (), s.lockFile j f i hf) := by
  unfold tryLock
  split
  next hnone => cases hf.symm.trans hnone
  next c hc =>
    cases hf.symm.trans hc
    rw [hl]

theorem tryLock_held {f i : ℕ} {x : ι × ℕ} (hf : s.files j f = some i) (hl : s.locks i = some x)
    (hx : x ≠ (j, f)) : s.tryLock j f = (.error .wouldBlock, s) := by
  unfold tryLock
  split
  next hnone => cases hf.symm.trans hnone
  next c hc =>
    cases hf.symm.trans hc
    simp only [hl, if_neg hx]

theorem tryLock_ok {f : Nat} (h : (s.tryLock j f).1 = .ok ()) : ∃ i, s.files j f = some i ∧
    (s.tryLock j f).2.locks i = some (j, f) ∧ (s.tryLock j f).2.tree = s.tree ∧
      (s.tryLock j f).2.cwd = s.cwd ∧ (s.tryLock j f).2.files = s.files := by
  unfold tryLock at h ⊢
  split at h
  · cases h
  next i hi =>
    refine ⟨i, hi, ?_⟩
    split at h
    · exact ⟨Function.update_self _ _ _, rfl, rfl, rfl⟩
    next x hx =>
      by_cases hown : x = (j, f)
      · rw [if_pos hown]
        exact ⟨hown ▸ hx, rfl, rfl, rfl⟩
      · rw [if_neg hown] at h
        cases h

theorem tryLock_error {f : Nat} {e : TryLockError} (h : (s.tryLock j f).1 = .error e) :
    (s.tryLock j f).2 = s := by
  unfold tryLock at h ⊢
  split at h
  · rfl
  next i hi =>
    split at h
    · cases h
    · split <;> rfl

end Files

/-! ## Entries of directories -/

section Entries
variable [DecidableEq ν]

def create (s : Host ν ι) (d : Nat) (n : ν) (mode : Nat) : Host ν ι :=
  { s with
    tree := s.tree.create d n
    content := Function.update s.content s.tree.fresh []
    mode := Function.update s.mode s.tree.fresh mode
    cwd_lt := fun j => Nat.lt_succ_of_lt (s.cwd_lt j)
    files_lt := fun j f i h => ⟨(s.files_lt j f i h).1, Nat.lt_succ_of_lt (s.files_lt j f i h).2⟩ }

def setEntry (s : Host ν ι) (d : Nat) (n : ν) (o : Option Nat)
    (ho : ∀ i, o = some i → i < s.tree.fresh) : Host ν ι :=
  { s with tree := s.tree.setEntry d n o ho }

/-- `slashed` is the error of a name that is none, and has a slash behind it. -/
def slotOr (s : Host ν ι) (j : ι) (slashed : IoError) (path : Except IoError (Route ν)) :
    Except IoError (Nat × ν) := do
  let r ← path
  match s.holder j r with
  | some e => .ok e
  | none => .error (if s.resolve j r = .slashed then slashed else (s.resolve j r).error)

abbrev slot (s : Host ν ι) (j : ι) (path : Except IoError (Route ν)) : Except IoError (Nat × ν) :=
  s.slotOr j Process.notFound path

theorem slotOr_eq_ok {s : Host ν ι} {j : ι} {slashed : IoError} {path : Except IoError (Route ν)}
    {e : Nat × ν} (h : s.slotOr j slashed path = .ok e) : ∃ r, path = .ok r ∧ s.holder j r = some e := by
  cases path with
  | error e => cases h
  | ok r =>
    refine ⟨r, rfl, ?_⟩
    unfold slotOr at h
    dsimp only [bind, Except.bind] at h
    split at h
    next e' he =>
      cases h
      exact he
    · cases h

/-- `rename`: the entry that `dst` names is replaced, be it a link. -/
def rename (s : Host ν ι) (j : ι) (src dst : Except IoError (Route ν)) :
    Except IoError Unit × Host ν ι :=
  match s.slot j src with
  | .error e => (.error e, s)
  | .ok (d, n) =>
    -- what there is to move is looked up before a slash behind the new name is
    let slashed := if s.tree.entry d n = none then Process.notFound else notDirectory
    match s.slotOr j slashed dst with
    | .error e => (.error e, s)
    | .ok (c, m) =>
      match h : s.tree.entry d n with
      | none => (.error Process.notFound, s)
      | some i =>
        -- no program here moves a directory
        if s.tree.isDir i ∨ (s.tree.entry c m).any s.tree.isDir then
          (.error isDirectory, s)
        else
          (.ok (), (s.setEntry d n none (fun _ hi => nomatch hi)).setEntry c m (some i)
            (fun _ hi => Option.some.inj hi ▸ s.entry_lt h))

def remove (s : Host ν ι) (j : ι) (path : Except IoError (Route ν)) :
    Except IoError Unit × Host ν ι :=
  match s.slot j path with
  | .error e => (.error e, s)
  | .ok (d, n) =>
    match s.tree.entry d n with
    | none => (.error Process.notFound, s)
    | some i =>
      if s.tree.isDir i then (.error isDirectory, s)
      else (.ok (), s.setEntry d n none (fun _ hi => nomatch hi))

variable {s : Host ν ι} {j : ι} {path path' : Except IoError (Route ν)}

theorem rename_ok {src dst : Except IoError (Route ν)} (h : (s.rename j src dst).1 = .ok ()) :
    ∃ r r' d n c m i, ∃ hi : ∀ k, some i = some k → k < s.tree.fresh,
      src = .ok r ∧ dst = .ok r' ∧ s.holder j r = some (d, n) ∧ s.holder j r' = some (c, m) ∧
        s.tree.entry d n = some i ∧ (s.rename j src dst).2 =
          (s.setEntry d n none fun _ hk => nomatch hk).setEntry c m (some i) hi := by
  unfold rename at h ⊢
  split at h
  · cases h
  next d n hsrc =>
    dsimp only at h ⊢
    split at h
    · cases h
    next c m hdst =>
      split at h
      · cases h
      next i hentry =>
      split at h
      · cases h
      next hdir =>
        obtain ⟨r, hr, hholder⟩ := slotOr_eq_ok hsrc
        obtain ⟨r', hr', hholder'⟩ := slotOr_eq_ok hdst
        refine ⟨r, r', d, n, c, m, i, ?_, hr, hr', hholder, hholder', hentry, ?_⟩
        · intro k hk
          exact Option.some.inj hk ▸ s.entry_lt hentry
        · rw [if_neg hdir]

end Entries

/-! ## A call, and what it has done -/

section Step
variable [DecidableEq ν] [DecidableEq ι]

/-- `open(path, O_RDWR | O_CREAT)` -/
def openOrCreate (s : Host ν ι) (j : ι) (path : Except IoError (Route ν)) (mode : Nat) :
    Except IoError Nat × Host ν ι :=
  match path with
  | .error e => (.error e, s)
  | .ok r =>
    match h : s.resolve j r with
    | .found i =>
      if s.tree.isDir i then (.error isDirectory, s)
      else (.ok (s.nextFile j), s.openFile j i (s.resolve_lt h))
    | .missing d n =>
      (.ok (s.nextFile j), (s.create d n mode).openFile j s.tree.fresh (Nat.lt_succ_self _))
    | .slashed => (.error isDirectory, s)
    | place => (.error place.error, s)

/-- `open(path, O_CREAT | O_EXCL)`: a link there is not followed. -/
def createNew (s : Host ν ι) (j : ι) (path : Except IoError (Route ν)) (mode : Nat) :
    Except IoError Nat × Host ν ι :=
  match s.slotOr j isDirectory path with
  | .error e => (.error e, s)
  | .ok (d, n) =>
    match s.tree.entry d n with
    | some _ => (.error ⟨.alreadyExists, "File exists"⟩, s)
    | none => (.ok (s.nextFile j), (s.create d n mode).openFile j s.tree.fresh (Nat.lt_succ_self _))

def step (read : π → Except IoError (Route ν)) (j : ι) : (op : Call π) → op.Choice → Host ν ι → op.Reply × Host ν ι
  | .getrandom _, c, s => (c, s)
  | .lockPages _, c, s => (c, s)
  | .processId, c, s => (c, s)
  | .openCreate p mode, c, s => orFault c s (s.openOrCreate j (read p) mode)
  | .openRead p, c, s => orFault c s (s.openExisting j (read p))
  | .createNew p mode, c, s => orFault c s (s.createNew j (read p) mode)
  | .tryLock _, some e, s => (.error (.error e.1), s)
  | .tryLock f, none, s => s.tryLock j f
  | .fstat f, c, s => orFault c s (s.onFile j f fun i => (.ok ⟨i, s.mode i⟩, s))
  | .stat p, c, s => orFault c s (s.onPath j (read p) fun i => (⟨i, s.mode i⟩, s))
  | .chmod p mode, c, s =>
    orFault c s (s.onPath j (read p) fun i => ((), { s with mode := Function.update s.mode i mode }))
  | .read f limit, c, s => orFault c s (s.onFile j f fun i => s.readFile i limit)
  | .write f data, none, s => s.onFile j f fun i => (.ok (), s.writeFile i data)
  | .write f data, some (e, n), s => s.onFile j f fun i => (.error e.1, s.writeFile i (data.take n))
  | .sync f, c, s => orFault c s (s.onFile j f fun _ => (.ok (), s))
  | .close f, _, s => ((), s.closeFile j f)
  | .rename src dst, c, s => orFault c s (s.rename j (read src) (read dst))
  | .remove p, c, s => orFault c s (s.remove j (read p))
  | .openDir, c, s => orFault c s (.ok (), s)
  | .syncDir, c, s => orFault c s (.ok (), s)

variable {s : Host ν ι} {j : ι} {path path' : Except IoError (Route ν)}

theorem openOrCreate_ok {mode f : Nat} (h : (s.openOrCreate j path mode).1 = .ok f) :
    f = s.nextFile j ∧
      ((∃ i, ∃ hi : i < s.tree.fresh, s.find j path = .ok i ∧ s.tree.isDir i = false ∧
        (s.openOrCreate j path mode).2 = s.openFile j i hi) ∨
      ∃ r d n, path = .ok r ∧ s.resolve j r = .missing d n ∧
        (s.openOrCreate j path mode).2 =
          (s.create d n mode).openFile j s.tree.fresh (Nat.lt_succ_self _)) := by
  unfold openOrCreate at h ⊢
  cases path with
  | error e => cases h
  | ok r =>
    dsimp only at h ⊢
    split at h
    next i hfound =>
      split at h
      · cases h
      next hfile =>
        cases h
        refine ⟨rfl, .inl ⟨i, s.resolve_lt hfound, ?_, Bool.eq_false_iff.mpr hfile, ?_⟩⟩
        · simp only [find, bind, Except.bind, hfound]
        · rw [if_neg hfile]
    next d n hmissing =>
      cases h
      exact ⟨rfl, .inr ⟨r, d, n, rfl, hmissing, rfl⟩⟩
    · cases h
    · cases h

theorem createNew_ok {mode f : Nat} (h : (s.createNew j path mode).1 = .ok f) :
    f = s.nextFile j ∧ ∃ r d n, path = .ok r ∧ s.holder j r = some (d, n) ∧
      s.tree.entry d n = none ∧ (s.createNew j path mode).2 =
        (s.create d n mode).openFile j s.tree.fresh (Nat.lt_succ_self _) := by
  unfold createNew at h ⊢
  split at h
  · cases h
  next d n hslot =>
    split at h
    · cases h
    next hentry =>
      cases h
      obtain ⟨r, hr, hholder⟩ := slotOr_eq_ok hslot
      exact ⟨rfl, r, d, n, hr, hholder, hentry, rfl⟩

theorem openOrCreate_found {mode i : ℕ} (h : s.find j path = .ok i) (hfile : s.tree.isDir i = false) :
    (s.openOrCreate j path mode).1 = .ok (s.nextFile j) := by
  obtain ⟨r, rfl, hr⟩ := find_eq_ok h
  unfold openOrCreate
  dsimp only
  split
  next c hc =>
    cases hr.symm.trans hc
    rw [if_neg (Bool.eq_false_iff.mp hfile)]
  next hc => cases hr.symm.trans hc
  next hc => cases hr.symm.trans hc
  next hne _ _ => exact absurd hr (hne i)

variable (read : π → Except IoError (Route ν))

theorem step_alike {op : Call π} (h : OnData op) (j : ι) (c : op.Choice) (s : Host ν ι) :
    Alike s (step read j op c s).2 := by
  have hwrite (i : Nat) (data : Bytes) : Alike s (s.writeFile i data) := ⟨rfl, rfl, rfl, rfl, rfl⟩
  cases op with
  | getrandom n => exact .refl s
  | lockPages n => exact .refl s
  | processId => exact .refl s
  | fstat f => exact alike_orFault (alike_onFile fun i => .refl s)
  | stat p => exact alike_orFault (alike_onPath fun i => .refl s)
  | chmod p mode => exact alike_orFault (alike_onPath fun i => ⟨rfl, rfl, rfl, rfl, rfl⟩)
  | read f limit => exact alike_orFault (alike_onFile fun i => s.alike_readFile i limit)
  | write f data =>
    rcases c with - | ⟨e, n⟩
    · exact alike_onFile fun i => hwrite i data
    · exact alike_onFile fun i => hwrite i _
  | sync f => exact alike_orFault (alike_onFile fun i => .refl s)
  | openDir => exact alike_orFault (.refl s)
  | syncDir => exact alike_orFault (.refl s)
  | openCreate p mode => exact h.elim
  | openRead p => exact h.elim
  | createNew p mode => exact h.elim
  | tryLock f => exact h.elim
  | close f => exact h.elim
  | rename p p' => exact h.elim
  | remove p => exact h.elim

/-- A lock is kept through a call that does not close its file. -/
theorem step_locks {k i : ι} {op : Call π} {c : op.Choice}
    {s : Host ν ι} {f x : ℕ} (hclose : ¬(k = i ∧ op = .close f)) (h : s.locks x = some (i, f)) :
    (step read k op c s).2.locks x = some (i, f) := by
  -- calls on data leave the locks alone; of the others only two look at them
  by_cases hop : OnData op
  · rw [(step_alike read hop k c s).locks]
    exact h
  have hfault {α : Type} {c : Option Fault} {r : Except IoError α × Host ν ι}
      (hr : r.2.locks x = some (i, f)) : (orFault c s r).2.locks x = some (i, f) := by
    cases c with
    | some e => exact h
    | none => exact hr
  cases op with
  | openCreate p mode =>
    refine hfault (c := c) ?_
    unfold openOrCreate
    split
    · exact h
    · split
      · split <;> exact h
      · exact h
      · exact h
      · exact h
  | openRead p =>
    refine hfault (c := c) ?_
    unfold openExisting
    split <;> exact h
  | createNew p mode =>
    refine hfault (c := c) ?_
    unfold createNew
    split
    · exact h
    · split <;> exact h
  | tryLock g =>
    cases c with
    | some e => exact h
    | none =>
      change (s.tryLock k g).2.locks x = _
      unfold tryLock
      split
      · exact h
      next y hy =>
        split
        next hfree =>
          -- a lock that is taken is not the one held
          have hne : x ≠ y := by
            rintro rfl
            cases hfree.symm.trans h
          exact (Function.update_of_ne hne _ _).trans h
        · split <;> exact h
  | close g =>
    have hne : s.locks x ≠ some (k, g) := by
      rw [h]
      rintro ⟨⟩
      exact hclose ⟨rfl, rfl⟩
    exact (if_neg hne).trans h
  | rename p p' =>
    refine hfault (c := c) ?_
    unfold rename
    split
    · exact h
    · dsimp only
      split
      · exact h
      · split
        · exact h
        · split <;> exact h
  | remove p =>
    refine hfault (c := c) ?_
    unfold remove
    split
    · exact h
    · split
      · exact h
      · split <;> exact h
  | _ => exact absurd trivial hop

end Step

/-! ## A lock that is held -/

structure Holds (s : Host ν ι) (j : ι) (path : Except IoError (Route ν)) (f i : Nat) : Prop where
  lock : s.locks i = some (j, f)
  leads : s.find j path = .ok i

section Holds
variable {s : Host ν ι} {j : ι} {path : Except IoError (Route ν)} {f i : Nat}

theorem Alike.holds {s' : Host ν ι} (h : Alike s s')
    (hs : s.Holds j path f i) : s'.Holds j path f i :=
  ⟨h.locks ▸ hs.lock, (h.find j path).trans hs.leads⟩

theorem Holds.opened (h : s.Holds j path f i) : f < s.nextFile j ∧ i < s.tree.fresh :=
  s.files_lt j f i (s.locks_open i j f h.lock)

theorem Holds.openFile [DecidableEq ι] (h : s.Holds j path f i) (k : Nat) (hk : k < s.tree.fresh) :
    (s.openFile j k hk).Holds j path f i := ⟨h.lock, h.leads⟩

theorem Holds.closeFile [DecidableEq ι] (h : s.Holds j path f i) {g : Nat} (hg : g ≠ f) :
    (s.closeFile j g).Holds j path f i := by
  refine ⟨?_, h.leads⟩
  have hne : s.locks i ≠ some (j, g) := by
    rw [h.lock]
    rintro ⟨⟩
    exact hg rfl
  exact (if_neg hne).trans h.lock

theorem Holds.create [DecidableEq ν] (h : s.Holds j path f i) {d : Nat} {n : ν} (mode : Nat)
    (hfree : s.tree.next d (.name n) = .nothing n) : (s.create d n mode).Holds j path f i := by
  obtain ⟨r, rfl, hr⟩ := find_eq_ok h.leads
  exact ⟨h.lock, find_of_resolve (Tree.create_walk hfree hr)⟩

end Holds

end Host

def hostKernel {ν ι π : Type} [DecidableEq ν] [DecidableEq ι] (read : π → Except IoError (Route ν))
    (j : ι) : Machine (Call.Reply (ν := π)) (Host ν ι) where
  Choice := Call.Choice
  step := Host.step read j

/-! ## The rules of the calls -/

section Rules
variable {ν ι π ε α : Type} [DecidableEq ν] [DecidableEq ι] {read : π → Except IoError (Route ν)}
  {j : ι} {E : (hostKernel read j).Env} {Q : Outcome ε α → Host ν ι → Prop} {s : Host ν ι}

abbrev freely (_ : Call π) (_ _ : Host ν ι) : Prop := True

theorem wp_of_forall (p : Prog (Call.Reply (ν := π)) ε α) (h : ∀ r s, Q r s) (s : Host ν ι) :
    wp (hostKernel read j) E freely p Q s := by
  induction p generalizing s with
  | done r => exact h r s
  | call op next ih => exact fun c _ => ⟨trivial, ih _ _⟩

theorem wp_data (op : Call π) {k : op.Reply → Prog (Call.Reply (ν := π)) ε α}
    (hop : Host.OnData op)
    (hk : ∀ y s', Host.Alike s s' → wp (hostKernel read j) E freely (k y) Q s') :
    wp (hostKernel read j) E freely (Prog.perform op >>= k) Q s := by
  intro c _
  have halike : Host.Alike s (Host.step read j op c s).2 := Host.step_alike read hop j c s
  exact ⟨trivial, hk _ _ halike⟩

theorem wp_openRead {path : π} {k : (Call.openRead path).Reply → Prog (Call.Reply (ν := π)) ε α}
    (hfault : ∀ e : Fault, wp (hostKernel read j) E freely (k (Except.error e.1)) Q s)
    (herror : ∀ e, s.find j (read path) = .error e →
      wp (hostKernel read j) E freely (k (Except.error e)) Q s)
    (hok : ∀ i, ∀ hi : i < s.tree.fresh,
      wp (hostKernel read j) E freely (k (Except.ok (s.nextFile j))) Q (s.openFile j i hi)) :
    wp (hostKernel read j) E freely (Prog.perform (.openRead path) >>= k) Q s := by
  intro c _
  refine ⟨trivial, ?_⟩
  cases c with
  | some e => exact hfault e
  | none =>
    change wp _ _ _ (k (s.openExisting j (read path)).1) Q (s.openExisting j (read path)).2
    cases hreply : (s.openExisting j (read path)).1 with
    | error e =>
      obtain ⟨hfind, hsame⟩ := Host.openExisting_error hreply
      rw [hsame]
      exact herror e hfind
    | ok f =>
      obtain ⟨rfl, i, hi, hsame⟩ := Host.openExisting_ok hreply
      rw [hsame]
      exact hok i hi

theorem wp_openCreate {path : π} {mode : Nat}
    {k : (Call.openCreate path mode).Reply → Prog (Call.Reply (ν := π)) ε α}
    (hfault : ∀ e : Fault, E (.openCreate path mode) (some e) →
      wp (hostKernel read j) E freely (k (Except.error e.1)) Q s)
    (herror : ∀ e s', (s.openOrCreate j (read path) mode).1 = .error e →
      wp (hostKernel read j) E freely (k (Except.error e)) Q s')
    (hold : ∀ i, ∀ hi : i < s.tree.fresh, s.find j (read path) = .ok i → s.tree.isDir i = false →
      wp (hostKernel read j) E freely (k (Except.ok (s.nextFile j))) Q (s.openFile j i hi))
    (hnew : ∀ r d n, read path = .ok r → s.resolve j r = .missing d n →
      wp (hostKernel read j) E freely (k (Except.ok (s.nextFile j))) Q
        ((s.create d n mode).openFile j s.tree.fresh (Nat.lt_succ_self _))) :
    wp (hostKernel read j) E freely (Prog.perform (.openCreate path mode) >>= k) Q s := by
  intro c hc
  refine ⟨trivial, ?_⟩
  cases c with
  | some e => exact hfault e hc
  | none =>
    change wp _ _ _ (k (s.openOrCreate j (read path) mode).1) Q
      (s.openOrCreate j (read path) mode).2
    cases hreply : (s.openOrCreate j (read path) mode).1 with
    | error e => exact herror e _ hreply
    | ok f =>
      obtain ⟨rfl, ⟨i, hi, hfind, hfile, hsame⟩ | ⟨r, d, n, hr, hmissing, hsame⟩⟩ :=
        Host.openOrCreate_ok hreply
      · rw [hsame]
        exact hold i hi hfind hfile
      · rw [hsame]
        exact hnew r d n hr hmissing

theorem wp_createNew {path : π} {mode : Nat}
    {k : (Call.createNew path mode).Reply → Prog (Call.Reply (ν := π)) ε α}
    (herror : ∀ e s', wp (hostKernel read j) E freely (k (Except.error e)) Q s')
    (hok : ∀ r d n, read path = .ok r → s.holder j r = some (d, n) → s.tree.entry d n = none →
      wp (hostKernel read j) E freely (k (Except.ok (s.nextFile j))) Q
        ((s.create d n mode).openFile j s.tree.fresh (Nat.lt_succ_self _))) :
    wp (hostKernel read j) E freely (Prog.perform (.createNew path mode) >>= k) Q s := by
  intro c _
  refine ⟨trivial, ?_⟩
  cases c with
  | some e => exact herror e.1 s
  | none =>
    change wp _ _ _ (k (s.createNew j (read path) mode).1) Q (s.createNew j (read path) mode).2
    cases hreply : (s.createNew j (read path) mode).1 with
    | error e => exact herror e _
    | ok f =>
      obtain ⟨rfl, r, d, n, hr, hholder, hentry, hsame⟩ := Host.createNew_ok hreply
      rw [hsame]
      exact hok r d n hr hholder hentry

theorem wp_rename {src dst : π} {k : (Call.rename src dst).Reply → Prog (Call.Reply (ν := π)) ε α}
    (herror : ∀ e s', wp (hostKernel read j) E freely (k (Except.error e)) Q s')
    (hok : ∀ r r' d n c m i, ∀ hi : (∀ b, some i = some b → b < s.tree.fresh), read src = .ok r →
      read dst = .ok r' → s.holder j r = some (d, n) → s.holder j r' = some (c, m) →
        s.tree.entry d n = some i → wp (hostKernel read j) E freely (k (Except.ok ())) Q
          ((s.setEntry d n none fun _ hk => nomatch hk).setEntry c m (some i) hi)) :
    wp (hostKernel read j) E freely (Prog.perform (.rename src dst) >>= k) Q s := by
  intro c _
  refine ⟨trivial, ?_⟩
  cases c with
  | some e => exact herror e.1 s
  | none =>
    change wp _ _ _ (k (s.rename j (read src) (read dst)).1) Q (s.rename j (read src) (read dst)).2
    cases hreply : (s.rename j (read src) (read dst)).1 with
    | error e => exact herror e _
    | ok u =>
      obtain ⟨r, r', d, n, c, m, i, hi, hr, hr', hholder, hholder', hentry, hsame⟩ :=
        Host.rename_ok hreply
      rw [hsame]
      exact hok r r' d n c m i hi hr hr' hholder hholder' hentry

theorem wp_tryLock {f : Nat} {k : (Call.tryLock (ν := π) f).Reply → Prog (Call.Reply (ν := π)) ε α}
    (herror : ∀ e, wp (hostKernel read j) E freely (k (Except.error e)) Q s)
    (hok : ∀ i s', s.files j f = some i → s'.locks i = some (j, f) → s'.tree = s.tree →
      s'.cwd = s.cwd → s'.files = s.files → wp (hostKernel read j) E freely (k (Except.ok ())) Q s') :
    wp (hostKernel read j) E freely (Prog.perform (.tryLock f) >>= k) Q s := by
  intro c _
  refine ⟨trivial, ?_⟩
  cases c with
  | some e => exact herror (.error e.1)
  | none =>
    change wp _ _ _ (k (s.tryLock j f).1) Q (s.tryLock j f).2
    cases hreply : (s.tryLock j f).1 with
    | error e =>
      rw [Host.tryLock_error hreply]
      exact herror e
    | ok u =>
      obtain ⟨i, hi, hlock, htree, hcwd, hfiles⟩ := Host.tryLock_ok hreply
      exact hok i _ hi hlock htree hcwd hfiles

theorem wp_fstat {f : Nat} {k : (Call.fstat (ν := π) f).Reply → Prog (Call.Reply (ν := π)) ε α}
    (herror : ∀ e, wp (hostKernel read j) E freely (k (Except.error e)) Q s)
    (hok : ∀ m : Metadata, s.files j f = some m.inode →
      wp (hostKernel read j) E freely (k (Except.ok m)) Q s) :
    wp (hostKernel read j) E freely (Prog.perform (.fstat f) >>= k) Q s := by
  intro c _
  refine ⟨trivial, ?_⟩
  cases c with
  | some e => exact herror e.1
  | none =>
    cases hf : s.files j f with
    | none =>
      rw [show (hostKernel read j).step (.fstat f) none s = (.error Process.badFile, s) from
        Host.onFile_none hf]
      exact herror Process.badFile
    | some i =>
      rw [show (hostKernel read j).step (.fstat f) none s = (.ok ⟨i, s.mode i⟩, s) from
        Host.onFile_some hf]
      exact hok ⟨i, s.mode i⟩ hf

theorem wp_stat {path : π} {k : (Call.stat path).Reply → Prog (Call.Reply (ν := π)) ε α}
    (herror : ∀ e, wp (hostKernel read j) E freely (k (Except.error e)) Q s)
    (hok : ∀ m : Metadata, s.find j (read path) = .ok m.inode →
      wp (hostKernel read j) E freely (k (Except.ok m)) Q s) :
    wp (hostKernel read j) E freely (Prog.perform (.stat path) >>= k) Q s := by
  intro c _
  refine ⟨trivial, ?_⟩
  cases c with
  | some e => exact herror e.1
  | none =>
    cases hfind : s.find j (read path) with
    | error e =>
      rw [show (hostKernel read j).step (.stat path) none s = (.error e, s) from
        Host.onPath_error hfind]
      exact herror e
    | ok i =>
      rw [show (hostKernel read j).step (.stat path) none s = (.ok ⟨i, s.mode i⟩, s) from
        Host.onPath_ok hfind]
      exact hok ⟨i, s.mode i⟩ hfind

theorem wp_close {f : Nat} {k : (Call.close (ν := π) f).Reply → Prog (Call.Reply (ν := π)) ε α}
    (hk : wp (hostKernel read j) E freely (k ()) Q (s.closeFile j f)) :
    wp (hostKernel read j) E freely (Prog.perform (.close f) >>= k) Q s := fun _ _ => ⟨trivial, hk⟩

end Rules
end Krypto.Effect
