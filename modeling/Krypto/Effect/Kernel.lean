import Krypto.Effect.Disk
import Krypto.Effect.Logic

/-! The calls a process makes to the system, and what the system does. At each
call the environment chooses whether it goes through; locks on files exclude
each other, whichever process holds them. -/

namespace Krypto.Effect

@[ext] structure Fixed (n : Nat) where
  toList : Bytes
  length_eq : toList.length = n
  deriving DecidableEq

attribute [simp] Fixed.length_eq

def Fixed.zero (n : Nat) : Fixed n := ⟨List.replicate n 0, List.length_replicate⟩

def Fixed.fill (n : Nat) (b : UInt8) : Fixed n := ⟨List.replicate n b, List.length_replicate⟩

/-- `data.try_into()` -/
def Fixed.tryFrom (n : Nat) (data : Bytes) : Option (Fixed n) :=
  if h : data.length = n then some ⟨data, h⟩ else none

inductive ErrorKind where
  | notFound
  | permissionDenied
  | readOnlyFilesystem
  | alreadyExists
  | wouldBlock
  | other
  deriving DecidableEq, Repr

structure IoError where
  kind : ErrorKind
  message : String
  deriving DecidableEq, Repr

/-- A failure the environment may bring about. That a file does not exist is
never a failure of this kind: only the directory says so. -/
abbrev Fault := { e : IoError // e.kind ≠ .notFound }

inductive TryLockError where
  | wouldBlock
  | error (e : IoError)

structure Metadata where
  inode : Nat
  mode : Nat

/-- System calls, over file names of type `ν`. Open files are numbered. -/
inductive Call (ν : Type) where
  | getrandom (n : Nat)
  | lockPages (len : Nat)
  | processId
  | openCreate (n : ν) (mode : Nat)
  | openRead (n : ν)
  | createNew (n : ν) (mode : Nat)
  | tryLock (f : Nat)
  | fstat (f : Nat)
  | stat (n : ν)
  | chmod (n : ν) (mode : Nat)
  | read (f : Nat) (limit : Nat)
  | write (f : Nat) (data : Bytes)
  | sync (f : Nat)
  | close (f : Nat)
  | rename (src dst : ν)
  | remove (n : ν)
  | openDir
  | syncDir

namespace Call
variable {ν : Type}

def Reply : Call ν → Type
  | getrandom n => Except String (Fixed n)
  | lockPages _ => Except String Unit
  | processId => Nat
  | openCreate _ _ | openRead _ | createNew _ _ => Except IoError Nat
  | tryLock _ => Except TryLockError Unit
  | fstat _ | stat _ => Except IoError Metadata
  | read _ _ => Except IoError Bytes
  | close _ => Unit
  | chmod _ _ | write _ _ | sync _ | rename _ _ | remove _ | openDir | syncDir =>
    Except IoError Unit

/-- What the environment chooses at a call: what it draws, or whether it fails.
A failing write may have written any part of the data. -/
def Choice : Call ν → Type
  | getrandom n => Except String (Fixed n)
  | lockPages _ => Except String Unit
  | processId => Nat
  | write _ _ => Option (Fault × Nat)
  | close _ => Unit
  | _ => Option Fault

/-- A call whose reply is all it does. -/
def Private : Call ν → Prop
  | getrandom _ | lockPages _ | processId => True
  | _ => False

end Call

/-- The system as one process sees it. `ι` names the processes. -/
structure Process (ν : Type) [DecidableEq ν] (ι : Type) where
  disk : Disk ν
  /-- The open file that holds the lock on an inode, and whose it is. -/
  locks : Nat → Option (ι × Nat)
  /-- The open files of this process. -/
  files : Nat → Option Nat
  nextFile : Nat

namespace Process
variable {ν ι : Type} [DecidableEq ν] [DecidableEq ι]

def start : Process ν ι where
  disk := .empty
  locks _ := none
  files _ := none
  nextFile := 0

def openFile (s : Process ν ι) (inode : Nat) : Process ν ι :=
  { s with files := Function.update s.files s.nextFile (some inode), nextFile := s.nextFile + 1 }

omit [DecidableEq ι] in
@[simp] theorem openFile_disk (s : Process ν ι) (inode : Nat) : (s.openFile inode).disk = s.disk := rfl

omit [DecidableEq ι] in
@[simp] theorem openFile_files (s : Process ν ι) (inode : Nat) :
    (s.openFile inode).files s.nextFile = some inode := Function.update_self _ _ _

def notFound : IoError := ⟨.notFound, "No such file or directory"⟩

def badFile : IoError := ⟨.other, "Bad file descriptor"⟩

def step (me : ι) : (op : Call ν) → op.Choice → Process ν ι → op.Reply × Process ν ι
  | .getrandom _, c, s => (c, s)
  | .lockPages _, c, s => (c, s)
  | .processId, c, s => (c, s)
  | .openCreate _ _, some e, s => (.error e.1, s)
  | .openCreate n mode, none, s =>
    match s.disk.dir n with
    | some i => (.ok s.nextFile, s.openFile i)
    | none => (.ok s.nextFile, { s with disk := s.disk.create n mode }.openFile s.disk.fresh)
  | .openRead _, some e, s => (.error e.1, s)
  | .openRead n, none, s =>
    match s.disk.dir n with
    | some i => (.ok s.nextFile, s.openFile i)
    | none => (.error notFound, s)
  | .createNew _ _, some e, s => (.error e.1, s)
  | .createNew n mode, none, s =>
    match s.disk.dir n with
    | some _ => (.error ⟨.alreadyExists, "File exists"⟩, s)
    | none => (.ok s.nextFile, { s with disk := s.disk.create n mode }.openFile s.disk.fresh)
  | .tryLock _, some e, s => (.error (.error e.1), s)
  | .tryLock f, none, s =>
    match s.files f with
    | none => (.error (.error badFile), s)
    | some i =>
      match s.locks i with
      | none => (.ok (), { s with locks := Function.update s.locks i (some (me, f)) })
      | some h => if h = (me, f) then (.ok (), s) else (.error .wouldBlock, s)
  | .fstat _, some e, s => (.error e.1, s)
  | .fstat f, none, s =>
    match s.files f with
    | none => (.error badFile, s)
    | some i => (.ok ⟨i, s.disk.mode i⟩, s)
  | .stat _, some e, s => (.error e.1, s)
  | .stat n, none, s =>
    match s.disk.dir n with
    | none => (.error notFound, s)
    | some i => (.ok ⟨i, s.disk.mode i⟩, s)
  | .chmod _ _, some e, s => (.error e.1, s)
  | .chmod n mode, none, s =>
    match s.disk.dir n with
    | none => (.error notFound, s)
    | some i => (.ok (), { s with disk := s.disk.chmod i mode })
  | .read _ _, some e, s => (.error e.1, s)
  | .read f limit, none, s =>
    match s.files f with
    | none => (.error badFile, s)
    | some i => (.ok ((s.disk.content i).take limit), s)
  | .write f data, c, s =>
    match s.files f, c with
    | none, _ => (.error badFile, s)
    | some i, none => (.ok (), { s with disk := s.disk.write i data })
    | some i, some (e, n) => (.error e.1, { s with disk := s.disk.write i (data.take n) })
  | .sync _, some e, s => (.error e.1, s)
  | .sync f, none, s =>
    match s.files f with
    | none => (.error badFile, s)
    | some i => (.ok (), { s with disk := s.disk.sync i })
  | .close f, _, s =>
    ((), { s with
      files := Function.update s.files f none
      locks := fun i => if s.locks i = some (me, f) then none else s.locks i })
  | .rename _ _, some e, s => (.error e.1, s)
  | .rename src dst, none, s =>
    match h : s.disk.dir src with
    | none => (.error notFound, s)
    | some i => (.ok (), { s with disk := s.disk.rename src dst i h })
  | .remove _, some e, s => (.error e.1, s)
  | .remove n, none, s =>
    match s.disk.dir n with
    | none => (.error notFound, s)
    | some _ => (.ok (), { s with disk := s.disk.remove n })
  | .openDir, some e, s => (.error e.1, s)
  | .openDir, none, s => (.ok (), s)
  | .syncDir, some e, s => (.error e.1, s)
  | .syncDir, none, s => (.ok (), { s with disk := s.disk.syncDir })

/-! ### What a call does -/

def created (s : Process ν ι) (n : ν) (mode : Nat) : Process ν ι :=
  { s with disk := s.disk.create n mode }.openFile s.disk.fresh

inductive Moves (me : ι) (s : Process ν ι) : Call ν → Process ν ι → Prop where
  | same {op : Call ν} : Moves me s op s
  | opened {n : ν} {mode i : Nat} (h : s.disk.dir n = some i) :
    Moves me s (.openCreate n mode) (s.openFile i)
  | openedNew {n : ν} {mode : Nat} (h : s.disk.dir n = none) :
    Moves me s (.openCreate n mode) (s.created n mode)
  | openedRead {n : ν} {i : Nat} (h : s.disk.dir n = some i) :
    Moves me s (.openRead n) (s.openFile i)
  | created {n : ν} {mode : Nat} (h : s.disk.dir n = none) :
    Moves me s (.createNew n mode) (s.created n mode)
  | locked {f i : Nat} (h : s.files f = some i) (hfree : s.locks i = none) :
    Moves me s (.tryLock f) { s with locks := Function.update s.locks i (some (me, f)) }
  | chmoded {n : ν} {mode i : Nat} :
    Moves me s (.chmod n mode) { s with disk := s.disk.chmod i mode }
  | written {f i : Nat} {data d : Bytes} (h : s.files f = some i) :
    Moves me s (.write f data) { s with disk := s.disk.write i d }
  | synced {f i : Nat} (h : s.files f = some i) :
    Moves me s (.sync f) { s with disk := s.disk.sync i }
  | closed {f : Nat} : Moves me s (.close f) { s with
      files := Function.update s.files f none
      locks := fun i => if s.locks i = some (me, f) then none else s.locks i }
  | renamed {src dst : ν} {i : Nat} (h : s.disk.dir src = some i) :
    Moves me s (.rename src dst) { s with disk := s.disk.rename src dst i h }
  | removed {n : ν} : Moves me s (.remove n) { s with disk := s.disk.remove n }
  | syncedDir : Moves me s .syncDir { s with disk := s.disk.syncDir }

theorem step_moves (me : ι) (op : Call ν) (c : op.Choice) (s : Process ν ι) :
    Moves me s op (step me op c s).2 := by
  cases op with
  | getrandom n => exact .same
  | lockPages n => exact .same
  | processId => exact .same
  | close f => exact .closed
  | openCreate n mode =>
    cases c with
    | some e => exact .same
    | none =>
      simp only [step]
      cases hdir : s.disk.dir n with
      | some i => exact .opened hdir
      | none => exact .openedNew hdir
  | openRead n =>
    cases c with
    | some e => exact .same
    | none =>
      simp only [step]
      cases hdir : s.disk.dir n with
      | some i => exact .openedRead hdir
      | none => exact .same
  | createNew n mode =>
    cases c with
    | some e => exact .same
    | none =>
      simp only [step]
      cases hdir : s.disk.dir n with
      | some i => exact .same
      | none => exact .created hdir
  | tryLock f =>
    cases c with
    | some e => exact .same
    | none =>
      simp only [step]
      cases hf : s.files f with
      | none => exact .same
      | some i =>
        dsimp only
        cases hl : s.locks i with
        | none => exact .locked hf hl
        | some k =>
          dsimp only
          split_ifs <;> exact .same
  | fstat f =>
    cases c with
    | some e => exact .same
    | none =>
      simp only [step]
      cases s.files f <;> exact .same
  | stat n =>
    cases c with
    | some e => exact .same
    | none =>
      simp only [step]
      cases s.disk.dir n <;> exact .same
  | chmod n mode =>
    cases c with
    | some e => exact .same
    | none =>
      simp only [step]
      cases s.disk.dir n with
      | none => exact .same
      | some i => exact .chmoded
  | read f limit =>
    cases c with
    | some e => exact .same
    | none =>
      simp only [step]
      cases s.files f <;> exact .same
  | write f data =>
    cases hf : s.files f with
    | none =>
      simp only [step, hf]
      exact .same
    | some i =>
      rcases c with - | ⟨e, n⟩
      · simp only [step, hf]
        exact .written hf
      · simp only [step, hf]
        exact .written hf
  | sync f =>
    cases c with
    | some e => exact .same
    | none =>
      simp only [step]
      cases hf : s.files f with
      | none => exact .same
      | some i => exact .synced hf
  | rename src dst =>
    cases c with
    | some e => exact .same
    | none =>
      simp only [step]
      split
      · exact .same
      · rename_i i h
        exact .renamed h
  | remove n =>
    cases c with
    | some e => exact .same
    | none =>
      simp only [step]
      cases s.disk.dir n with
      | none => exact .same
      | some i => exact .removed
  | openDir => cases c <;> exact .same
  | syncDir =>
    cases c with
    | some e => exact .same
    | none => exact .syncedDir

theorem step_rename (me : ι) {src : ν} {i : Nat} {s : Process ν ι} (h : s.disk.dir src = some i)
    (dst : ν) : step me (.rename src dst) none s =
      (.ok (), { s with disk := s.disk.rename src dst i h }) := by
  simp only [step]
  split
  · rename_i hnone
    rw [h] at hnone
    cases hnone
  · rename_i j hj
    obtain rfl : i = j := Option.some.inj (h.symm.trans hj)
    rfl

theorem step_createNew (me : ι) {n : ν} {s : Process ν ι} (h : s.disk.dir n = none) (mode : Nat) :
    step me (.createNew n mode) none s = (.ok s.nextFile, s.created n mode) := by
  simp only [step, h, created]

theorem step_createNew_taken (me : ι) {n : ν} {i : Nat} {s : Process ν ι}
    (h : s.disk.dir n = some i) (mode : Nat) :
    step me (.createNew n mode) none s = (.error ⟨.alreadyExists, "File exists"⟩, s) := by
  simp only [step, h]

section Created
variable (s : Process ν ι) (n : ν) (mode : Nat)

omit [DecidableEq ι] in
theorem created_files : (s.created n mode).files s.nextFile = some s.disk.fresh :=
  Function.update_self _ _ _

omit [DecidableEq ι] in
theorem created_dir : (s.created n mode).disk.dir n = some s.disk.fresh := by
  simp [created, openFile, Disk.create, Update.apply]

omit [DecidableEq ι] in
theorem created_dir_of_ne {m : ν} (h : m ≠ n) : (s.created n mode).disk.dir m = s.disk.dir m := by
  simp [created, openFile, Disk.create, Update.apply, Function.update_of_ne h]

omit [DecidableEq ι] in
theorem created_dir_ne_fresh {m : ν} (h : m ≠ n) :
    (s.created n mode).disk.dir m ≠ some s.disk.fresh := by
  rw [created_dir_of_ne s n mode h]
  exact fun h => Nat.lt_irrefl _ (s.disk.dir_lt h)

end Created

end Process

def kernel (ν : Type) [DecidableEq ν] {ι : Type} [DecidableEq ι] (me : ι) :
    Machine (Call.Reply (ν := ν)) (Process ν ι) where
  Choice := Call.Choice
  step := Process.step me

section Environments
variable {ν ι : Type} [DecidableEq ν] [DecidableEq ι] {me : ι}

/-- Every call succeeds but those that are `bad`; random bytes are zeros. -/
def failing (bad : Call ν → Bool) (op : Call ν) : op.Choice :=
  match op with
  | .getrandom n => Except.ok (.zero n)
  | .lockPages _ => Except.ok ()
  | .processId => (0 : Nat)
  | .close _ => ()
  | .write f data => if bad (.write f data) then some (⟨⟨.other, "I/O error"⟩, by decide⟩, 0) else none
  | .openCreate n m => fault (.openCreate n m)
  | .openRead n => fault (.openRead n)
  | .createNew n m => fault (.createNew n m)
  | .tryLock f => fault (.tryLock f)
  | .fstat f => fault (.fstat f)
  | .stat n => fault (.stat n)
  | .chmod n m => fault (.chmod n m)
  | .read f n => fault (.read f n)
  | .sync f => fault (.sync f)
  | .rename a b => fault (.rename a b)
  | .remove n => fault (.remove n)
  | .openDir => fault .openDir
  | .syncDir => fault .syncDir
where
  fault (op : Call ν) : Option Fault := if bad op then some ⟨⟨.other, "I/O error"⟩, by decide⟩ else none

/-- Every call succeeds, and random bytes are all `x`. -/
def drawing (x : UInt8) (op : Call ν) : op.Choice :=
  match op with
  | .getrandom n => Except.ok (.fill n x)
  | op => failing (fun _ => false) op

def anything : (kernel ν me).Env := fun _ _ => True

def locksPages : (kernel ν me).Env
  | .lockPages _, c => c = .ok ()
  | _, _ => True

theorem kernel_private {op : Call ν} (h : op.Private) (c : op.Choice) (s : Process ν ι) :
    ((kernel ν me).step op c s).2 = s := by
  cases op <;> first | rfl | exact h.elim

theorem locksPages_total (op : Call ν) : ∃ c, (locksPages : (kernel ν me).Env) op c := by
  cases op with
  | lockPages n => exact ⟨Except.ok (), rfl⟩
  | getrandom n => exact ⟨Except.error "", trivial⟩
  | processId => exact ⟨(0 : Nat), trivial⟩
  | write f data => exact ⟨(none : Option (Fault × Nat)), trivial⟩
  | close f => exact ⟨(), trivial⟩
  | _ => exact ⟨(none : Option Fault), trivial⟩

end Environments

end Krypto.Effect
