import Krypto.Effect.Parties
import Krypto.Store.Session

/-! Any number of parties, threads or processes, on one store: each opens it,
works on the handles it got and drops them, system call by system call between
those of the others, and someone outside may delete or replace the lock file. -/

namespace Krypto.Store
open Effect

/-- What a party does. Its handles are a list, and it names one by its place. -/
inductive Operation where
  | openWith (master : MasterKey)
  | put (k : Nat) (name : Str) (secret : SecretBuf)
  | delete (k : Nat) (name : Str)
  | rotate (k : Nat) (newMaster : MasterKey)
  | drop (k : Nat)
  deriving DecidableEq

def operate (P : Primitives) (path : Bytes) :
    Server (Call.Reply (ν := Bytes)) Error Operation Answer (List SecretStore)
  | .openWith master, h => do
    match ← (SecretStore.openStore path master).attempt with
    | .ok st => pure (.done (.ok ()), st :: h)
    | .error e => pure (.done (.error e), h)
  | .put k name secret, h =>
    match h[k]? with
    | none => pure (.noHandle, h)
    | some st => do
      let (r, st) ← st.put P name secret
      pure (.done r, h.set k st)
  | .delete k name, h =>
    match h[k]? with
    | none => pure (.noHandle, h)
    | some st => do
      let (r, st) ← st.delete name
      pure (.done r, h.set k st)
  | .rotate k newMaster, h =>
    match h[k]? with
    | none => pure (.noHandle, h)
    | some st => do
      match ← (st.rotate P newMaster).attempt with
      | .ok st => pure (.done (.ok ()), h.set k st)
      | .error e => pure (.done (.error e), h.eraseIdx k)
  | .drop k, h =>
    match h[k]? with
    | none => pure (.noHandle, h)
    | some st => do
      dropLock st.lock
      pure (.done (.ok ()), h.eraseIdx k)

/-- An operation that was answered, with the handles the party had before it. -/
structure Done (ι : Type) where
  party : ι
  operation : Operation
  handles : List SecretStore
  answer : Answer

structure Shared (ι : Type) where
  disk : Disk Bytes
  locks : Nat → Option (ι × Nat)
  /-- Whose open file passed the same-inode check, with its inode, until it is closed. -/
  passed : ι → Nat → Nat → Prop
  /-- The operations that were answered, oldest first. -/
  history : List (Done ι)

structure Own where
  files : Nat → Option Nat
  nextFile : Nat

section Sharing
variable {ι : Type}

def view (s : Shared ι × Own) : Process Bytes ι where
  disk := s.1.disk
  locks := s.1.locks
  files := s.2.files
  nextFile := s.2.nextFile

/-- The check passes when the lock path is the locked file, and what passed ends with its file. -/
def passedAfter (path : Bytes) (i : ι) (s : Shared ι × Own) :
    (op : Call Bytes) → op.Reply → ι → Nat → Nat → Prop
  | .stat n, .ok m => fun j f inode => s.1.passed j f inode ∨ n = lockPath path ∧ j = i ∧
      inode = m.inode ∧ s.2.files f = some inode ∧ s.1.locks inode = some (i, f)
  | .close f, _ => fun j g inode => s.1.passed j g inode ∧ ¬(j = i ∧ g = f)
  | _, _ => s.1.passed

variable [DecidableEq ι]

def party (path : Bytes) (i : ι) : Machine (Call.Reply (ν := Bytes)) (Shared ι × Own) where
  Choice := Call.Choice
  step op c s :=
    let r := Process.step i op c (view s)
    (r.1,
      { s.1 with
        disk := r.2.disk
        locks := r.2.locks
        passed := passedAfter path i s op r.1 },
      { files := r.2.files, nextFile := r.2.nextFile })

/-- No call fails by the environment's choice; a lock may still be held, and a name taken. -/
def calm : (op : Call Bytes) → op.Choice → Prop
  | .getrandom _, _ | .lockPages _, _ | .processId, _ | .close _, _ => True
  | .write _ _, c => c = none
  | .openCreate _ _, c | .openRead _, c | .createNew _ _, c | .tryLock _, c | .fstat _, c
  | .stat _, c | .chmod _ _, c | .read _ _, c | .sync _, c | .rename _ _, c | .remove _, c
  | .openDir, c | .syncDir, c => c = none

theorem calm_total (op : Call Bytes) : ∃ c, calm op c := by
  cases op with
  | getrandom n => exact ⟨Except.error "", trivial⟩
  | lockPages n => exact ⟨Except.ok (), trivial⟩
  | processId => exact ⟨(0 : Nat), trivial⟩
  | write f data => exact ⟨(none : Option (Fault × Nat)), rfl⟩
  | close f => exact ⟨(), trivial⟩
  | _ => exact ⟨(none : Option Fault), rfl⟩

/-- Someone outside deletes or replaces the lock file, while no handle that passed its check is
alive. -/
inductive Outside (path : Bytes) (g : Shared ι) : Shared ι → Prop where
  | deletes (hidle : ∀ i f inode, ¬g.passed i f inode) :
      Outside path g { g with disk := g.disk.remove (lockPath path) }
  | creates (mode : Nat) (hidle : ∀ i f inode, ¬g.passed i f inode) :
      Outside path g { g with disk := g.disk.create (lockPath path) mode }
  | links (inode : Nat) (hinode : inode < g.disk.fresh) (hidle : ∀ i f inode, ¬g.passed i f inode) :
      Outside path g { g with disk := g.disk.update (.link (lockPath path) inode) hinode }

def parties (P : Primitives) (path : Bytes) :
    Parties ι (Call.Reply (ν := Bytes)) Error Operation Answer (List SecretStore) (Shared ι) Own where
  machine := party path
  env _ := calm
  serve := operate P path
  record i q h a g := { g with history := g.history ++ [⟨i, q, h, a⟩] }
  outside := Outside path

abbrev StoreWorld (ι : Type) :=
  World ι (Call.Reply (ν := Bytes)) Error Operation Answer (List SecretStore) (Shared ι) Own

/-- At the start no one has a handle, and nothing is locked. -/
structure Starts (w : StoreWorld ι) : Prop where
  status : ∀ i, w.status i = .idle []
  locks : ∀ inode, w.shared.locks inode = none
  passed : ∀ i f inode, ¬w.shared.passed i f inode
  history : w.shared.history = []
  answered : ∀ i, w.answered i = []

/-- The handles that are alive: a party's own, and during an operation those it began with, until
its last call is made. -/
def handles : Status (Call.Reply (ν := Bytes)) Error Operation Answer (List SecretStore) →
    List SecretStore
  | .idle h => h
  | .running _ h (.call _ _) => h
  | .running _ _ (.done (.ok (_, h))) => h
  | .running _ _ (.done _) => []

end Sharing

/-! ## What the operations make of the store -/

/-- A `put`, `delete` or `rotate` that succeeded. -/
def Done.effective {ι : Type} (e : Done ι) : Bool :=
  match e.operation, e.answer with
  | .put _ _ _, .done (.ok _) | .delete _ _, .done (.ok _) | .rotate _ _, .done (.ok _) => true
  | _, _ => false

def effects {ι : Type} (history : List (Done ι)) : List (Done ι) := history.filter Done.effective

/-- What an operation makes of contents `c`, which its handle had, be it in another order. -/
inductive Yields {ι : Type} (P : Primitives) (c : Contents) : Done ι → Contents → Prop where
  | put {i k name secret h a st c'} (hst : h[k]? = some st) (hsame : st.toContents.Same c)
      (hc : PutAttempt P st name secret c') : Yields P c ⟨i, .put k name secret, h, a⟩ c'
  | delete {i k name h a st} (hst : h[k]? = some st) (hsame : st.toContents.Same c) :
      Yields P c ⟨i, .delete k name, h, a⟩ (erased st.toContents name)
  | rotate {i k newMaster h a st c'} (hst : h[k]? = some st) (hsame : st.toContents.Same c)
      (hc : RotateAttempt P st newMaster c') : Yields P c ⟨i, .rotate k newMaster, h, a⟩ c'

inductive Chain {ι : Type} (P : Primitives) (c₀ : Contents) : List (Done ι) → Contents → Prop where
  | nil : Chain P c₀ [] c₀
  | snoc {l e c c'} (hl : Chain P c₀ l c) (he : Yields P c e c') : Chain P c₀ (l ++ [e]) c'

/-- What a store begins with: what its file holds, or nothing if there is none. -/
def Begins (start : Option Bytes) (c₀ : Contents) : Prop :=
  match start with
  | some d => load d = .ok c₀
  | none => c₀.entries = ∅

/-- `v` is stored after the operations `l`, in that order. -/
inductive Explains {ι : Type} (P : Primitives) (start : Option Bytes) :
    List (Done ι) → Option Bytes → Prop where
  | untouched : Explains P start [] start
  | file {l d c₀ c c'} (hbegins : Begins start c₀) (hchain : Chain P c₀ l c)
      (hload : load d = .ok c') (hsame : c'.Same c) : Explains P start l (some d)

end Krypto.Store
