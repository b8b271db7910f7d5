import Krypto.Effect.Host
import Krypto.Store
import Mathlib.Data.List.DropRight

/-! A store opened by a path: the lock beside the last component, and the file
that the path leads to. -/

namespace Krypto
open Effect

namespace Store

def SLASH : UInt8 := 0x2f

def DOT : Bytes := [0x2e]

def DOTS : Bytes := [0x2e, 0x2e]

def pieces (path : Bytes) : List Bytes := path.splitOn SLASH

/-- What `Path::components` leaves out, but for a leading `.` -/
def skipped (piece : Bytes) : Bool := piece = [] ∨ piece = DOT

def pathFileName (path : Bytes) : Option Bytes :=
  match ((pieces path).rdropWhile skipped).getLast? with
  | some name => if name = DOTS then none else some name
  | none => none

/-- `Path::parent`, as the path before the last component. -/
def pathParent (path : Bytes) : Option Bytes :=
  let body := (pieces path).rdropWhile skipped
  if body = [] then
    -- `.` is a component of its own, `/` and the empty path have no parent
    if (pieces path).head? = some DOT then some [] else none
  else
    let before := body.dropLast.rdropWhile skipped
    if before ≠ [] then some ([SLASH].intercalate before)
    else if path.head? = some SLASH then some [SLASH]
    else if body.dropLast.head? = some DOT then some DOT
    else some []

def dirAndName (path : Bytes) : Bytes × Str :=
  let dir := ((pathParent path).filter (· ≠ [])).getD DOT
  (dir, ((pathFileName path).bind Str.fromUtf8).getD "store".toList)

def joinPath (dir name : Bytes) : Bytes :=
  if dir = [] ∨ dir.getLast? = some SLASH then dir ++ name else dir ++ SLASH :: name

def lockName (name : Str) : Bytes := Str.asBytes (['.'] ++ name ++ ".lock".toList)

def lockPathIn (path : Bytes) : Bytes :=
  let (dir, name) := dirAndName path
  joinPath dir (lockName name)

def tmpPathIn (path : Bytes) (pid : Nat) (nonce : Fixed 8) : Bytes :=
  let (dir, name) := dirAndName path
  joinPath dir (Str.asBytes (".tmp-".toList ++ (toString pid).toList ++ ['-'] ++
    Hex.encode nonce.toList ++ ['-'] ++ name))

def takeLockIn (path : Bytes) : Action Bytes (Option Nat) := lockTries (lockPathIn path) 3

def atomicWriteIn (path data : Bytes) : Action Bytes Unit := do
  let nonce ← fill 8 "getrandom: "
  let pid ← ask .processId
  let tmp := tmpPathIn path pid nonce
  let f ← orIo (← ask (.createNew tmp 0o600))
  (writeThenRename f tmp path data).onErr (removeFile tmp)

def hopOf (piece : Bytes) : Hop Bytes :=
  if piece = [] then .slash else if piece = DOT then .here else if piece = DOTS then .up else .name piece

def readPath (path : Bytes) : Except IoError (Route Bytes) :=
  if path = [] then
    .error Process.notFound
  else if (0 : UInt8) ∈ path then
    .error ⟨.other, "file name contained an unexpected NUL byte"⟩
  else
    let absolute := path.head? = some SLASH
    .ok { absolute, hops := (if absolute then (pieces path).tail else pieces path).map hopOf }

end Store

open Store

namespace SecretStore

def persistIn (self : SecretStore) : Action Bytes Unit := do
  let buf ← lift (checkedImage self.toContents)
  atomicWriteIn self.path buf

def openLockedIn (path : Bytes) (master : MasterKey) (lock : Option Nat) :
    Action Bytes SecretStore := do
  match ← readCapped path MAX_STORE_BYTES with
  | some data =>
    makePrivate path
    let c ← lift (load data)
    pure { c with path, master, lock }
  | none =>
    let salt ← fill 16 "getrandom: "
    let keyId ← fill 16 "getrandom: "
    let store : SecretStore := { salt, keyId, entries := ∅, path, master, lock }
    store.persistIn
    pure store

def openStoreIn (path : Bytes) (master : MasterKey) : Action Bytes SecretStore := do
  let lock ← takeLockIn path
  (openLockedIn path master lock).onErr (dropLock lock)

end SecretStore

namespace Store

example : (["a/b", "a//b/", "./b", "/b", "b/.", "a/..", "/", "a/./b"].map fun path =>
    dirAndName (Str.asBytes path.toList)) =
      [("a", "b"), ("a", "b"), (".", "b"), ("/", "b"), (".", "b"), ("a", "store"), (".", "store"),
        ("a", "b")].map fun (dir, name) => (Str.asBytes dir.toList, name.toList) := by
  decide +kernel

end Store
end Krypto
