import Krypto.Hex
import Krypto.Store.Format

/-! `store.rs`: the calls a store makes to the file system: the lock beside the
file, reading it with a cap, and replacing it atomically. -/

namespace Krypto
open Effect

namespace Store

/-- `dir_and_name`: the name that the files beside the store are called by. -/
def fileName (path : Bytes) : Str := (Str.fromUtf8 path).getD "store".toList

def lockPath (path : Bytes) : Bytes := Str.asBytes (['.'] ++ fileName path ++ ".lock".toList)

def tmpPath (path : Bytes) (pid : Nat) (nonce : Fixed 8) : Bytes :=
  Str.asBytes (".tmp-".toList ++ (toString pid).toList ++ ['-'] ++ Hex.encode nonce.toList ++ ['-'] ++
    fileName path)

def openLockFile (lockPath : Bytes) : Action Bytes (Option Nat) := do
  match ← ask (.openCreate lockPath 0o600) with
  | .ok f => pure (some f)
  | .error e =>
    if e.kind = .readOnlyFilesystem then
      pure none
    else if e.kind = .permissionDenied then
      match ← ask (.openRead lockPath) with
      | .ok f => pure (some f)
      | .error e => if e.kind = .notFound then pure none else Prog.throw (.io e)
    else
      Prog.throw (.io e)

def isSameFile (f : Nat) (path : Bytes) : Action Bytes Bool := do
  let held ← orIo (← ask (.fstat f))
  match ← ask (.stat path) with
  | .ok now => pure (decide (held.inode = now.inode))
  | .error e => if e.kind = .notFound then pure false else Prog.throw (.io e)

def lockTries (lockPath : Bytes) : Nat → Action Bytes (Option Nat)
  | 0 => Prog.throw (.io ⟨.other, "the store's lock file keeps being replaced"⟩)
  | n + 1 => do
    match ← openLockFile lockPath with
    | none => pure none
    | some f =>
      match ← ask (.tryLock f) with
      | .error .wouldBlock =>
        dropFile f
        Prog.throw (.io ⟨.wouldBlock, "the store file is already open, in this or another process"⟩)
      | .error (.error e) =>
        dropFile f
        Prog.throw (.io e)
      | .ok () =>
        if ← (isSameFile f lockPath).onErr (dropFile f) then
          pure (some f)
        else
          dropFile f
          lockTries lockPath n

def takeLock (path : Bytes) : Action Bytes (Option Nat) := lockTries (lockPath path) 3

def dropLock : Option Nat → Action Bytes Unit
  | none => pure ()
  | some f => dropFile f

def readCapped (path : Bytes) (cap : Nat) : Action Bytes (Option Bytes) := do
  match ← ask (.openRead path) with
  | .error e => if e.kind = .notFound then pure none else Prog.throw (.io e)
  | .ok f =>
    let bytes ← Prog.always (do orIo (← ask (.read f (cap + 1)))) (dropFile f)
    if cap < bytes.length then
      Prog.throw (.format s!"store file is too big (> {cap} bytes)")
    else
      pure (some bytes)

def makePrivate (path : Bytes) : Action Bytes Unit := do
  let metadata ← orIo (← ask (.stat path))
  if metadata.mode &&& 0o777 = 0o600 then
    pure ()
  else
    match ← ask (.chmod path 0o600) with
    | .ok () => pure ()
    | .error e => if e.kind = .permissionDenied then pure () else Prog.throw (.io e)

def writeSynced (f : Nat) (data : Bytes) : Action Bytes Unit := do
  orIo (← ask (.write f data))
  orIo (← ask (.sync f))

def renameSynced (tmp path : Bytes) : Action Bytes Unit := do
  orIo (← ask (.rename tmp path))
  orIo (← ask .openDir)
  orIo (← ask .syncDir)

def writeThenRename (f : Nat) (tmp path data : Bytes) : Action Bytes Unit := do
  -- `f` is dropped before the rename, and when a step before it fails.
  (writeSynced f data).always (dropFile f)
  renameSynced tmp path

def removeFile (n : Bytes) : Action Bytes Unit := do
  let _ ← ask (.remove n)
  pure ()

def atomicWrite (path data : Bytes) : Action Bytes Unit := do
  let nonce ← fill 8 "getrandom: "
  let pid ← ask .processId
  let tmp := tmpPath path pid nonce
  let f ← orIo (← ask (.createNew tmp 0o600))
  (writeThenRename f tmp path data).onErr (removeFile tmp)

/-! ## The names are different -/

theorem fileName_of_asBytes {path : Bytes} {s : Str} (h : path = s.asBytes) : fileName path = s := by
  rw [fileName, h, Str.fromUtf8_asBytes]
  rfl

theorem ne_asBytes {path : Bytes} {s : Str} (h : (fileName path).length < s.length) :
    s.asBytes ≠ path := by
  intro he
  rw [fileName_of_asBytes he.symm] at h
  exact Nat.lt_irrefl _ h

theorem lockPath_ne (path : Bytes) : lockPath path ≠ path := by
  refine ne_asBytes ?_
  simp only [List.length_append, List.length_cons, List.length_nil]
  omega

theorem tmpPath_ne (path : Bytes) (pid : Nat) (nonce : Fixed 8) : tmpPath path pid nonce ≠ path := by
  refine ne_asBytes ?_
  simp only [List.length_append, List.length_cons, List.length_nil]
  omega

theorem tmpPath_ne_lockPath (path : Bytes) (pid : Nat) (nonce : Fixed 8) :
    tmpPath path pid nonce ≠ lockPath path := by
  intro h
  have hlen := congrArg List.length (Str.asBytes_injective h)
  have htmp : ".tmp-".toList.length = 5 := rfl
  have hlock : ".lock".toList.length = 5 := rfl
  simp only [List.length_append, List.length_cons, List.length_nil, Hex.length_encode,
    Fixed.length_eq, htmp, hlock] at hlen
  omega

end Store
end Krypto
