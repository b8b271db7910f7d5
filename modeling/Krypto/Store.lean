import Krypto.Aead
import Krypto.Store.File

/-! `store.rs`: the store itself. -/

namespace Krypto
open Effect Store

/-- A handle. `lock` is the locked file that keeps the store to this handle. -/
structure SecretStore extends Contents where
  path : Bytes
  master : MasterKey
  lock : Option Nat
  deriving DecidableEq

namespace SecretStore
variable (P : Primitives)

def dekInfo (name : Str) : Bytes := Str.asBytes "krypto/store/v1|".toList ++ name.asBytes

def dekFor (self : SecretStore) (name : Str) : Action Bytes DerivedKey :=
  self.master.derive P (dekInfo name) self.salt.toList

/-- What `put` and `rotate` do with each secret: its blob, under its name's key. -/
def sealUnder (self : SecretStore) (name : Str) (secret : SecretBuf) : Action Bytes Bytes := do
  let dek ← self.dekFor P name
  Aead.sealBlob P dek self.keyId secret .aegis256

def persist (self : SecretStore) : Action Bytes Unit := do
  let buf ← lift (checkedImage self.toContents)
  atomicWrite self.path buf

/-- `SecretStore::open` from when it has the lock. -/
def openLocked (path : Bytes) (master : MasterKey) (lock : Option Nat) :
    Action Bytes SecretStore := do
  match ← readCapped path MAX_STORE_BYTES with
  | some data =>
    makePrivate path
    let c ← lift (load data)
    pure { c with path, master, lock }
  | none =>
    let salt ← fill 16 "getrandom: "
    let keyId ← fill 16 "getrandom: "
    let store : SecretStore := { salt, keyId, entries := ∅, path, master, lock }
    store.persist
    pure store

def openStore (path : Bytes) (master : MasterKey) : Action Bytes SecretStore := do
  let lock ← takeLock path
  (openLocked path master lock).onErr (dropLock lock)

def put (self : SecretStore) (name : Str) (secret : SecretBuf) :
    Action Bytes (Except Error Unit × SecretStore) := do
  let sealed : Action Bytes Bytes := do
    lift (validateName name)
    self.sealUnder P name secret
  match ← sealed.attempt with
  | .error e => pure (.error e, self)
  | .ok blob =>
    let previous := self.entries.lookup name
    let inserted := { self with entries := self.entries.insert name blob }
    match ← (persist inserted).attempt with
    | .ok () => pure (.ok (), inserted)
    | .error e =>
      let entries := match previous with
        | some old => inserted.entries.insert name old
        | none => inserted.entries.erase name
      pure (.error e, { inserted with entries })

def get (self : SecretStore) (name : Str) : Action Bytes SecretBuf := do
  let blob ← lift (.ofOption .keyNotFound (self.entries.lookup name))
  if (← lift (Aead.blobKeyId blob)) ≠ self.keyId.toList then
    Prog.throw .auth
  else
    let dek ← self.dekFor P name
    Aead.openBlob P dek blob

def delete (self : SecretStore) (name : Str) : Action Bytes (Except Error Unit × SecretStore) := do
  match self.entries.lookup name with
  | none => pure (.ok (), self)
  | some old =>
    let removed := { self with entries := self.entries.erase name }
    match ← (persist removed).attempt with
    | .ok () => pure (.ok (), removed)
    | .error e => pure (.error e, { removed with entries := removed.entries.insert name old })

def contains (self : SecretStore) (name : Str) : Bool := decide (name ∈ self.entries)

def list (self : SecretStore) (start : Str) : List Str :=
  Str.sort (self.entries.keys.filter fun k => start.isPrefixOf k)

/-- The first loop of `rotate`. -/
def decryptAll (self : SecretStore) : List Str → Action Bytes (List (Str × SecretBuf))
  | [] => pure []
  | name :: names => do
    let secret ← self.get P name
    let plain ← self.decryptAll names
    pure ((name, secret) :: plain)

def sealAll (self : SecretStore) : List (Str × SecretBuf) → Action Bytes SecretStore
  | [] => pure self
  | (name, secret) :: plain => do
    let blob ← self.sealUnder P name secret
    sealAll { self with entries := self.entries.insert name blob } plain

/-- `rotate` up to the write: everything decrypted, then the new generation in memory. -/
def newGeneration (self : SecretStore) (newMaster : MasterKey) : Action Bytes SecretStore := do
  let plain ← self.decryptAll P (Str.sort self.entries.keys)
  let salt ← fill 16 "getrandom: "
  let keyId ← fill 16 "getrandom: "
  let newStore : SecretStore :=
    { salt, keyId, entries := ∅, path := self.path, master := newMaster, lock := self.lock }
  newStore.sealAll P plain

def rotateLocked (self : SecretStore) (newMaster : MasterKey) : Action Bytes SecretStore := do
  let newStore ← self.newGeneration P newMaster
  newStore.persist
  pure newStore

def rotate (self : SecretStore) (newMaster : MasterKey) : Action Bytes SecretStore :=
  -- The lock goes with the handle, and with the new one from when there is one.
  (self.rotateLocked P newMaster).onErr (dropLock self.lock)

end SecretStore
end Krypto
