import Krypto.Cli.Args
import Krypto.Effect.Stateful
import Krypto.Secret
import Krypto.Store
import Mathlib.Algebra.Order.Group.Multiset
import Mathlib.Data.Finset.Card

/-! `krypto-py`: the objects that Python code holds, what refers to them, and the calls on them. -/

namespace Krypto.Python
open Effect Store

abbrev Ref := ℕ

inductive Class where
  | ioError
  | hardeningError
  | formatError
  | authError
  | keyNotFoundError
  | wrongKeyError
  | valueError
  | typeError
  deriving DecidableEq

structure Exception where
  cls : Class
  text : Message
  deriving DecidableEq

def err (e : Error) : Exception :=
  let cls := match e with
    | .io _ => .ioError
    | .hardening _ => .hardeningError
    | .format _ => .formatError
    | .auth => .authError
    | .keyNotFound => .keyNotFoundError
    | .wrongKey => .wrongKeyError
  ⟨cls, e.display⟩

def consumed : Exception := ⟨.valueError, "this SecretBuf was consumed"⟩

def rotatedAway : Exception := ⟨.valueError, "this SecretStore was rotated away"⟩

/-- What PyO3 raises, in words of its own, for an object of another class. -/
def otherClass : Exception := ⟨.typeError, "argument of another type"⟩

/-- What must never be: an object is used that is gone. -/
inductive Dangling where
  | dangling
  deriving DecidableEq

/-- A call from Python, over a state that has the objects. -/
abbrev Py (σ α : Type) := Stateful (Call.Reply (ν := Bytes)) Dangling Exception σ α

inductive Result where
  | none
  | bool (b : Bool)
  | int (n : ℕ)
  | bytes (b : Bytes)
  | names (l : List Str)
  | object (r : Ref)
  deriving DecidableEq

/-- What the calls do with the objects they are given. -/
class Objects (σ : Type) where
  /-- What Python code refers to, as often as it does. -/
  held : σ → Multiset Ref
  /-- The bytes of a `bytearray`, which is then filled with zeros. -/
  takeBytes : Ref → Py σ Bytes
  newBytes : Bytes → Py σ Ref
  /-- An argument of the class, consumed or not. -/
  argBuf : Ref → Py σ Unit
  buf : Ref → Py σ SecretBuf
  takeBuf : Ref → Py σ SecretBuf
  newBuf : SecretBuf → Py σ Ref
  masterKey : Ref → Py σ MasterKey
  newMasterKey : MasterKey → Py σ Ref
  derivedKey : Ref → Py σ DerivedKey
  newDerivedKey : DerivedKey → Py σ Ref
  store : Ref → Py σ SecretStore
  setEntries : Ref → Entries → Py σ Unit
  takeStore : Ref → Py σ SecretStore
  /-- A new store object, that keeps the object of its master key. -/
  newStore : SecretStore → Ref → Py σ Ref
  /-- `b = a` -/
  share : Ref → Py σ Unit
  /-- `del a` -/
  del : Ref → Py σ Unit

/-! ### The calls -/

section Calls
variable {σ : Type} [O : Objects σ] (P : Primitives) (hmac : (key : Fixed 32) → (data : Bytes) → Fixed 32)

def array (n : ℕ) (b : Bytes) (what : String) : Except Exception (Fixed n) :=
  if h : b.length = n then .ok ⟨b, h⟩
  else .error ⟨.formatError, s!"{what} is {n} bytes, got {b.length}"⟩

def crate {α : Type} (p : Action Bytes α) : Py σ α := Stateful.run err p

inductive Buffer where
  | bytes (b : Bytes)
  | byteArray (r : Ref)

namespace SecretBuf

def fromVec : Buffer → Py σ Result
  | .byteArray r => do
    let data ← O.takeBytes r
    let b ← crate (Krypto.SecretBuf.fromVec data)
    return .object (← O.newBuf b)
  | .bytes data => do
    let b ← crate (Krypto.SecretBuf.fromVec data)
    return .object (← O.newBuf b)

def randomWithLimit (len limit : ℕ) : Py σ Result := do
  let b ← crate (Krypto.SecretBuf.randomWithLimit len limit)
  return .object (← O.newBuf b)

def random (len : ℕ) : Py σ Result := do
  let b ← crate (Krypto.SecretBuf.random len)
  return .object (← O.newBuf b)

def len (self : Ref) : Py σ Result := do return .int (← O.buf self).length

def isEmpty (self : Ref) : Py σ Result := do return .bool (← O.buf self).isEmpty

/-- What `f` is called with. The copy is made before the call, and the buffer is not looked at after it. -/
def expose (self : Ref) : Py σ Result := do return .bytes (← O.buf self)

end SecretBuf

namespace MasterKey

def fromSecretFile (path : Bytes) : Py σ Result := do
  let k ← crate (Krypto.MasterKey.fromSecretFile path)
  return .object (← O.newMasterKey k)

def fromBytes (key : Ref) : Py σ Result := do
  let b ← O.takeBuf key
  let k ← crate (Krypto.lift (Krypto.MasterKey.fromBytes b))
  return .object (← O.newMasterKey k)

def derive (self : Ref) (info salt : Bytes) : Py σ Result := do
  let k ← O.masterKey self
  let dk ← crate (k.derive P info salt)
  return .object (← O.newDerivedKey dk)

def keyId (self : Ref) : Py σ Result := do
  let k ← O.masterKey self
  return .bytes (← crate (k.keyId hmac P)).toList

end MasterKey

def hmacSha256 (key : Ref) (data : Bytes) : Py σ Result := do
  let dk ← O.derivedKey key
  return .bytes (← crate (Krypto.lift (Krypto.hmacSha256 hmac dk data))).toList

def sealCall (key : Ref) (keyId : Bytes) (plaintext : Ref) (alg : Alg) : Py σ Result := do
  let dk ← O.derivedKey key
  O.argBuf plaintext
  let kid ← Stateful.ofExcept (array 16 keyId "key_id")
  let pt ← O.buf plaintext
  return .bytes (← crate (Aead.sealBlob P dk kid pt alg))

def openCall (key : Ref) (blob : Bytes) : Py σ Result := do
  let dk ← O.derivedKey key
  let b ← crate (Aead.openBlob P dk blob)
  return .object (← O.newBuf b)

def reseal (old new : Ref) (newKeyId blob : Bytes) : Py σ Result := do
  let oldKey ← O.derivedKey old
  let newKey ← O.derivedKey new
  let kid ← Stateful.ofExcept (array 16 newKeyId "new_key_id")
  return .bytes (← crate (Aead.reseal P oldKey newKey kid blob))

def blobKeyId (blob : Bytes) : Py σ Result := do
  return .bytes (← crate (Krypto.lift (Aead.blobKeyId blob)))

namespace SecretStore

def openStore (path : Bytes) (master : Ref) : Py σ Result := do
  let k ← O.masterKey master
  let st ← crate (Krypto.SecretStore.openStore path k)
  -- the argument is a reference of the call's own, which goes into the new object
  return .object (← O.newStore st master)

def put (self : Ref) (name : Str) (secret : Ref) : Py σ Result := do
  O.argBuf secret
  let st ← O.store self
  let b ← O.buf secret
  let (r, st') ← crate (st.put P name b)
  O.setEntries self st'.entries
  Stateful.ofExcept (r.mapError err)
  return .none

def get (self : Ref) (name : Str) : Py σ Result := do
  let st ← O.store self
  let b ← crate (st.get P name)
  return .object (← O.newBuf b)

def delete (self : Ref) (name : Str) : Py σ Result := do
  let st ← O.store self
  let (r, st') ← crate (st.delete name)
  O.setEntries self st'.entries
  Stateful.ofExcept (r.mapError err)
  return .none

def contains (self : Ref) (name : Str) : Py σ Result := do
  return .bool ((← O.store self).contains name)

def list (self : Ref) (start : Str) : Py σ Result := do
  return .names ((← O.store self).list start)

def rotate (self newMaster : Ref) : Py σ Result := do
  let k ← O.masterKey newMaster
  let old ← O.takeStore self
  let st ← crate (old.rotate P k)
  return .object (← O.newStore st newMaster)

end SecretStore

inductive Statement where
  | byteArray (data : Bytes)
  | share (r : Ref)
  | del (r : Ref)
  | fromVec (v : Buffer)
  | randomWithLimit (len limit : ℕ)
  | random (len : ℕ)
  | len (self : Ref)
  | isEmpty (self : Ref)
  | expose (self : Ref)
  | fromSecretFile (path : Bytes)
  | fromBytes (key : Ref)
  | derive (self : Ref) (info salt : Bytes)
  | keyId (self : Ref)
  | hmacSha256 (key : Ref) (data : Bytes)
  | sealCall (key : Ref) (keyId : Bytes) (plaintext : Ref) (alg : Alg)
  | openCall (key : Ref) (blob : Bytes)
  | reseal (old new : Ref) (newKeyId blob : Bytes)
  | blobKeyId (blob : Bytes)
  | openStore (path : Bytes) (master : Ref)
  | put (self : Ref) (name : Str) (secret : Ref)
  | get (self : Ref) (name : Str)
  | delete (self : Ref) (name : Str)
  | contains (self : Ref) (name : Str)
  | list (self : Ref) (start : Str)
  | rotate (self newMaster : Ref)

namespace Statement

def refs : Statement → List Ref
  | byteArray _ | fromVec (.bytes _) | randomWithLimit _ _ | random _ | fromSecretFile _ | blobKeyId _ => []
  | share r | del r | fromVec (.byteArray r) | len r | isEmpty r | expose r | fromBytes r | derive r _ _ |
    keyId r | hmacSha256 r _ | openCall r _ | openStore _ r | get r _ | delete r _ | contains r _ | list r _ => [r]
  | sealCall a _ b _ | reseal a b _ _ | put a _ b | rotate a b => [a, b]

def exec : Statement → Py σ Result
  | byteArray data => do return .object (← O.newBytes data)
  | share r => do
    O.share r
    return .none
  | del r => do
    O.del r
    return .none
  | fromVec v => SecretBuf.fromVec v
  | randomWithLimit n limit => SecretBuf.randomWithLimit n limit
  | random n => SecretBuf.random n
  | len self => SecretBuf.len self
  | isEmpty self => SecretBuf.isEmpty self
  | expose self => SecretBuf.expose self
  | fromSecretFile path => MasterKey.fromSecretFile path
  | fromBytes key => MasterKey.fromBytes key
  | derive self info salt => MasterKey.derive P self info salt
  | keyId self => MasterKey.keyId P hmac self
  | hmacSha256 key data => Python.hmacSha256 hmac key data
  | sealCall key kid plaintext alg => Python.sealCall P key kid plaintext alg
  | openCall key blob => Python.openCall P key blob
  | reseal old new newKeyId blob => Python.reseal P old new newKeyId blob
  | blobKeyId blob => Python.blobKeyId blob
  | openStore path master => SecretStore.openStore path master
  | put self name secret => SecretStore.put P self name secret
  | get self name => SecretStore.get P self name
  | delete self name => SecretStore.delete self name
  | contains self name => SecretStore.contains self name
  | list self start => SecretStore.list self start
  | rotate self newMaster => SecretStore.rotate P self newMaster

/-- Python code can only name what it refers to. -/
def Allowed (s : σ) (q : Statement) : Prop := ∀ r ∈ q.refs, r ∈ O.held s

instance (s : σ) (q : Statement) : Decidable (Allowed s q) :=
  inferInstanceAs (Decidable (∀ r ∈ q.refs, r ∈ O.held s))

end Statement
end Calls

/-! ### Objects -/

/-- `krypto::SecretStore<'static>`, with the master key that it refers to as a `κ`. -/
structure Handle (κ : Type) extends Contents where
  path : Bytes
  master : κ
  lock : Option Nat

namespace Handle

def ofStore {κ : Type} (st : SecretStore) (master : κ) : Handle κ :=
  { st.toContents with path := st.path, master, lock := st.lock }

def toStore {κ : Type} (h : Handle κ) (k : MasterKey) : SecretStore :=
  { h.toContents with path := h.path, master := k, lock := h.lock }

def drop {κ : Type} : Option (Handle κ) → Prog (Call.Reply (ν := Bytes)) Dangling Unit
  | some h => (dropLock h.lock : Action Bytes Unit).andThen fun _ => .done (.ok ())
  | none => .done (.ok ())

end Handle

inductive Object (κ : Type) where
  | byteArray (data : Bytes)
  | secretBuf (inner : Option SecretBuf)
  | masterKey (inner : MasterKey)
  | derivedKey (inner : DerivedKey)
  | secretStore (store : Option (Handle κ)) (master : κ)

namespace Object
variable {κ : Type}

def keeps : Object κ → Option κ
  | .secretStore _ m => some m
  | _ => none

def drop : Object κ → Prog (Call.Reply (ν := Bytes)) Dangling Unit
  | .secretStore store _ => Handle.drop store
  | _ => .done (.ok ())

def asBytes : Object κ → Except Exception Bytes
  | .byteArray b => .ok b
  | _ => .error ⟨.typeError, "from_vec takes bytes or bytearray"⟩

def asBufArg : Object κ → Except Exception Unit
  | .secretBuf _ => .ok ()
  | _ => .error otherClass

def asBuf : Object κ → Except Exception SecretBuf
  | .secretBuf (some b) => .ok b
  | .secretBuf none => .error consumed
  | _ => .error otherClass

def asMasterKey : Object κ → Except Exception MasterKey
  | .masterKey k => .ok k
  | _ => .error otherClass

def asDerivedKey : Object κ → Except Exception DerivedKey
  | .derivedKey k => .ok k
  | _ => .error otherClass

def asStore : Object κ → Except Exception (Handle κ × κ)
  | .secretStore (some h) master => .ok (h, master)
  | .secretStore none _ => .error rotatedAway
  | _ => .error otherClass

end Object

/-! ### The objects of the binding -/

structure Cell where
  object : Object Ref
  count : ℕ

structure Interpreter where
  cells : Ref → Option Cell
  fresh : Ref
  held : Multiset Ref

namespace Interpreter

def start : Interpreter := ⟨fun _ => none, 0, 0⟩

def get (x : Interpreter) (r : Ref) : Option (Object Ref) := (x.cells r).map Cell.object

/-- `master_ref`: what the pointer of a handle leads to. -/
def masterAt (x : Interpreter) (r : Ref) : Option MasterKey :=
  match x.get r with
  | some (.masterKey k) => some k
  | _ => none

def write (x : Interpreter) (r : Ref) (o : Object Ref) : Interpreter :=
  { x with cells := Function.update x.cells r ((x.cells r).map fun c => { c with object := o }) }

def incref (x : Interpreter) (r : Ref) : Interpreter :=
  { x with cells := Function.update x.cells r ((x.cells r).map fun c => { c with count := c.count + 1 }) }

def decref (x : Interpreter) (r : Ref) : Interpreter :=
  { x with cells := Function.update x.cells r ((x.cells r).bind fun c =>
      if c.count = 1 then none else some { c with count := c.count - 1 }) }

def alloc (x : Interpreter) (o : Object Ref) : Interpreter where
  cells := Function.update x.cells x.fresh (some ⟨o, 1⟩)
  fresh := x.fresh + 1
  held := x.fresh ::ₘ x.held

def read {α : Type} (f : Object Ref → Except Exception α) (r : Ref) : Py Interpreter α := fun x =>
  match x.get r with
  | some o => .done (.ok (f o, x))
  | none => .done (.err .dangling)

def put (r : Ref) (o : Object Ref) : Py Interpreter Unit := fun x => .done (.ok (.ok (), x.write r o))

def new (o : Object Ref) : Py Interpreter Ref := fun x => .done (.ok (.ok x.fresh, x.alloc o))

def deref (h : Handle Ref) : Py Interpreter SecretStore := fun x =>
  match x.masterAt h.master with
  | some k => .done (.ok (.ok (h.toStore k), x))
  | none => .done (.err .dangling)

def dropKept (x : Interpreter) : Option Ref → Prog (Call.Reply (ν := Bytes)) Dangling Interpreter
  | some m => if (x.cells m).isSome then .done (.ok (x.decref m)) else .done (.err .dangling)
  | none => .done (.ok x)

/-- One reference less. A store that goes is dropped before the master key that it refers to. -/
def release (r : Ref) : Py Interpreter Unit := fun x =>
  match x.cells r with
  | none => .done (.err .dangling)
  | some c =>
    if c.count = 1 then do
      c.object.drop
      let x' ← (x.decref r).dropKept c.object.keeps
      .done (.ok (.ok (), x'))
    else
      .done (.ok (.ok (), x.decref r))

instance : Objects Interpreter where
  held := held
  takeBytes r := do
    let b ← read Object.asBytes r
    put r (.byteArray (List.replicate b.length 0))
    return b
  newBytes b := new (.byteArray b)
  argBuf := read Object.asBufArg
  buf := read Object.asBuf
  takeBuf r := do
    let b ← read Object.asBuf r
    put r (.secretBuf none)
    return b
  newBuf b := new (.secretBuf (some b))
  masterKey := read Object.asMasterKey
  newMasterKey k := new (.masterKey k)
  derivedKey := read Object.asDerivedKey
  newDerivedKey k := new (.derivedKey k)
  store r := do
    let (h, _) ← read Object.asStore r
    deref h
  setEntries r entries := do
    let (h, master) ← read Object.asStore r
    put r (.secretStore (some { h with entries }) master)
  takeStore r := do
    let (h, master) ← read Object.asStore r
    put r (.secretStore none master)
    deref h
  newStore st master := fun x =>
    .done (.ok (.ok x.fresh, (x.incref master).alloc (.secretStore (some (.ofStore st master)) master)))
  share r := fun x => .done (.ok (.ok (), { x.incref r with held := r ::ₘ x.held }))
  del r := fun x => release r { x with held := x.held.erase r }

end Interpreter

/-! ### The same objects, each with what it refers to as its own -/

/-- What Python code refers to, as values: a store has its master key itself, and nothing is shared. -/
structure Values where
  objects : Ref → Option (Object MasterKey)
  fresh : Ref
  held : Multiset Ref

namespace Values

def start : Values := ⟨fun _ => none, 0, 0⟩

def read {α : Type} (f : Object MasterKey → Except Exception α) (r : Ref) : Py Values α := fun v =>
  match v.objects r with
  | some o => .done (.ok (f o, v))
  | none => .done (.err .dangling)

def write (v : Values) (r : Ref) (o : Object MasterKey) : Values :=
  { v with objects := Function.update v.objects r (some o) }

def put (r : Ref) (o : Object MasterKey) : Py Values Unit := fun v => .done (.ok (.ok (), v.write r o))

def alloc (v : Values) (o : Object MasterKey) : Values where
  objects := Function.update v.objects v.fresh (some o)
  fresh := v.fresh + 1
  held := v.fresh ::ₘ v.held

def new (o : Object MasterKey) : Py Values Ref := fun v => .done (.ok (.ok v.fresh, v.alloc o))

def release (r : Ref) : Py Values Unit := fun v =>
  let held := v.held.erase r
  if r ∈ held then
    .done (.ok (.ok (), { v with held }))
  else do
    match v.objects r with
    | some o => o.drop
    | none => .done (.err .dangling)
    .done (.ok (.ok (), { v with held, objects := Function.update v.objects r none }))

instance : Objects Values where
  held := held
  takeBytes r := do
    let b ← read Object.asBytes r
    put r (.byteArray (List.replicate b.length 0))
    return b
  newBytes b := new (.byteArray b)
  argBuf := read Object.asBufArg
  buf := read Object.asBuf
  takeBuf r := do
    let b ← read Object.asBuf r
    put r (.secretBuf none)
    return b
  newBuf b := new (.secretBuf (some b))
  masterKey := read Object.asMasterKey
  newMasterKey k := new (.masterKey k)
  derivedKey := read Object.asDerivedKey
  newDerivedKey k := new (.derivedKey k)
  store r := do
    let (h, k) ← read Object.asStore r
    return h.toStore k
  setEntries r entries := do
    let (h, k) ← read Object.asStore r
    put r (.secretStore (some { h with entries }) k)
  takeStore r := do
    let (h, k) ← read Object.asStore r
    put r (.secretStore none k)
    return h.toStore k
  newStore st _ := new (.secretStore (some (.ofStore st st.master)) st.master)
  share r := fun v => .done (.ok (.ok (), { v with held := r ::ₘ v.held }))
  del := release

end Values
end Krypto.Python
