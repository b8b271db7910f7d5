import Krypto.Error
import Krypto.Text

/-! The primitives krypto takes from other crates, the master key, and the keys
derived from it. -/

namespace Krypto
open Effect

structure Primitives where
  hkdfSha256 : (salt ikm info : Bytes) → Fixed 32
  aegis256Encrypt : (key nonce : Fixed 32) → (msg ad : Bytes) → Bytes × Fixed 32
  aegis256Decrypt : (key nonce : Fixed 32) → (ct : Bytes) → (tag : Fixed 32) → (ad : Bytes) →
    Option Bytes
  xchachaEncrypt : (key : Fixed 32) → (nonce : Fixed 24) → (msg aad : Bytes) → Option Bytes
  xchachaDecrypt : (key : Fixed 32) → (nonce : Fixed 24) → (ct aad : Bytes) → Option Bytes
  aesGcmEncrypt : (key : Fixed 32) → (nonce : Fixed 12) → (msg aad : Bytes) → Option Bytes
  aesGcmDecrypt : (key : Fixed 32) → (nonce : Fixed 12) → (ct aad : Bytes) → Option Bytes

abbrev SecretBuf := Bytes

def maxMasterKeyBytes : Nat := 4096

def maxDeriveInputBytes : Nat := 1024

structure MasterKey where
  key : SecretBuf
  le_length : 32 ≤ key.length
  length_le : key.length ≤ maxMasterKeyBytes

theorem MasterKey.ext {a b : MasterKey} (h : a.key = b.key) : a = b := by
  cases a
  cases b
  cases h
  rfl

instance : DecidableEq MasterKey := fun a b =>
  decidable_of_iff (a.key = b.key) ⟨MasterKey.ext, fun h => h ▸ rfl⟩

structure DerivedKey where
  key : SecretBuf
  length_eq : key.length = 32
  deriving DecidableEq

namespace DerivedKey

def toFixed (self : DerivedKey) : Fixed 32 := ⟨self.key, self.length_eq⟩

def withKey {α : Type} (self : DerivedKey) (f : Fixed 32 → Outcome Error α) : Outcome Error α :=
  if h : self.key.length = 32 then f ⟨self.key, h⟩
  else .err (.hardening "derived key must be 32 bytes")

theorem toFixed_inj {a b : DerivedKey} (h : a.toFixed = b.toFixed) : a = b := by
  cases a
  cases b
  cases h
  rfl

@[simp] theorem withKey_eq {α : Type} (self : DerivedKey) (f : Fixed 32 → Outcome Error α) :
    self.withKey f = f self.toFixed := dif_pos self.length_eq

end DerivedKey

/-- HMAC takes a key of any length, so nothing is refused. -/
def hmacSha256 (hmac : (key : Fixed 32) → (data : Bytes) → Fixed 32) (key : DerivedKey)
    (data : Bytes) : Outcome Error (Fixed 32) :=
  key.withKey fun k => .ok (hmac k data)

namespace MasterKey
variable {ν : Type}

def fromBytes (key : SecretBuf) : Outcome Error MasterKey :=
  if h : key.length < 32 then
    .err (.format s!"master key must be at least 32 bytes, got {key.length}")
  else if h' : maxMasterKeyBytes < key.length then
    .err (.format s!"master key is {key.length} bytes — max {maxMasterKeyBytes}")
  else
    .ok ⟨key, Nat.le_of_not_lt h, Nat.le_of_not_lt h'⟩

def boundInput (what : String) (len : Nat) : Outcome Error Unit :=
  if maxDeriveInputBytes < len then
    .err (.format s!"`{what}` passed to derive() is {len} bytes — max {maxDeriveInputBytes}")
  else
    .ok ()

def checkInputs (info salt : Bytes) : Outcome Error Unit := do
  if info.isEmpty then
    .err (.format (.text ("empty `info` passed to derive() — the HKDF purpose separation " ++
      "vanishes, and two different purposes would get the same key")))
  else
    boundInput "info" info.length
    boundInput "salt" salt.length

def okm (P : Primitives) (self : MasterKey) (info salt : Bytes) : DerivedKey where
  key := (P.hkdfSha256 salt self.key info).toList
  length_eq := Fixed.length_eq _

def derive (P : Primitives) (self : MasterKey) (info salt : Bytes) : Action ν DerivedKey := do
  lift (checkInputs info salt)
  lockedPages 32
  -- 32 bytes are within what HKDF can expand to, so `expand` does not fail.
  pure (self.okm P info salt)

def fromSecretFile (path : ν) : Action ν MasterKey := do
  let f ← orIo (← ask (.openRead path))
  let bytes ← Prog.always (do orIo (← ask (.read f (maxMasterKeyBytes + 1)))) (dropFile f)
  if h : bytes.length < 32 then
    Prog.throw (.format s!"master key must be at least 32 bytes, got {bytes.length}")
  else if h' : maxMasterKeyBytes < bytes.length then
    Prog.throw (.format s!"master key file is too big (> {maxMasterKeyBytes} bytes)")
  else
    lockedPages bytes.length
    pure ⟨bytes, Nat.le_of_not_lt h, Nat.le_of_not_lt h'⟩

def KEY_ID_CONTEXT : Bytes := Str.asBytes "krypto/key-id/v1".toList

def keyId (hmac : (key : Fixed 32) → (data : Bytes) → Fixed 32) (P : Primitives) (self : MasterKey) : Action ν (Fixed 16) := do
  let dk ← self.derive P KEY_ID_CONTEXT []
  let mac ← lift (hmacSha256 hmac dk (Str.asBytes "key-id".toList))
  pure ⟨mac.toList.take 16, by rw [List.length_take, mac.length_eq]; rfl⟩

theorem checkInputs_of_le {info salt : Bytes} (h0 : info ≠ [])
    (hi : info.length ≤ maxDeriveInputBytes) (hs : salt.length ≤ maxDeriveInputBytes) :
    checkInputs info salt = .ok () := by
  have he : info.isEmpty = false := by simpa using h0
  simp [checkInputs, he, boundInput, Nat.not_lt.mpr hi, Nat.not_lt.mpr hs]

end MasterKey
end Krypto
