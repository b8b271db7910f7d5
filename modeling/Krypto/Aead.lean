import Krypto.Kdf

/-! `aead.rs`: the blob format, and sealing and opening blobs. -/

namespace Krypto
open Effect

inductive Alg where
  | aegis256
  | xchacha20Poly1305
  | aes256Gcm
  deriving DecidableEq, Repr

namespace Alg

def id : Alg → UInt8
  | aegis256 => 1
  | xchacha20Poly1305 => 2
  | aes256Gcm => 3

def fromId (id : UInt8) : Option Alg :=
  if id = 1 then some aegis256
  else if id = 2 then some xchacha20Poly1305
  else if id = 3 then some aes256Gcm
  else none

def nonceLen : Alg → Nat
  | aegis256 => 32
  | xchacha20Poly1305 => 24
  | aes256Gcm => 12

@[simp] theorem fromId_id (alg : Alg) : fromId alg.id = some alg := by
  cases alg <;> rfl

theorem nonceLen_le (alg : Alg) : alg.nonceLen ≤ 32 := by
  cases alg <;> decide

end Alg

namespace Aead
variable {ν : Type} (P : Primitives)

def MAGIC : Bytes := [0x46, 0x41, 0x46, 0x4e]

def FORMAT_VER : UInt8 := 1

def NONCE_FIELD : Nat := 32

def HEADER_LEN : Nat := 4 + 1 + 1 + 16 + NONCE_FIELD

/-- A key of 32 bytes is what each cipher takes, so only the nonce can be refused. -/
def primitiveSeal (alg : Alg) (key : Fixed 32) (nonce pt aad : Bytes) : Outcome Error Bytes :=
  match alg with
  | .xchacha20Poly1305 => do
    let n ← .ofOption (.format "XChaCha20-Poly1305 requires a 24 B nonce") (Fixed.tryFrom 24 nonce)
    .ofOption (.hardening "AEAD encryption failed") (P.xchachaEncrypt key n pt aad)
  | .aegis256 => do
    let nonce32 ← .ofOption (.format "AEGIS-256 requires a 32 B nonce") (Fixed.tryFrom 32 nonce)
    let (ct, tag) := P.aegis256Encrypt key nonce32 pt aad
    .ok (ct ++ tag.toList)
  | .aes256Gcm => do
    let n ← .ofOption (.format "AES-256-GCM requires a 12 B nonce") (Fixed.tryFrom 12 nonce)
    .ofOption (.hardening "AEAD encryption failed") (P.aesGcmEncrypt key n pt aad)

def primitiveOpen (alg : Alg) (key : Fixed 32) (nonce body aad : Bytes) : Outcome Error Bytes :=
  match alg with
  | .xchacha20Poly1305 => do
    let n ← .ofOption (.format "XChaCha20-Poly1305 requires a 24 B nonce") (Fixed.tryFrom 24 nonce)
    .ofOption .auth (P.xchachaDecrypt key n body aad)
  | .aegis256 =>
    if body.length < 32 then
      .err .auth
    else do
      let (ct, tag) ← splitAt body (body.length - 32)
      let tagArr ← .ofOption (.format "invalid tag length") (Fixed.tryFrom 32 tag)
      let nonce32 ← .ofOption (.format "AEGIS-256 requires a 32 B nonce") (Fixed.tryFrom 32 nonce)
      .ofOption .auth (P.aegis256Decrypt key nonce32 ct tagArr aad)
  | .aes256Gcm => do
    let n ← .ofOption (.format "AES-256-GCM requires a 12 B nonce") (Fixed.tryFrom 12 nonce)
    .ofOption .auth (P.aesGcmDecrypt key n body aad)

def headerBytes (alg : Alg) (keyId : Fixed 16) (nonce : Bytes) : Bytes :=
  MAGIC ++ [FORMAT_VER] ++ [alg.id] ++ keyId.toList ++
    (nonce ++ List.replicate (NONCE_FIELD - nonce.length) 0)

/-- `seal` once the random part of the nonce is drawn. -/
def sealWith (nonce : Bytes) (key : DerivedKey) (keyId : Fixed 16) (plaintext : SecretBuf)
    (alg : Alg) : Outcome Error Bytes := do
  let header := headerBytes alg keyId nonce
  let ctTag ← key.withKey fun k => primitiveSeal P alg k nonce plaintext header
  .ok (header ++ ctTag)

def sealBlob (key : DerivedKey) (keyId : Fixed 16) (plaintext : SecretBuf) (alg : Alg) :
    Action ν Bytes := do
  let nonce ← fill alg.nonceLen "getrandom failed: "
  lift (sealWith P nonce.toList key keyId plaintext alg)

def readHeader (blob : Bytes) : Outcome Error (Alg × Bytes × Bytes) := do
  if blob.length < HEADER_LEN then
    .err (.format "blob shorter than header")
  else
    let (header, body) ← splitAt blob HEADER_LEN
    if (← slice header 0 4) ≠ MAGIC then
      .err (.format "wrong magic (not FAFN)")
    else if (← index header 4) ≠ FORMAT_VER then
      .err .auth
    else
      let alg ← .ofOption .auth (Alg.fromId (← index header 5))
      .ok (alg, header, body)

/-- `open` up to the plaintext, before it is moved to locked pages. -/
def openBody (key : DerivedKey) (blob : Bytes) : Outcome Error Bytes := do
  let (alg, header, body) ← readHeader blob
  let nonceStart := 6 + 16
  let nonce ← slice header nonceStart (nonceStart + NONCE_FIELD)
  let n ← slice nonce 0 alg.nonceLen
  key.withKey fun k => primitiveOpen P alg k n body header

def openBlob (key : DerivedKey) (blob : Bytes) : Action ν SecretBuf := do
  let pt ← lift (openBody P key blob)
  lockedPages pt.length
  pure pt

def reseal (old new : DerivedKey) (newKeyId : Fixed 16) (blob : Bytes) : Action ν Bytes := do
  let (alg, _, _) ← lift (readHeader blob)
  let pt ← openBlob P old blob
  sealBlob P new newKeyId pt alg

def blobKeyId (blob : Bytes) : Outcome Error Bytes := do
  let (_, header, _) ← readHeader blob
  slice header 6 (6 + 16)

end Aead
end Krypto
