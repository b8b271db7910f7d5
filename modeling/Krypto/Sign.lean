import Krypto.Kdf

/-! `sign.rs`: checking signatures. -/

namespace Krypto.Sign
open Effect

structure Curves where
  ed25519Point : Fixed 32 → Bool
  ed25519Holds : (key : Fixed 32) → (message : Bytes) → (signature : Fixed 64) → Bool
  p256Point : Bytes → Bool
  p256Signature : Bytes → Bool
  p256Holds : (key message signature : Bytes) → Bool

variable (C : Curves)

def ed25519Verify (publicKey message signature : Bytes) : Outcome Error Unit := do
  let pk ← .ofOption
    (.format s!"an Ed25519 public key must be 32 bytes, got {publicKey.length}") (Fixed.tryFrom 32 publicKey)
  if ¬C.ed25519Point pk then
    .err (.format "invalid Ed25519 public key (not a curve point)")
  else
    let sig ← .ofOption
      (.format s!"an Ed25519 signature must be 64 bytes, got {signature.length}") (Fixed.tryFrom 64 signature)
    if C.ed25519Holds pk message sig then .ok () else .err .auth

def ecdsaP256Verify (publicSec1 message sigDer : Bytes) : Outcome Error Unit :=
  if ¬C.p256Point publicSec1 then
    .err (.format "invalid P-256 public key (not a SEC1 point)")
  else if ¬C.p256Signature sigDer then
    .err (.format "invalid ECDSA signature (not ASN.1 DER)")
  else if C.p256Holds publicSec1 message sigDer then .ok ()
  else .err .auth

end Krypto.Sign
