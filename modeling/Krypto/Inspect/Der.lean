import Krypto.Inspect.Finding

/-! `der.rs`: just enough DER to tell what a structure is and which algorithms
it names. -/

namespace Krypto.Inspect.Der
open Effect

structure Tlv where
  tag : UInt8
  body : Bytes
  deriving DecidableEq

def takeBody (tag : UInt8) (len : Nat) (rest : Bytes) : Option (Tlv × Bytes) :=
  if rest.length < len then none else some (⟨tag, rest.take len⟩, rest.drop len)

def read : Bytes → Option (Tlv × Bytes)
  | tag :: first :: rest =>
    if first < 0x80 then
      takeBody tag first.toNat rest
    else
      let n := (first &&& 0x7f).toNat
      if n = 0 ∨ 4 < n ∨ rest.length < n then
        none
      else
        takeBody tag ((rest.take n).foldl (fun acc b => (acc <<< 8) ||| b.toNat) 0) (rest.drop n)
  | _ => none

def whole (input : Bytes) : Option Tlv := do
  let (tlv, rest) ← read input
  if rest = [] then some tlv else none

def childrenWith : Nat → Bytes → Option (List Tlv)
  | _, [] => some []
  | 0, _ :: _ => none
  | fuel + 1, b :: input => do
    let (tlv, next) ← read (b :: input)
    let more ← childrenWith fuel next
    some (tlv :: more)

def children (body : Bytes) : Option (List Tlv) := childrenWith body.length body

def SEQUENCE : UInt8 := 0x30

def SET : UInt8 := 0x31

def INTEGER : UInt8 := 0x02

def BIT_STRING : UInt8 := 0x03

def OCTET_STRING : UInt8 := 0x04

def OID : UInt8 := 0x06

structure OidReader where
  parts : List UInt64
  value : UInt64

namespace OidReader

def start : OidReader := { parts := [], value := 0 }

def shifted (r : OidReader) (b : UInt8) : UInt64 := (r.value <<< 7) ||| (b &&& 0x7f).toUInt64

/-- The arc before the first dot, when the first subidentifier ends at byte `i`. -/
def firstArc (i : Nat) (value : UInt64) : UInt64 := if i = 0 ∧ value < 80 then value / 40 else 2

/-- One turn of the loop. The subtraction is that of a release build, which wraps. -/
def feed (r : OidReader) (i : Nat) (b : UInt8) : OidReader :=
  let value := r.shifted b
  if b &&& 0x80 = 0 then
    if r.parts = [] then
      { parts := [firstArc i value, value - firstArc i value * 40], value := 0 }
    else
      { parts := r.parts ++ [value], value := 0 }
  else
    { r with value }

end OidReader

def oidFrom : Nat → OidReader → Bytes → OidReader
  | _, r, [] => r
  | i, r, b :: body => oidFrom (i + 1) (r.feed i b) body

def oidText (body : Bytes) : Str :=
  Str.join "." ((oidFrom 0 .start body).parts.map fun n => Str.decimal n.toNat)

def oidNames : List (String × String) :=
  [("1.2.840.113549.1.1.1", "RSA"),
    ("1.2.840.113549.1.1.5", "RSA with SHA-1"),
    ("1.2.840.113549.1.1.10", "RSA-PSS"),
    ("1.2.840.113549.1.1.11", "RSA with SHA-256"),
    ("1.2.840.113549.1.1.12", "RSA with SHA-384"),
    ("1.2.840.113549.1.1.13", "RSA with SHA-512"),
    ("1.2.840.113549.1.1.7", "RSA-OAEP"),
    ("1.2.840.10040.4.1", "DSA"),
    ("1.2.840.10045.2.1", "EC"),
    ("1.2.840.10045.3.1.7", "P-256"),
    ("1.3.132.0.34", "P-384"),
    ("1.3.132.0.35", "P-521"),
    ("1.3.132.0.10", "secp256k1"),
    ("1.3.36.3.3.2.8.1.1.7", "brainpoolP256r1"),
    ("1.2.840.10045.4.1", "ECDSA with SHA-1"),
    ("1.2.840.10045.4.3.2", "ECDSA with SHA-256"),
    ("1.2.840.10045.4.3.3", "ECDSA with SHA-384"),
    ("1.2.840.10045.4.3.4", "ECDSA with SHA-512"),
    ("1.3.101.110", "X25519"),
    ("1.3.101.111", "X448"),
    ("1.3.101.112", "Ed25519"),
    ("1.3.101.113", "Ed448"),
    ("1.2.840.113549.1.5.13", "PBES2"),
    ("1.2.840.113549.1.5.12", "PBKDF2"),
    ("1.3.6.1.4.1.11591.4.11", "scrypt"),
    ("1.2.840.113549.2.7", "HMAC-SHA1"),
    ("1.2.840.113549.2.9", "HMAC-SHA256"),
    ("1.2.840.113549.2.10", "HMAC-SHA384"),
    ("1.2.840.113549.2.11", "HMAC-SHA512"),
    ("2.16.840.1.101.3.4.1.2", "AES-128-CBC"),
    ("2.16.840.1.101.3.4.1.22", "AES-192-CBC"),
    ("2.16.840.1.101.3.4.1.42", "AES-256-CBC"),
    ("2.16.840.1.101.3.4.1.6", "AES-128-GCM"),
    ("2.16.840.1.101.3.4.1.26", "AES-192-GCM"),
    ("2.16.840.1.101.3.4.1.46", "AES-256-GCM"),
    ("2.16.840.1.101.3.4.1.5", "AES-128 key wrap"),
    ("2.16.840.1.101.3.4.1.45", "AES-256 key wrap"),
    ("1.2.840.113549.3.7", "3DES-CBC"),
    ("1.2.840.113549.1.12.1.3", "PBE with SHA-1 and 3DES-CBC (legacy)"),
    ("1.2.840.113549.1.12.1.6", "PBE with SHA-1 and 40-bit RC2-CBC (legacy, weak)"),
    ("1.3.14.3.2.26", "SHA-1"),
    ("2.16.840.1.101.3.4.2.1", "SHA-256"),
    ("2.16.840.1.101.3.4.2.2", "SHA-384"),
    ("2.16.840.1.101.3.4.2.3", "SHA-512"),
    ("1.2.840.113549.1.7.1", "data"),
    ("1.2.840.113549.1.7.2", "signed data"),
    ("1.2.840.113549.1.7.3", "enveloped data"),
    ("1.2.840.113549.1.7.6", "encrypted data"),
    ("1.2.840.113549.1.9.16.1.23", "authenticated enveloped data"),
    ("1.2.840.113549.1.12.10.1.1", "key bag"),
    ("1.2.840.113549.1.12.10.1.2", "encrypted key bag"),
    ("1.2.840.113549.1.12.10.1.3", "certificate bag")]

def oidName (dotted : Str) : Option Str :=
  (oidNames.find? fun e => e.1.toList = dotted).map fun e => e.2.toList

/-- An OID element as a name, or as dotted text when it is not one we know. -/
def nameOf (tlv : Tlv) : Str :=
  let dotted := oidText tlv.body
  (oidName dotted).getD dotted

def algorithm (tlv : Tlv) : Option (Tlv × Option Tlv) := do
  if tlv.tag ≠ SEQUENCE then
    none
  else
    let parts ← children tlv.body
    let oid ← parts.head?.filter fun t => t.tag = OID
    some (oid, parts[1]?)

def leadingZeros (b : UInt8) : Nat := if b = 0 then 8 else 7 - b.toNat.log2

def integerBits (body : Bytes) : Nat :=
  match body.dropWhile (· = 0) with
  | [] => 0
  | b :: rest => (rest.length + 1) * 8 - leadingZeros b

def rsaBits (key : Bytes) : Option Nat := do
  let seq ← (whole key).filter fun t => t.tag = SEQUENCE
  let parts ← children seq.body
  let n ← match parts with
    | [n, e] =>
      -- two elements are never the nine of a private key
      if n.tag = INTEGER ∧ e.tag = INTEGER then some n else none
    | v :: n :: _ => if v.tag = INTEGER ∧ v.body = [0] ∧ 9 ≤ parts.length then some n else none
    | _ => none
  if n.tag = INTEGER then some (integerBits n.body) else none

/-- A key's algorithm, told from its AlgorithmIdentifier and, for RSA, the key itself. -/
def keyAlgorithm (alg : Tlv) (key : Option Bytes) : Option Str := do
  let (oid, params) ← algorithm alg
  let name := nameOf oid
  if name = "EC".toList then
    match params.filter fun p => p.tag = OID with
    | some curve => some ("EC ".toList ++ nameOf curve)
    | none => some "EC".toList
  else if name = "RSA".toList then
    match key.bind rsaBits with
    | some bits => some ("RSA ".toList ++ Str.decimal bits ++ " bits".toList)
    | none => some "RSA".toList
  else
    some name

end Krypto.Inspect.Der
