import Krypto.Base64
import Krypto.Inspect.Der

/-! `ssh.rs`: OpenSSH private keys, public keys, signatures, and PuTTY keys. -/

namespace Krypto.Inspect.Ssh
open Effect

/-- An SSH wire string: a u32 length and the bytes. -/
def string (input : Bytes) : Option (Bytes × Bytes) := do
  let len ← beAt input 0 4
  let s ← range input 4 (4 + len)
  some (s, input.drop (4 + len))

def keyType (blob : Bytes) : Option Str := do
  let (kind, rest) ← string blob
  let kind ← Str.fromUtf8 kind
  if kind = "ssh-rsa".toList then
    let (_, rest) ← string rest
    let (n, _) ← string rest
    some ("ssh-rsa, RSA ".toList ++ Str.decimal (Der.integerBits n) ++ " bits".toList)
  else
    some kind

def fingerprint (lib : Lib) (blob : Bytes) : Str :=
  "SHA256:".toList ++ Base64.encodeNopad (lib.sha256 blob)

def KEY_TYPES : List String :=
  ["ssh-ed25519", "ssh-rsa", "ssh-dss", "ecdsa-sha2-nistp256", "ecdsa-sha2-nistp384",
    "ecdsa-sha2-nistp521", "sk-ssh-ed25519@openssh.com", "sk-ecdsa-sha2-nistp256@openssh.com",
    "ssh-ed448"]

def decoded (s : Str) : Option Bytes :=
  match Base64.decode s with
  | .ok b => some b
  | _ => none

def publicKey (lib : Lib) (what : String) (blob : Bytes) : Option Finding := do
  let kind ← keyType blob
  some (((Finding.new what).fact "algorithm" kind).fact "fingerprint" (fingerprint lib blob))

def publicLine (lib : Lib) (text : Str) : Option Finding := do
  let parts := Str.splitWhitespace text
  let kind ← parts.head?
  if kind ∉ KEY_TYPES.map String.toList then
    none
  else
    publicKey lib "OpenSSH public key" (← decoded (← parts[1]?))

/-- The base64 of an RFC 4716 key: headers, and the lines that continue them, are left out. -/
def rfc4716Body : Bool → List Str → Str
  | _, [] => []
  | continued, line :: rest =>
    if Str.startsWith "---- END" line then []
    else if continued ∨ ':' ∈ line then rfc4716Body (line.getLast? = some '\\') rest
    else Str.trim line ++ rfc4716Body false rest

/-- RFC 4716: `---- BEGIN SSH2 PUBLIC KEY ----`, headers, base64, end line. -/
def rfc4716 (lib : Lib) (text : Str) : Option Finding := do
  if ¬Str.startsWith "---- BEGIN SSH2 PUBLIC KEY ----" text then
    none
  else
    publicKey lib "SSH2 public key (RFC 4716)" (← decoded (rfc4716Body false (Str.lines text).tail))

def stripMagic (magic body : Bytes) : Option Bytes := magic.isPrefixOf? body

/-- `openssh-key-v1`: cipher, KDF, then the public key of each key. -/
def privateKey (body : Bytes) : Option Finding := do
  let rest ← stripMagic (ascii "openssh-key-v1\x00") body
  let (cipher, rest) ← string rest
  let (kdf, rest) ← string rest
  let (_, rest) ← string rest
  let count ← beAt rest 0 4
  let (public', _) ← string (rest.drop 4)
  let cipher := Str.fromUtf8Lossy cipher
  let encrypted := if cipher = "none".toList then "no".toList else
    cipher ++ ", key from ".toList ++ Str.fromUtf8Lossy kdf
  let kind ← keyType public'
  some (((((Finding.new "OpenSSH private key").fact "algorithm" kind).fact "keys"
    (Str.decimal count)).fact "encrypted" encrypted).fact "key" "not shown")

/-- `SSHSIG`: version, public key, namespace, reserved, hash, signature. -/
def signature (body : Bytes) : Option Finding := do
  let rest ← stripMagic (ascii "SSHSIG") body
  let version ← beAt rest 0 4
  let (public', rest) ← string (rest.drop 4)
  let (namespace', rest) ← string rest
  let (_, rest) ← string rest
  let (hash, _) ← string rest
  let kind ← keyType public'
  some (((((Finding.new "SSH signature (ssh-keygen -Y sign)").fact "version"
    (Str.decimal version)).fact "algorithm" kind).fact "hash" (Str.fromUtf8Lossy hash)).fact
      "namespace" (printable namespace'))

def puttyField (text : Str) (name : String) : Option Str :=
  ((Str.lines text).findSome? (Str.stripPrefix name)).map Str.trim

/-- PuTTY: `PuTTY-User-Key-File-2: ssh-rsa`, then `Encryption:` and, in version 3,
`Key-Derivation:`. -/
def putty (text : Str) : Option Finding := do
  let (head, kind) ← Str.splitOnce ": " (← (Str.lines text).head?)
  let version ← Str.stripPrefix "PuTTY-User-Key-File-" head
  let found := ((Finding.new "PuTTY private key (.ppk)").fact "version"
    (printable version.asBytes)).fact "algorithm" (printable kind.asBytes)
  let found := match puttyField text "Encryption:" with
    | some enc => found.fact "encrypted" (if enc = "none".toList then "no" else printable enc.asBytes)
    | none => found
  let found := match puttyField text "Key-Derivation:" with
    | some kdf => found.fact "key from" (printable kdf.asBytes)
    | none => found
  some (found.fact "key" "not shown")

end Krypto.Inspect.Ssh
