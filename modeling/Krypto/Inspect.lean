import Krypto.Aead
import Krypto.Inspect.Files
import Krypto.Inspect.Pgp
import Krypto.Inspect.Pkix
import Krypto.Inspect.Ssh
import Krypto.Store.Format

/-! `inspect`: what a file or a dump is, and how it was made, without a key. -/

namespace Krypto.Inspect
open Effect

def algName (id : UInt8) : Str :=
  if id = 1 then "AEGIS-256"
  else if id = 2 then "XChaCha20-Poly1305"
  else if id = 3 then "AES-256-GCM"
  else "unknown to this krypto"

/-- `input[i]`, where a check before it makes sure that there is one. -/
def byteAt (input : Bytes) (i : Nat) : UInt8 := input.getD i 0

def blob (input : Bytes) : Option Finding :=
  if ¬ascii "FAFN" <+: input then
    none
  else
    let found := Finding.new "krypto blob (krypto::seal)"
    match Aead.blobKeyId input with
    | .ok id => some ((((found.fact "format" (Str.decimal (byteAt input 4).toNat)).fact "algorithm"
        (algName (byteAt input 5))).fact "key id" (Hex.encode id)).fact "bytes"
          (Str.decimal input.length))
    | .err .auth => some { found.fact "header"
        "changed: a format or an algorithm this krypto does not know" with changed := true }
    | _ => some (found.fact "header" "cut short")

def storeEntry (input : Bytes) (pos : Nat) : Option (Bytes × Bytes × Nat) := do
  let nameLen ← leAt input pos 2
  let name ← range input (pos + 2) (pos + 2 + nameLen)
  let lenAt := pos + 2 + nameLen
  let blobLen ← leAt input lenAt 4
  let blob ← range input (lenAt + 4) (lenAt + 4 + blobLen)
  some (name, blob, lenAt + 4 + blobLen)

structure Walk where
  /-- The names as they stand in the file. -/
  names : List Bytes
  algs : List Str
  damaged : Option Nat
  deriving DecidableEq

def Walk.add (w : Walk) (name blob : Bytes) : Walk :=
  let alg := if ascii "FAFN" <+: blob ∧ 5 < blob.length then algName (byteAt blob 5)
    else "not a krypto blob".toList
  { w with names := w.names ++ [name], algs := if alg ∈ w.algs then w.algs else w.algs ++ [alg] }

def walkFrom (input : Bytes) : Nat → Nat → Walk → Walk
  | 0, _, w => w
  | fuel + 1, pos, w =>
    if pos < input.length then
      match storeEntry input pos with
      | none => { w with damaged := some pos }
      | some (name, blob, next) => walkFrom input fuel next (w.add name blob)
    else
      w

def NAMES_SHOWN : Nat := 20

def walkStore (input : Bytes) : Walk :=
  walkFrom input input.length Store.HEADER_LEN { names := [], algs := [], damaged := none }

/-- The names as the report has them: printable, the first few, and how many more. -/
def shownNames (names : List Bytes) : Str :=
  let shown := Str.join ", " ((names.map printable).take NAMES_SHOWN)
  if NAMES_SHOWN < names.length then
    shown ++ ", and ".toList ++ Str.decimal (names.length - NAMES_SHOWN) ++ " more".toList
  else
    shown

def store (input : Bytes) : Option Finding :=
  if ¬ascii "FST1" <+: input then
    none
  else
    let found := Finding.new "krypto store file (krypto::SecretStore)"
    if input.length < Store.HEADER_LEN then
      some (found.fact "header" "cut short")
    else
      let found := (found.fact "format" (Str.decimal (byteAt input 4).toNat)).fact "key id"
        (Hex.encode ((input.drop 21).take 16))
      let w := walkStore input
      let found := found.fact "entries" (Str.decimal w.names.length)
      let found := if w.names = [] then found else
        (found.fact "names" (shownNames w.names)).fact "algorithm" (Str.join ", " w.algs)
      match w.damaged with
      | some pos => some (found.fact "damaged" ("at byte ".toList ++ Str.decimal pos))
      | none => some found

def OID_EC_PUBLIC_KEY : Bytes := [0x06, 0x07, 0x2a, 0x86, 0x48, 0xce, 0x3d, 0x02, 0x01]

def OID_P256 : Bytes := [0x06, 0x08, 0x2a, 0x86, 0x48, 0xce, 0x3d, 0x03, 0x01, 0x07]

def pkcs8P256 (input : Bytes) : Option Finding :=
  let head := input.take 48
  let pkcs8 := input.length < 512 ∧ input.head? = some 0x30 ∧ has head [0x02, 0x01, 0x00]
  if pkcs8 ∧ has head OID_EC_PUBLIC_KEY ∧ has head OID_P256 then
    some ((Finding.new "ECDSA P-256 private key (PKCS#8, DER)").fact "key" "not shown")
  else
    none

/-- E6: an ECDSA signature, DER: SEQUENCE { INTEGER r, INTEGER s }. -/
def derEcdsaSignature (input : Bytes) : Option Finding :=
  match input with
  | 0x30 :: len :: 0x02 :: rLen :: rest =>
    match rest[rLen.toNat]?, rest[rLen.toNat + 1]? with
    | some 0x02, some sLen =>
      if input.length = 2 + len.toNat ∧ len.toNat = 4 + rLen.toNat + sLen.toNat ∧ rLen ≤ 33 ∧
          sLen ≤ 33 then
        some ((Finding.new "ECDSA signature (DER)").fact "curve" "P-256: r and s fit in 32 bytes")
      else
        none
    | _, _ => none
  | _ => none

/-- The costs of a PHC string, each as the last of its name was read. -/
structure Costs where
  m : Option Nat
  t : Option Nat
  p : Option Nat

def Costs.add (c : Costs) (kv : Str) : Option Costs := do
  let (name, v) ← Str.splitOnce "=" kv
  if name = "m".toList then some { c with m := Str.parseU32 v }
  else if name = "t".toList then some { c with t := Str.parseU32 v }
  else if name = "p".toList then some { c with p := Str.parseU32 v }
  else some c

def presetName (m t p : Nat) : Str :=
  if m = 65536 ∧ t = 3 ∧ p = 2 then "interactive"
  else if m = 131072 ∧ t = 3 ∧ p = 3 then "balanced"
  else if m = 262144 ∧ t = 4 ∧ p = 4 then "high"
  else "none of krypto's presets"

def phcArgon2id (text : Str) : Option Finding := do
  let parts := Str.split '$' (← Str.stripPrefix "$argon2id$" text)
  let version ← Str.stripPrefix "v=" (← parts[0]?)
  let costs ← (Str.split ',' (← parts[1]?)).foldlM Costs.add { m := none, t := none, p := none }
  let m ← costs.m
  let t ← costs.t
  let p ← costs.p
  some ((((((Finding.new "password hash (PHC string, Argon2id)").fact "version" version).fact
    "memory" (Str.decimal (m / 1024) ++ " MiB (m=".toList ++ Str.decimal m ++ [')'])).fact
    "iterations" (Str.decimal t)).fact "lanes" (Str.decimal p)).fact "preset" (presetName m t p))

def pemLabels : List (String × String) :=
  [("RSA PRIVATE KEY", "RSA private key (PKCS#1)"),
    ("EC PRIVATE KEY", "EC private key (SEC1)"),
    ("DSA PRIVATE KEY", "DSA private key"),
    ("PRIVATE KEY", "private key (PKCS#8)"),
    ("ENCRYPTED PRIVATE KEY", "encrypted private key (PKCS#8)"),
    ("PUBLIC KEY", "public key (SubjectPublicKeyInfo)"),
    ("CERTIFICATE", "X.509 certificate"),
    ("CERTIFICATE REQUEST", "certificate signing request (PKCS#10)"),
    ("NEW CERTIFICATE REQUEST", "certificate signing request (PKCS#10)"),
    ("X509 CRL", "certificate revocation list (X.509 CRL)"),
    ("PKCS7", "CMS / PKCS#7"),
    ("CMS", "CMS / PKCS#7"),
    ("DH PARAMETERS", "Diffie-Hellman parameters"),
    ("EC PARAMETERS", "EC parameters")]

/-- What a PEM label says the block is, for when its content cannot be read. -/
def pemLabelName (label shown : Str) : Str :=
  match pemLabels.find? fun e => e.1.toList = label with
  | some e => e.2
  | none => "PEM block: ".toList ++ shown

def NOT_RECOGNIZED : Str := "not recognized"

/-- The base64 of a PEM block, its header lines left out. -/
def pemBody (text : Str) : Str :=
  let lines := (Str.lines text).tail.takeWhile fun l => ¬Str.startsWith "-----END" l
  ((lines.filter fun l => ':' ∉ l).map Str.trim).flatten

/-- E5, E6, E7: what krypto makes that only its length tells. -/
def byLength (input : Bytes) : Option Finding :=
  if input.length = 32 then
    some ((Finding.new "32 bytes").fact "could be" (Str.join ""
      ["an Ed25519 or X25519 public key, an Ed25519 seed, an X25519 private key, ".toList,
        "a krypto master key or a SHA-256 hash; the length alone cannot tell them apart".toList]))
  else if input.length = 64 then
    some ((Finding.new "64 bytes").fact "could be"
      "an Ed25519 signature or a SHA-512 hash, or other data")
  else if input.length = 65 ∧ input.head? = some 0x04 then
    some ((Finding.new "ECDSA P-256 public key (SEC1, uncompressed)").fact "note"
      "by its length and first byte only")
  else
    (Formats.hashByLength input.length).map fun hash =>
      (Finding.new (Str.decimal input.length ++ " bytes".toList)).fact "could be" hash

def unknown (lib : Lib) (input : Bytes) : Finding :=
  let kind : String :=
    if (Str.fromUtf8 input).isSome then "text"
    else if 256 ≤ input.length ∧ lib.looksRandom input then
      "binary that looks random: encrypted, compressed or key material"
    else "binary"
  ((Finding.new NOT_RECOGNIZED).fact "bytes" (Str.decimal input.length)).fact "looks like" kind

section Nested
variable (lib : Lib) (inner : Bytes → Nat → Finding)

def pemInner (label : Str) (depth : Nat) (b : Bytes) : Option Finding :=
  if label = "OPENSSH PRIVATE KEY".toList then Ssh.privateKey b
  else if label = "SSH SIGNATURE".toList then Ssh.signature b
  else if label = "RSA PUBLIC KEY".toList then Pkix.pkcs1Public b
  else (some (inner b (depth + 1))).filter fun f => f.what ≠ NOT_RECOGNIZED

def dekInfo (text : Str) : Option Str :=
  ((Str.lines text).findSome? (Str.stripPrefix "DEK-Info: ")).map fun dek =>
    printable (Str.asBytes ((Str.split ',' dek).headD []))

def pem (text : Str) (depth : Nat) : Option Finding := do
  let label := Str.firstPiece "-----" (← Str.stripPrefix "-----BEGIN " text)
  if Str.startsWith "PGP " label then
    Pgp.fromArmor lib text
  else
    let shown := printable label.asBytes
    let found := ((Ssh.decoded (pemBody text)).bind (pemInner inner label depth)).getD
      (Finding.new (pemLabelName label shown))
    some (Formats.member (found.first "wrapped in" ("PEM (".toList ++ shown ++ [')'])) "encrypted"
      (dekInfo text))

/-- E8: hex or base64 as krypto writes them, unwrapped. -/
def unwrapped (text : Str) (depth : Nat) : Option Finding :=
  let hex :=
    if 2 ≤ text.asBytes.length ∧ text.asBytes.all Str.isAsciiHexdigit then
      match Hex.decode (Str.toAsciiLowercase text) with
      | .ok bytes => some (wrapped (inner bytes (depth + 1)) "hex")
      | _ => none
    else
      none
  let base64 :=
    if 8 ≤ text.asBytes.length then
      (Ssh.decoded text).bind fun bytes =>
        let found := inner bytes (depth + 1)
        if found.what ≠ NOT_RECOGNIZED then some (wrapped found "base64") else none
    else
      none
  hex.or base64

def fromString (text : Str) (depth : Nat) : Option Finding :=
  (phcArgon2id text).or <| (pem lib inner text depth).or <| (Ssh.rfc4716 lib text).or <|
    (Ssh.putty text).or <| (Ssh.publicLine lib text).or <| (Formats.fromText lib text).or <|
      if depth < 2 then unwrapped inner text depth else none

def recognizers : List (Bytes → Option Finding) :=
  [blob, store, pkcs8P256, derEcdsaSignature, Files.fromMagic, Pkix.fromDer, Pgp.fromBinary]

/-- What `input` is, when `inner` tells what it wraps. -/
def inspectOne (input : Bytes) (depth : Nat) : Finding :=
  let told := (recognizers.findSome? fun f => f input).or
    (((Str.fromUtf8 input).map Str.trim).bind fun text => fromString lib inner text depth)
  (told.or (byLength input)).getD (unknown lib input)

end Nested

/-- `inspect_at`, where at most `fuel` layers are left to look into. -/
def inspectWith (lib : Lib) : Nat → Bytes → Nat → Finding
  | 0 => fun input _ => unknown lib input
  | fuel + 1 => inspectOne lib (inspectWith lib fuel)

/-- What a layer wraps is shorter than the layer, so there are no more of them than bytes. -/
def inspectAt (lib : Lib) (input : Bytes) (depth : Nat) : Finding :=
  inspectWith lib (input.length + 1) input depth

def inspect (lib : Lib) (input : Bytes) : Finding := inspectAt lib input 0

end Krypto.Inspect
