import Krypto.Base64
import Krypto.Hex
import Krypto.Inspect.Finding

/-! `pgp.rs`: OpenPGP messages, keys and signatures. The packets are walked and
their algorithm IDs named. -/

namespace Krypto.Inspect.Pgp
open Effect

/-- One packet. `body` is `none` for a body of partial length; `head` is the start of the body
either way. -/
structure Packet where
  tag : UInt8
  body : Option Bytes
  head : Bytes
  deriving DecidableEq

def header : Bytes → Option (UInt8 × Option Nat × Bytes)
  | [] => none
  | first :: after =>
    if first &&& 0x80 = 0 then
      none
    else if first &&& 0x40 ≠ 0 then
      let tag := first &&& 0x3f
      match after with
      | [] => none
      | l1 :: after =>
        if l1 ≤ 191 then
          some (tag, some l1.toNat, after)
        else if l1 ≤ 223 then
          match after with
          | [] => none
          | l2 :: after => some (tag, some (((l1.toNat - 192) <<< 8) + l2.toNat + 192), after)
        else if l1 = 255 then
          (beAt after 0 4).map fun n => (tag, some n, after.drop 4)
        else
          some (tag, none, after)
    else
      let tag := (first >>> 2) &&& 0x0f
      let kind := first &&& 3
      if kind = 0 then
        (beAt after 0 1).map fun n => (tag, some n, after.drop 1)
      else if kind = 1 then
        (beAt after 0 2).map fun n => (tag, some n, after.drop 2)
      else if kind = 2 then
        (beAt after 0 4).map fun n => (tag, some n, after.drop 4)
      else
        some (tag, none, after)

def packetsWith : Nat → List Packet → Bytes → Option (List Packet)
  | _, out, [] => some out
  | 0, _, _ :: _ => none
  | fuel + 1, out, b :: input => do
    let (tag, len, after) ← header (b :: input)
    if tag = 0 then
      none
    else
      match len with
      | some len =>
        let body ← range after 0 len
        packetsWith fuel (out ++ [{ tag, body := some body, head := body }]) (after.drop len)
      | none =>
        -- a body without a stated length comes only after a key packet
        if out.any fun p => p.tag = 1 ∨ p.tag = 3 then
          some (out ++ [{ tag, body := none, head := after }])
        else
          none

/-- All packets in `input`, or `none` if it is not a clean packet sequence. -/
def packets (input : Bytes) : Option (List Packet) := do
  let out ← packetsWith input.length [] input
  if out = [] then none else some out

def nameIn (table : List (UInt8 × String)) (what : String) (id : UInt8) : Str :=
  match table.lookup id with
  | some name => name
  | none => what.toList ++ [' '] ++ Str.decimal id.toNat

def publicKeyAlgorithm : UInt8 → Str :=
  nameIn [(1, "RSA"), (2, "RSA"), (3, "RSA"), (16, "Elgamal"), (17, "DSA"), (18, "ECDH"),
    (19, "ECDSA"), (22, "EdDSA (legacy)"), (25, "X25519"), (26, "X448"), (27, "Ed25519"),
    (28, "Ed448")] "algorithm"

def symmetricAlgorithm : UInt8 → Str :=
  nameIn [(0, "none"), (1, "IDEA"), (2, "3DES"), (3, "CAST5"), (4, "Blowfish"), (7, "AES-128"),
    (8, "AES-192"), (9, "AES-256"), (10, "Twofish"), (11, "Camellia-128"), (12, "Camellia-192"),
    (13, "Camellia-256")] "cipher"

def hashAlgorithm : UInt8 → Str :=
  nameIn [(1, "MD5"), (2, "SHA-1"), (3, "RIPEMD-160"), (8, "SHA-256"), (9, "SHA-384"),
    (10, "SHA-512"), (11, "SHA-224"), (12, "SHA3-256"), (14, "SHA3-512")] "hash"

def aeadAlgorithm : UInt8 → Str := nameIn [(1, "EAX"), (2, "OCB"), (3, "GCM")] "AEAD"

def curve (oid : Bytes) : Str :=
  if oid = [0x2b, 0x06, 0x01, 0x04, 0x01, 0xda, 0x47, 0x0f, 0x01] then "Ed25519"
  else if oid = [0x2b, 0x06, 0x01, 0x04, 0x01, 0x97, 0x55, 0x01, 0x05, 0x01] then "Curve25519"
  else if oid = [0x2a, 0x86, 0x48, 0xce, 0x3d, 0x03, 0x01, 0x07] then "P-256"
  else if oid = [0x2b, 0x81, 0x04, 0x00, 0x22] then "P-384"
  else if oid = [0x2b, 0x81, 0x04, 0x00, 0x23] then "P-521"
  else if oid = [0x2b, 0x24, 0x03, 0x03, 0x02, 0x08, 0x01, 0x01, 0x07] then "brainpoolP256r1"
  else "other curve"

def keyDescription (body : Bytes) : Option Str := do
  let version ← body.head?
  if version ≠ 4 ∧ version ≠ 6 then
    some ("key version ".toList ++ Str.decimal version.toNat)
  else
    let alg ← body[5]?
    let material ← range body (if version = 4 then 6 else 10) body.length
    let name := publicKeyAlgorithm alg
    if 1 ≤ alg ∧ alg ≤ 3 then
      let bits ← beAt material 0 2
      some (name ++ [' '] ++ Str.decimal bits ++ " bits".toList)
    else if alg = 18 ∨ alg = 19 ∨ alg = 22 then
      let len ← material.head?
      some (name ++ [' '] ++ curve (← range material 1 (1 + len.toNat)))
    else
      some name

/-- Whether the first packet starts with a version OpenPGP defines, or for compressed data an
algorithm it defines. -/
def knownVersion (p : Packet) : Bool :=
  match p.head with
  | [] => false
  | v :: _ =>
    if p.tag = 1 ∨ p.tag = 4 then v == 3 || v == 6
    else if p.tag = 2 ∨ p.tag = 5 ∨ p.tag = 6 then 3 ≤ v && v ≤ 6
    else if p.tag = 3 then 4 ≤ v && v ≤ 6
    else if p.tag = 8 then v ≤ 3
    else if p.tag = 18 then v == 1 || v == 2
    else if p.tag = 20 then v == 1
    else false

def dataPacket (tag : UInt8) (head : Bytes) : Str :=
  if tag = 18 then
    match head with
    | 2 :: sym :: aead :: _ =>
      symmetricAlgorithm sym ++ " with ".toList ++ aeadAlgorithm aead ++ " (SEIPD v2)".toList
    | _ => "integrity protected with an MDC (SEIPD v1); the cipher is in the session key"
  else if tag = 20 then
    match head with
    | 1 :: sym :: aead :: _ =>
      symmetricAlgorithm sym ++ " with ".toList ++ aeadAlgorithm aead ++
        " (AEAD packet, a GnuPG extension)".toList
    | _ => "AEAD encrypted (a GnuPG extension)"
  else
    "not integrity protected (old SED packet)"

/-- `(16 + (c & 15)) << ((c >> 4) + 6)` -/
def s2kCount (count : UInt8) : UInt32 :=
  let c := count.toUInt32
  (16 + (c &&& 15)) <<< ((c >>> 4) + 6)

def s2k (spec : Bytes) : Str :=
  match spec with
  | 0 :: hash :: _ => "key from the passphrase with ".toList ++ hashAlgorithm hash ++
      " (simple)".toList
  | 1 :: hash :: _ => "key from the passphrase with salted ".toList ++ hashAlgorithm hash
  | 3 :: hash :: rest =>
    -- the pattern takes the last byte there is for the count
    match rest.getLast? with
    | some count =>
      if 11 ≤ spec.length then
        "key from the passphrase with iterated and salted ".toList ++ hashAlgorithm hash ++
          ", ".toList ++ Str.decimal (s2kCount count).toNat ++ " bytes".toList
      else
        "key from the passphrase"
    | none => "key from the passphrase"
  | 4 :: _ => "key from the passphrase with Argon2"
  | _ => "key from the passphrase"

structure Message where
  recipients : List Str
  passphrases : List Str
  data : Option Str

/-- The algorithm and the key of a public-key session key packet; `none` for a version it skips. -/
def recipientText (body : Bytes) : Option (Option Str) := do
  let version ← body.head?
  if version = 3 then
    let alg ← body[9]?
    some (some (publicKeyAlgorithm alg ++ " to key ".toList ++ Hex.encode (← range body 1 9)))
  else if version = 6 then
    let alg ← body[1 + 1 + (← body[1]?).toNat]?
    some (some (publicKeyAlgorithm alg))
  else
    some none

def passphraseText (body : Bytes) : Option (Option Str) := do
  let version ← body.head?
  if version = 4 then
    some (some (symmetricAlgorithm (← body[1]?) ++ ", ".toList ++ s2k (← range body 2 body.length)))
  else if version = 5 ∨ version = 6 then
    let sym ← body[if version = 6 then 2 else 1]?
    let aead ← body[if version = 6 then 3 else 2]?
    some (some (symmetricAlgorithm sym ++ " with ".toList ++ aeadAlgorithm aead))
  else
    some none

def Message.add (m : Message) (p : Packet) : Option Message := do
  match p.body with
  | none =>
    if p.tag = 18 ∨ p.tag = 20 ∨ p.tag = 9 then some { m with data := some (dataPacket p.tag p.head) }
    else some m
  | some body =>
    if p.tag = 1 then
      some { m with recipients := m.recipients ++ (← recipientText body).toList }
    else if p.tag = 3 then
      some { m with passphrases := m.passphrases ++ (← passphraseText body).toList }
    else if p.tag = 18 ∨ p.tag = 20 ∨ p.tag = 9 then
      some { m with data := some (dataPacket p.tag body) }
    else
      some m

def Message.finding (m : Message) : Finding :=
  let found := Finding.new "OpenPGP encrypted message"
  let found := if m.recipients = [] then found else
    found.fact "recipients" (Str.join ", " m.recipients)
  let found := if m.passphrases = [] then found else
    found.fact "passphrase" (Str.join ", " m.passphrases)
  match m.data with
  | some data => found.fact "data" data
  | none => found

def message (packets : List Packet) : Option Finding := do
  let m ← packets.foldlM Message.add { recipients := [], passphrases := [], data := none }
  some m.finding

def signature (packets : List Packet) : Option Finding := do
  let body ← (← packets.find? fun p => p.tag = 2).body
  let version ← body.head?
  if version = 3 then
    let alg ← body[15]?
    let hash ← body[16]?
    some (((Finding.new "OpenPGP signature").fact "algorithm" (publicKeyAlgorithm alg)).fact
      "hash" (hashAlgorithm hash))
  else if version = 4 ∨ version = 6 then
    let alg ← body[2]?
    let hash ← body[3]?
    some (((Finding.new "OpenPGP signature").fact "algorithm" (publicKeyAlgorithm alg)).fact
      "hash" (hashAlgorithm hash))
  else
    some ((Finding.new "OpenPGP signature").fact "version" (Str.decimal version.toNat))

def key (packets : List Packet) : Option Finding := do
  let first ← packets.head?
  let secret := first.tag = 5
  let primary ← keyDescription (← first.body)
  let subkeys := (packets.filter fun p => p.tag = 14 ∨ p.tag = 7).filterMap
    fun p => p.body.bind keyDescription
  let userIds := (packets.filter fun p => p.tag = 13).length
  let found := (Finding.new (if secret then "OpenPGP private key" else "OpenPGP public key")).fact
    "primary key" primary
  let found := if subkeys = [] then found else found.fact "subkeys" (Str.join ", " subkeys)
  let found := found.fact "user ids" (Str.decimal userIds)
  if secret then some (found.fact "key" "not shown") else some found

def fromBinary (input : Bytes) : Option Finding := do
  let packets ← packets input
  let first ← packets.head?
  if ¬knownVersion first then none
  else if first.tag = 1 ∨ first.tag = 3 ∨ first.tag = 18 ∨ first.tag = 20 then message packets
  else if first.tag = 2 ∨ first.tag = 4 then signature packets
  else if first.tag = 5 ∨ first.tag = 6 then key packets
  else if first.tag = 8 then some (Finding.new "OpenPGP compressed data")
  else none

/-- The base64 of an armored block: from its first blank line to the checksum or the end line. -/
def armorBody (text : Str) : Str :=
  let lines := (Str.lines text).tail.dropWhile fun l => Str.trim l ≠ []
  (lines.takeWhile fun l => ¬Str.startsWith "=" l ∧ ¬Str.startsWith "-----END" l).flatten

def fromArmor (lib : Lib) (text : Str) : Option Finding := do
  let label := Str.firstPiece "-----" (← Str.stripPrefix "-----BEGIN PGP " text)
  let inner := match Base64.decode (Str.trim (armorBody text)) with
    | .ok b => fromBinary b
    | _ => none
  let found := inner.getD (Finding.new ("OpenPGP ".toList ++ lib.toLowercase label))
  some (found.first "wrapped in" ("ASCII armor (PGP ".toList ++ label ++ [')']))

end Krypto.Inspect.Pgp
