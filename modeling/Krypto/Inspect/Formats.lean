import Krypto.Base64
import Krypto.Inspect.Finding

/-! `text.rs`: formats that are text, from password hashes to tokens and
fingerprints. -/

namespace Krypto.Inspect.Formats
open Effect

def jsonString (json : Str) (key : String) : Option Str := do
  let (_, rest) ← Str.splitOnce ("\"" ++ key ++ "\"") json
  let rest := Str.trimStart (← Str.stripPrefix ":" (Str.trimStart rest))
  let (value, _) ← Str.splitOnce "\"" (← Str.stripPrefix "\"" rest)
  some (printable value.asBytes)

def base64url (text : Str) : Option Bytes :=
  let standard := text.map fun c => if c = '-' then '+' else if c = '_' then '/' else c
  match Base64.decodeNopad (standard.rdropWhile (· = '=')) with
  | .ok b => some b
  | _ => none

def field (rest : Str) : Str := printable (Str.asBytes ((Str.split '$' rest).headD []))

def passwordHash (what : Str) : Finding :=
  Finding.new ("password hash (".toList ++ what ++ [')'])

def named (table : List (String × String)) (text : Str) : Option (Str × Str) :=
  table.findSome? fun e => (Str.stripPrefix e.1 text).map fun rest => (rest, e.2.toList)

/-- `$pbkdf2-<hash>$<rounds>$…` -/
def pbkdf2 (lib : Lib) (rest : Str) : Option Finding := do
  let (hash, rest) ← Str.splitOnce "$" rest
  some ((passwordHash ("PBKDF2-".toList ++ printable (lib.toUppercase hash).asBytes)).fact
    "iterations" (field rest))

def crypt : List (String × String) :=
  [("$1$", "MD5-crypt, weak"), ("$apr1$", "Apache MD5, weak"), ("$5$", "SHA-256-crypt"),
    ("$6$", "SHA-512-crypt"), ("$y$", "yescrypt"), ("$gy$", "gost-yescrypt"),
    ("$7$", "scrypt (crypt)")]

def cryptFinding (text name : Str) : Finding :=
  let found := passwordHash name
  match (Str.split '$' text)[2]?.bind (Str.stripPrefix "rounds=") with
  | some r => found.fact "rounds" (printable r.asBytes)
  | none => found

def django : List (String × String) :=
  [("pbkdf2_sha256$", "Django, pbkdf2_sha256"), ("pbkdf2_sha1$", "Django, pbkdf2_sha1"),
    ("argon2$", "Django, argon2"), ("bcrypt_sha256$", "Django, bcrypt_sha256"),
    ("scrypt$", "Django, scrypt")]

def djangoFinding (text rest name : Str) : Finding :=
  let found := passwordHash name
  if Str.startsWith "pbkdf2" text then found.fact "iterations" (field rest) else found

def ldap : List (String × String) :=
  [("{SSHA512}", "LDAP, salted SHA-512"), ("{SSHA256}", "LDAP, salted SHA-256"),
    ("{SSHA}", "LDAP, salted SHA-1"), ("{SHA}", "LDAP, SHA-1, unsalted"),
    ("{SMD5}", "LDAP, salted MD5"), ("{MD5}", "LDAP, MD5, unsalted"), ("{CRYPT}", "LDAP, crypt")]

def bcrypt : List (String × String) :=
  [("$2a$", "bcrypt"), ("$2b$", "bcrypt"), ("$2y$", "bcrypt"), ("$2x$", "bcrypt")]

def isMysql (text : Str) : Bool :=
  text.asBytes.length = 41 ∧ Str.startsWith "*" text ∧ (Str.asBytes text.tail).all Str.isAsciiHexdigit

def passwordHashes (lib : Lib) (text : Str) : Option Finding :=
  match named [("$argon2i$", "PHC string, Argon2i"), ("$argon2d$", "PHC string, Argon2d")] text with
  | some (rest, what) => some ((passwordHash what).fact "parameters"
      (printable (Str.asBytes ((Str.split '$' rest)[1]?.getD []))))
  | none =>
  match Str.stripPrefix "$scrypt$" text with
  | some rest => some ((passwordHash "PHC string, scrypt").fact "parameters" (field rest))
  | none =>
  match Str.stripPrefix "$pbkdf2-" text with
  | some rest => pbkdf2 lib rest
  | none =>
  match named bcrypt text with
  | some (rest, name) => some ((passwordHash name).fact "cost" (field rest))
  | none =>
  match named crypt text with
  | some (_, name) => some (cryptFinding text name)
  | none =>
  match named django text with
  | some (rest, name) => some (djangoFinding text rest name)
  | none =>
  match named ldap text with
  | some (_, name) => some (passwordHash name)
  | none =>
  if isMysql text then some (passwordHash "MySQL, SHA-1 of SHA-1, unsalted") else none

/-- age: `age-encryption.org/v1`, then one stanza per recipient. -/
def age (text : Str) : Option Finding :=
  if ¬Str.startsWith "age-encryption.org/v1" text then
    none
  else
    let recipients := ((Str.lines text).filterMap (Str.stripPrefix "-> ")).map fun l =>
      printable (Str.asBytes ((Str.splitWhitespace l).headD []))
    some (((Finding.new "age encrypted file").fact "recipients"
      (if recipients = [] then "none" else Str.join ", " recipients)).fact "cipher"
        "ChaCha20-Poly1305 (STREAM), file key from the recipients")

def ageKey (text : Str) : Option Finding :=
  if Str.startsWith "AGE-SECRET-KEY-1" text ∨
      (Str.lines text).any (Str.startsWith "AGE-SECRET-KEY-1") then
    some (((Finding.new "age identity").fact "algorithm" "X25519").fact "key" "not shown")
  else if Str.startsWith "AGE-PLUGIN-" text then
    some ((Finding.new "age plugin identity").fact "key" "not shown")
  else if Str.startsWith "age1" text ∧ 62 ≤ text.asBytes.length ∧ ¬text.any Str.isWhitespace then
    some ((Finding.new "age recipient").fact "algorithm" "X25519 public key")
  else
    none

/-- minisign and signify: an `untrusted comment:` line, then base64 that starts with the
algorithm. -/
def minisign (text : Str) : Option Finding := do
  let lines := Str.lines text
  let comment ← Str.stripPrefix "untrusted comment: " (← lines.head?)
  let data ← match Base64.decode (Str.trim (← lines[1]?)) with
    | .ok b => some b
    | _ => none
  let tool := if Str.contains "signify" comment then "signify" else "minisign"
  let head ← range data 0 2
  let kind ←
    if head = ascii "Ed" ∧ data.length = 42 then some "public key"
    else if (head = ascii "Ed" ∨ head = ascii "ED") ∧ data.length = 74 then some "signature"
    else if head = ascii "Ed" then some "secret key"
    else none
  let algorithm := if head = ascii "ED" then "Ed25519 over BLAKE2b-512" else "Ed25519"
  let found := (Finding.new (tool.toList ++ [' '] ++ kind.toList)).fact "algorithm" algorithm
  if kind = "secret key" then some (found.fact "key" "not shown") else some found

def ansibleVault (text : Str) : Option Finding := do
  let header ← Str.stripPrefix "$ANSIBLE_VAULT;" (← (Str.lines text).head?)
  let parts := Str.split ';' header
  let version ← parts.head?
  let cipher := parts[1]?.getD []
  some (((Finding.new "Ansible Vault").fact "version" (printable version.asBytes)).fact "cipher"
    (if cipher = "AES256".toList then "AES-256-CTR with HMAC-SHA256, key from PBKDF2-SHA256"
      else printable (Str.asBytes cipher)))

def sops (text : Str) : Option Finding :=
  if ¬Str.contains "ENC[AES256_GCM,data:" text ∨ ¬Str.contains "sops" text then
    none
  else
    let keys := ["age", "pgp", "kms", "gcp_kms", "azure_kv", "hc_vault"].filter fun k =>
      Str.contains ("\"" ++ k ++ "\"") text || Str.contains (k ++ ":") text
    let found := (Finding.new "SOPS encrypted file").fact "cipher" "AES-256-GCM for each value"
    if keys = [] then some found
    else some (found.fact "data key held by" (Str.join ", " (keys.map String.toList)))

def sigstore (text : Str) : Option Finding := do
  let media ← jsonString text "mediaType"
  if Str.startsWith "application/vnd.dev.sigstore.bundle" media then
    some ((Finding.new "Sigstore bundle").fact "media type" media)
  else
    none

def member (found : Finding) (name : String) (value : Option Str) : Finding :=
  match value with
  | some value => found.fact name value
  | none => found

def jwk (text : Str) : Option Finding := do
  if ¬Str.startsWith "\x7b" text ∨ ¬Str.contains "\"kty\"" text then
    none
  else
    let kty ← jsonString text "kty"
    let what := if Str.contains "\"keys\"" text then "JSON Web Key Set" else "JSON Web Key"
    let found := (Finding.new what).fact "key type" kty
    let found := member found "curve" (jsonString text "crv")
    let found := member found "algorithm" (jsonString text "alg")
    if Str.contains "\"d\"" text ∨ Str.contains "\"k\"" text then
      some (found.fact "private" "yes; the key is not shown")
    else
      some found

def pasetoAlgorithms : List ((String × String) × String) :=
  [(("v1", "local"), "AES-256-CTR with HMAC-SHA384"), (("v1", "public"), "RSA-PSS with SHA-384"),
    (("v2", "local"), "XChaCha20-Poly1305"), (("v2", "public"), "Ed25519"),
    (("v3", "local"), "AES-256-CTR with HMAC-SHA384"), (("v3", "public"), "ECDSA P-384"),
    (("v4", "local"), "XChaCha20 with BLAKE2b-MAC"), (("v4", "public"), "Ed25519")]

def paseto (text : Str) : Option Finding := do
  let parts := Str.split '.' text
  let version ← parts[0]?
  let purpose ← parts[1]?
  let e ← pasetoAlgorithms.find? fun e => e.1.1.toList = version ∧ e.1.2.toList = purpose
  some ((Finding.new ("PASETO ".toList ++ version ++ ['.'] ++ purpose ++ " token".toList)).fact
    "algorithm" e.2)

def jose (text : Str) : Option Finding := do
  let parts := Str.split '.' text
  if parts.length ≠ 3 ∧ parts.length ≠ 5 then
    none
  else
    let header ← Str.fromUtf8 (← base64url (← parts[0]?))
    let alg ← jsonString header "alg"
    let found :=
      if parts.length = 5 then
        ((Finding.new "JWE (JSON Web Encryption)").fact "key management" alg).fact "content"
          ((jsonString header "enc").getD "unknown".toList)
      else if alg = "none".toList then
        (Finding.new "JWT/JWS").fact "algorithm" "none: not signed"
      else
        (Finding.new "JWT/JWS").fact "algorithm" alg
    some (member found "key id" (jsonString header "kid"))

def dateTime (seconds : Nat) : Str :=
  let days : Int := ((seconds / 86400 : Nat) : Int)
  let rem := seconds % 86400
  let z := days + 719468
  let era := z / 146097
  let doe := z - era * 146097
  let yoe := (doe - doe / 1460 + doe / 36524 - doe / 146096) / 365
  let doy := doe - (365 * yoe + yoe / 4 - yoe / 100)
  let mp := (5 * doy + 2) / 153
  let day := doy - (153 * mp + 2) / 5 + 1
  let month := if mp < 10 then mp + 3 else mp - 9
  let year := yoe + era * 400 + (if month ≤ 2 then 1 else 0)
  Str.padded 4 year.toNat ++ ['-'] ++ Str.padded 2 month.toNat ++ ['-'] ++ Str.padded 2 day.toNat ++
    [' '] ++ Str.padded 2 (rem / 3600) ++ [':'] ++ Str.padded 2 (rem % 3600 / 60) ++ [':'] ++
    Str.padded 2 (rem % 60) ++ " UTC".toList

/-- Fernet: base64url of 0x80, a timestamp, an IV, the ciphertext and a MAC. -/
def fernet (text : Str) : Option Finding := do
  if ¬Str.startsWith "gAAAAA" text then
    none
  else
    let data ← base64url text
    if data.head? ≠ some 0x80 ∨ data.length < 57 then
      none
    else
      let seconds ← beAt data 1 8
      some (((Finding.new "Fernet token").fact "algorithm" "AES-128-CBC with HMAC-SHA256").fact
        "made" (dateTime seconds))

def trimStartMatchesWith (pat : String) : Nat → Str → Str
  | 0, s => s
  | fuel + 1, s =>
    match Str.stripPrefix pat s with
    | some rest => trimStartMatchesWith pat fuel rest
    | none => s

/-- `trim_start_matches`, of a pattern that is not empty. -/
def trimStartMatches (pat : String) (s : Str) : Str := trimStartMatchesWith pat s.length s

def isHex (n : Nat) (p : Str) : Bool :=
  p.asBytes.length = n ∧ p.asBytes.all Str.isAsciiHexdigit

/-- `SHA256:` and what the unpadded base64 of 32 bytes looks like. -/
def isSshFingerprint (text : Str) : Bool :=
  match Str.stripPrefix "SHA256:" text with
  | some rest =>
    match Base64.decodeNopad rest with
    | .ok _ => rest.asBytes.length = 43
    | _ => false
  | none => false

def fingerprint (text : Str) : Option Finding :=
  if isSshFingerprint text then
    some ((Finding.new "SSH key fingerprint").fact "hash" "SHA-256")
  else
    let pairs := Str.split ':' (trimStartMatches "MD5:" text)
    if pairs.length = 16 ∧ pairs.all (isHex 2) then
      some ((Finding.new "SSH key fingerprint").fact "hash" "MD5 (old form)")
    else
      let groups := Str.splitWhitespace text
      if groups.length = 10 ∧ groups.all (isHex 4) then
        some ((Finding.new "OpenPGP v4 key fingerprint").fact "hash" "SHA-1")
      else
        none

def hashByLength (len : Nat) : Option String :=
  if len = 16 then some "an MD5 or NTLM hash, or a 128-bit key"
  else if len = 20 then some "a SHA-1 or RIPEMD-160 hash"
  else if len = 28 then some "a SHA-224 hash"
  else if len = 32 then some "a SHA-256 hash"
  else if len = 48 then some "a SHA-384 hash"
  else if len = 64 then some "a SHA-512 hash"
  else none

def formats (lib : Lib) : List (Str → Option Finding) :=
  [passwordHashes lib, age, ageKey, minisign, ansibleVault, sops, sigstore, jwk, paseto, jose,
    fernet, fingerprint]

def fromText (lib : Lib) (text : Str) : Option Finding := (formats lib).findSome? fun f => f text

end Krypto.Inspect.Formats
