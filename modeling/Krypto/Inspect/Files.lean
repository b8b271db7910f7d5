import Krypto.Inspect.Formats

/-! `files.rs`: files told by their magic bytes. -/

namespace Krypto.Inspect.Files
open Effect

def compressed (what : String) : Finding :=
  (Finding.new (what.toList ++ " compressed data".toList)).fact "encrypted" "no"

def javaKeystore (input : Bytes) (what protection : String) : Finding :=
  let found := Finding.new what
  let found := match beAt input 4 4, beAt input 8 4 with
    | some version, some entries =>
      (found.fact "version" (Str.decimal version)).fact "entries" (Str.decimal entries)
    | _, _ => found
  found.fact "protection" protection

structure Kdbx where
  cipher : Option String
  kdf : Option String
  deriving DecidableEq

def Kdbx.add (wide : Bool) (k : Kdbx) (id : UInt8) (data : Bytes) : Kdbx :=
  if id = 2 then
    { k with cipher := some <|
        if [0x31, 0xc1, 0xf2, 0xe6] <+: data then "AES-256-CBC"
        else if [0xd6, 0x03, 0x8a, 0x2b] <+: data then "ChaCha20"
        else if [0xad, 0x68, 0xf2, 0x9f] <+: data then "Twofish"
        else "unknown" }
  else if id = 11 then
    { k with kdf := some <|
        if has data [0xc9, 0xd9, 0xf3, 0x9a] then "AES-KDF"
        else if has data [0xef, 0x63, 0x6d, 0xdf] then "Argon2d"
        else if has data [0x9e, 0x29, 0x8b, 0x19] then "Argon2id"
        else "unknown" }
  else if id = 6 ∧ ¬wide then
    { k with kdf := some "AES-KDF" }
  else
    k

def keepassFields (wide : Bool) (input : Bytes) : Nat → Nat → Kdbx → Kdbx
  | 0, _, k => k
  | fuel + 1, pos, k =>
    match input[pos]? with
    | none => k
    | some id =>
      let (len, dataAt) := if wide then (leAt input (pos + 1) 4, pos + 5)
        else (leAt input (pos + 1) 2, pos + 3)
      match len.bind fun len => range input dataAt (dataAt + len) with
      | none => k
      | some data =>
        if id = 0 then k
        else keepassFields wide input fuel (dataAt + data.length) (k.add wide id data)

/-- KeePass KDBX: the version, then header fields; the cipher is field 2 and the key derivation
field 11 (KDBX 4) or 6 (KDBX 3, AES-KDF). -/
def keepass (input : Bytes) : Finding :=
  let minor := leAt input 8 2
  let major := leAt input 10 2
  let found := Finding.new "KeePass database (KDBX)"
  let found := match major, minor with
    | some major, some minor => found.fact "version" (Str.decimal major ++ ['.'] ++ Str.decimal minor)
    | _, _ => found
  let wide := match major with
    | some m => decide (4 ≤ m)
    | none => false
  let k := keepassFields wide input input.length 12 { cipher := none, kdf := none }
  let found := match k.cipher with
    | some cipher => found.fact "cipher" cipher
    | none => found
  match k.kdf with
  | some kdf => found.fact "key from" kdf
  | none => found

def luksField (input : Bytes) (i j : Nat) : Option Str :=
  (range input i j).map fun b => printable (b.takeWhile (· ≠ 0))

/-- LUKS: version 1 names its cipher in the header; version 2 in its JSON area. -/
def luks (input : Bytes) : Finding :=
  let version := beAt input 6 2
  let found := Finding.new "LUKS encrypted disk"
  if version = some 1 then
    let found := found.fact "version" "1"
    let found := match luksField input 8 40, luksField input 40 72 with
      | some name, some mode => found.fact "cipher" (name ++ ['-'] ++ mode)
      | _, _ => found
    Formats.member found "hash" (luksField input 72 104)
  else if version = some 2 then
    let found := found.fact "version" "2"
    let json := Str.fromUtf8Lossy ((range input 4096 (min input.length (4096 + 12288))).getD [])
    let found := Formats.member found "cipher" (Formats.jsonString json "encryption")
    let kdf := (Str.splitOnce "\"kdf\"" json).bind fun (_, rest) =>
      Formats.jsonString ("\"kdf\"".toList ++ rest) "type"
    Formats.member found "key from" kdf
  else
    found

/-- Where the bytes `01 99` of the AES extra field stand first. -/
def aesField (extra : Bytes) : Option Nat :=
  extra.tails.findIdx? fun rest => [0x01, 0x99].isPrefixOf rest

def zip (input : Bytes) : Finding :=
  let flags := (leAt input 6 2).getD 0
  let method := (leAt input 8 2).getD 0
  let found := Finding.new "zip archive"
  if flags % 2 = 0 then
    found.fact "encrypted" "no"
  else if method = 99 then
    let nameLen := (leAt input 26 2).getD 0
    let extraLen := (leAt input 28 2).getD 0
    let extra := (range input (30 + nameLen) (30 + nameLen + extraLen)).getD []
    let strength := (aesField extra).bind fun pos => extra[pos + 8]?
    found.fact "encrypted" <|
      if strength = some 1 then "AES-128 (WinZip AE)"
      else if strength = some 2 then "AES-192 (WinZip AE)"
      else if strength = some 3 then "AES-256 (WinZip AE)"
      else "AES (WinZip AE)"
  else
    found.fact "encrypted" "ZipCrypto (traditional PKWARE, weak)"

def magic (bytes : Bytes) (found : Bytes → Finding) (input : Bytes) : Option Finding :=
  if bytes <+: input then some (found input) else none

def jks : Bytes → Option Finding :=
  magic [0xfe, 0xed, 0xfe, 0xed] fun input =>
    javaKeystore input "Java keystore (JKS)" "integrity with a SHA-1 keyed digest"

def jceks : Bytes → Option Finding :=
  magic [0xce, 0xce, 0xce, 0xce] fun input =>
    javaKeystore input "Java keystore (JCEKS)" "keys protected with PBE and 3DES"

def bitlocker (input : Bytes) : Option Finding :=
  if range input 3 11 = some (ascii "-FVE-FS-") then
    some ((Finding.new "BitLocker volume").fact "cipher"
      "AES (CBC or XTS); the details are in its metadata")
  else
    none

def aesCrypt (input : Bytes) : Option Finding :=
  match input[3]? with
  | some v =>
    if ascii "AES" <+: input ∧ v ≤ 3 ∧ 5 < input.length then
      some (((Finding.new "AES Crypt file").fact "version" (Str.decimal v.toNat)).fact "cipher"
        "AES-256-CBC with HMAC-SHA256")
    else
      none
  | none => none

def bzip2 (input : Bytes) : Option Finding :=
  match input[3]? with
  | some b =>
    if ascii "BZh" <+: input ∧ '1'.toUInt8 ≤ b ∧ b ≤ '9'.toUInt8 then some (compressed "bzip2")
    else none
  | none => none

def tar (input : Bytes) : Option Finding :=
  if range input 257 262 = some (ascii "ustar") then
    some ((Finding.new "tar archive").fact "encrypted" "no")
  else
    none

def formats : List (Bytes → Option Finding) :=
  [jks, jceks,
    magic [0x03, 0xd9, 0xa2, 0x9a, 0x67, 0xfb, 0x4b, 0xb5] keepass,
    magic (ascii "kych") fun _ => Finding.new "macOS keychain",
    magic (ascii "LUKS" ++ [0xba, 0xbe]) luks,
    bitlocker,
    magic (ascii "Salted__") fun _ => (Finding.new "OpenSSL enc file (salted)").fact "cipher"
      "not recorded in the file: it is whatever was given to openssl enc",
    magic ([0] ++ ascii "GITCRYPT" ++ [0]) fun _ => (Finding.new "git-crypt encrypted file").fact
      "cipher" "AES-256-CTR, with an HMAC-SHA1 nonce",
    magic ([0] ++ ascii "GITCRYPTKEY") fun _ => (Finding.new "git-crypt key file").fact "key"
      "not shown",
    aesCrypt,
    magic (ascii "PK" ++ [3, 4]) zip,
    magic (ascii "7z" ++ [0xbc, 0xaf, 0x27, 0x1c]) fun _ => (Finding.new "7-Zip archive").fact
      "encryption" "if any, AES-256 with a SHA-256 key derivation",
    magic [0x1f, 0x8b] fun _ => compressed "gzip",
    magic [0x28, 0xb5, 0x2f, 0xfd] fun _ => compressed "zstd",
    magic [0xfd, 0x37, 0x7a, 0x58, 0x5a, 0x00] fun _ => compressed "xz",
    bzip2, tar]

def fromMagic (input : Bytes) : Option Finding := formats.findSome? fun f => f input

end Krypto.Inspect.Files
