import Krypto.Inspect.Der

/-! `pkix.rs`: X.509 and PKCS structures, told from the DER structure and the
OIDs in it. -/

namespace Krypto.Inspect.Pkix
open Effect Der

def digits (s : Bytes) (i j : Nat) : Option Bytes := (range s i j).filter fun d => d.all Str.isAsciiDigit

def digitText (d : Bytes) : Str := d.map fun b => Char.ofNat b.toNat

def dateText (year : Str) (month day : Bytes) : Str :=
  year ++ ['-'] ++ digitText month ++ ['-'] ++ digitText day

def time (t : Tlv) : Option Str := do
  let s ← (Str.fromUtf8 t.body).map Str.asBytes
  if t.tag = 0x17 then
    let yy := Str.digitsValue (← digits s 0 2)
    let year := if 50 ≤ yy then 1900 + yy else 2000 + yy
    some (dateText (Str.decimal year) (← digits s 2 4) (← digits s 4 6))
  else if t.tag = 0x18 then
    some (dateText (digitText (← digits s 0 4)) (← digits s 4 6) (← digits s 6 8))
  else
    none

def signatureName (alg : Tlv) : Option Str := do
  let (oid, _) ← algorithm alg
  some (nameOf oid)

def spkiKey (spki : Tlv) : Option Str := do
  match ← children spki.body with
  | [alg, key] => keyAlgorithm alg (range key.body 1 key.body.length)
  | _ => none

/-- SEQUENCE { tbsCertificate, signatureAlgorithm, signature }. -/
def certificate (parts : List Tlv) : Option Finding := do
  match parts with
  | [tbs, sigAlg, sig] =>
    if tbs.tag ≠ SEQUENCE ∨ sig.tag ≠ BIT_STRING then
      none
    else
      let tbs ← children tbs.body
      -- [0] version is there from v2 on
      let fields := if (← tbs.head?).tag = 0xa0 then tbs.tail else tbs
      match fields with
      | serial :: _ :: _ :: validity :: _ :: spki :: _ =>
        if serial.tag ≠ INTEGER ∨ validity.tag ≠ SEQUENCE then
          none
        else
          match ← children validity.body with
          | [start, stop] =>
            let found := (Finding.new "X.509 certificate").fact "signature" (← signatureName sigAlg)
            let found := found.fact "public key" ((spkiKey spki).getD "unknown")
            match time start, time stop with
            | some start, some stop => some (found.fact "valid" (start ++ " to ".toList ++ stop))
            | _, _ => some found
          | _ => none
      | _ => none
  | _ => none

/-- SEQUENCE { certificationRequestInfo { 0, subject, spki, [0] }, alg, sig }. -/
def request (parts : List Tlv) : Option Finding := do
  match parts with
  | [info, sigAlg, sig] =>
    if info.tag ≠ SEQUENCE ∨ sig.tag ≠ BIT_STRING then
      none
    else
      match ← children info.body with
      | version :: _ :: spki :: _ =>
        if version.tag ≠ INTEGER ∨ version.body ≠ [0] ∨ spki.tag ≠ SEQUENCE then
          none
        else
          some (((Finding.new "certificate signing request (PKCS#10)").fact "signature"
            (← signatureName sigAlg)).fact "public key" (← spkiKey spki))
      | _ => none
  | _ => none

/-- SEQUENCE { tbsCertList { [version], signature, issuer, thisUpdate, … }, alg, sig }. -/
def revocationList (parts : List Tlv) : Option Finding := do
  match parts with
  | [tbs, sigAlg, sig] =>
    if tbs.tag ≠ SEQUENCE ∨ sig.tag ≠ BIT_STRING then
      none
    else
      let tbs ← children tbs.body
      let fields := if (← tbs.head?).tag = INTEGER then tbs.tail else tbs
      match fields with
      | alg :: issuer :: thisUpdate :: _ =>
        if alg.tag ≠ SEQUENCE ∨ issuer.tag ≠ SEQUENCE ∨ time thisUpdate = none then
          none
        else
          some ((Finding.new "certificate revocation list (X.509 CRL)").fact "signature"
            (← signatureName sigAlg))
      | _ => none
  | _ => none

/-- SEQUENCE { version 0 or 1, algorithm, OCTET STRING privateKey, … }. -/
def pkcs8 (parts : List Tlv) : Option Finding := do
  match parts with
  | version :: alg :: key :: _ =>
    if version.tag ≠ INTEGER ∨ (version.body ≠ [0] ∧ version.body ≠ [1]) ∨ key.tag ≠ OCTET_STRING then
      none
    else
      let what ← keyAlgorithm alg (some key.body)
      some (((Finding.new "private key (PKCS#8)").fact "algorithm" what).fact "key" "not shown")
  | _ => none

/-- The iterations field; bits past the 64th are shifted out. -/
def iterationsOf (field : Option Tlv) : Option Nat :=
  (field.filter fun t => t.tag = INTEGER).map fun t =>
    (t.body.foldl (fun (a : UInt64) (b : UInt8) => (a <<< 8) ||| b.toUInt64) 0).toNat

def pbkdf2Text (p : Tlv) : Option Str := do
  let fields ← children p.body
  let named := ((fields.find? fun t => t.tag = SEQUENCE).bind algorithm).map fun (o, _) => nameOf o
  let prf := named.getD "HMAC-SHA1".toList
  match iterationsOf fields[1]? with
  | some n => some ("PBKDF2 with ".toList ++ prf ++ ", ".toList ++ Str.decimal n ++
      " iterations".toList)
  | none => some ("PBKDF2 with ".toList ++ prf)

/-- PBES2 parameters: SEQUENCE { keyDerivationFunc, encryptionScheme }. -/
def pbes2 (params : Tlv) : Option (Str × Str) := do
  match ← children params.body with
  | [kdf, cipher] =>
    let (kdfOid, kdfParams) ← algorithm kdf
    let (cipherOid, _) ← algorithm cipher
    let kdfName := nameOf kdfOid
    let kdfText ← match kdfParams.filter fun _ => kdfName = "PBKDF2".toList with
      | some p => pbkdf2Text p
      | none => some kdfName
    some (kdfText, nameOf cipherOid)
  | _ => none

/-- SEQUENCE { encryptionAlgorithm, OCTET STRING encryptedData }. -/
def encryptedPkcs8 (parts : List Tlv) : Option Finding := do
  match parts with
  | [alg, data] =>
    if data.tag ≠ OCTET_STRING then
      none
    else
      let (oid, params) ← algorithm alg
      let scheme := nameOf oid
      let found := Finding.new "encrypted private key (PKCS#8)"
      if scheme = "PBES2".toList then
        let (kdf, cipher) ← pbes2 (← params)
        some ((found.fact "key from" kdf).fact "cipher" cipher)
      else
        some (found.fact "scheme" scheme)
  | _ => none

/-- SEQUENCE { algorithm, BIT STRING subjectPublicKey }. -/
def spki (parts : List Tlv) : Option Finding := do
  match parts with
  | [alg, key] =>
    if key.tag ≠ BIT_STRING then
      none
    else
      let what ← keyAlgorithm alg (range key.body 1 key.body.length)
      some ((Finding.new "public key (SubjectPublicKeyInfo)").fact "algorithm" what)
  | _ => none

/-- SEQUENCE { 1, OCTET STRING privateKey, [0] curve, [1] publicKey }. -/
def sec1 (parts : List Tlv) : Option Finding :=
  match parts with
  | version :: key :: rest =>
    if version.tag ≠ INTEGER ∨ version.body ≠ [1] ∨ key.tag ≠ OCTET_STRING then
      none
    else
      let named := ((rest.find? fun t => t.tag = 0xa0).bind fun t => whole t.body).filter
        fun t => t.tag = OID
      let curve := (named.map nameOf).getD "curve not named"
      some (((Finding.new "EC private key (SEC1)").fact "algorithm" ("EC ".toList ++ curve)).fact
        "key" "not shown")
  | _ => none

def rsaText (bits : Nat) : Str := "RSA ".toList ++ Str.decimal bits ++ " bits".toList

/-- SEQUENCE { 0, n, e, d, p, q, dp, dq, qinv }. -/
def pkcs1Private (parts : List Tlv) : Option Finding :=
  match parts with
  | version :: n :: _ =>
    if parts.length ≠ 9 ∨ (parts.any fun t => t.tag ≠ INTEGER) ∨ version.body ≠ [0] then
      none
    else
      some (((Finding.new "RSA private key (PKCS#1)").fact "algorithm"
        (rsaText (integerBits n.body))).fact "key" "not shown")
  | _ => none

def pkcs1Public (input : Bytes) : Option Finding := do
  let bits ← rsaBits input
  some ((Finding.new "RSA public key (PKCS#1)").fact "algorithm" (rsaText bits))

def schemeText (alg : Tlv) : Option Str := do
  let (oid, params) ← algorithm alg
  let name := nameOf oid
  if name = "PBES2".toList then
    let (kdf, cipher) ← pbes2 (← params)
    some (cipher ++ ", key from ".toList ++ kdf)
  else
    some name

/-- macData: SEQUENCE { DigestInfo { algorithm, digest }, salt, iterations }. -/
def macData (mac : Tlv) : Option Str := do
  let parts ← children mac.body
  let digestInfo ← children (← parts.head?).body
  let (oid, _) ← algorithm (← digestInfo.head?)
  match iterationsOf parts[2]? with
  | some n => some ("HMAC with ".toList ++ nameOf oid ++ ", ".toList ++ Str.decimal n ++
      " iterations".toList)
  | none => some ("HMAC with ".toList ++ nameOf oid)

def contentOf (info : Tlv) (kind : String) : Option Bytes := do
  match ← children info.body with
  | [oid, content] =>
    if oid.tag = OID ∧ nameOf oid = kind.toList ∧ content.tag = 0xa0 then some content.body else none
  | _ => none

def bagProtection (out : List Str) (bag : Tlv) : Option (List Str) := do
  let bagParts ← children bag.body
  if nameOf (← bagParts.head?) = "encrypted key bag".toList then
    let value ← whole (← bagParts[1]?).body
    let key ← children value.body
    some (out ++ ["private key: ".toList ++ (← schemeText (← key.head?))])
  else
    some out

def infoProtection (out : List Str) (info : Tlv) : Option (List Str) := do
  let parts ← children info.body
  let kind := nameOf (← parts.head?)
  let inner ← parts[1]?.bind fun t => whole t.body
  if kind = "encrypted data".toList then
    let fields ← children inner.body
    let eci ← children (← fields[1]?).body
    some (out ++ ["certificates: ".toList ++ (← schemeText (← eci[1]?))])
  else if kind = "data".toList then
    let bags ← (whole inner.body).filter fun t => t.tag = SEQUENCE
    (← children bags.body).foldlM bagProtection out
  else
    some out

def pkcs12Protection (authSafe : Tlv) : Option (List Str) := do
  let content ← contentOf authSafe "data"
  let octets ← (whole content).filter fun t => t.tag = OCTET_STRING
  let infos ← (whole octets.body).filter fun t => t.tag = SEQUENCE
  (← children infos.body).foldlM infoProtection []

/-- SEQUENCE { 3, ContentInfo authSafe, macData }. -/
def pkcs12 (parts : List Tlv) : Option Finding :=
  match parts with
  | version :: authSafe :: rest =>
    if version.tag ≠ INTEGER ∨ version.body ≠ [3] ∨ authSafe.tag ≠ SEQUENCE then
      none
    else
      let found := Finding.new "PKCS#12 bundle (PFX)"
      let found := match rest.head?.bind macData with
        | some mac => found.fact "integrity" mac
        | none => found
      let protection := (pkcs12Protection authSafe).getD []
      if protection = [] then some found
      else some (found.fact "encryption" (Str.join "; " protection))
  | _ => none

def recipient (info : Tlv) : Option Str := do
  let parts ← children info.body
  -- ktri: SEQUENCE { version, rid, keyEncryptionAlgorithm, encryptedKey }
  if info.tag = SEQUENCE then
    let alg ← parts.find? fun t => (algorithm t).isSome
    let (oid, _) ← algorithm alg
    some ("key transport with ".toList ++ nameOf oid)
  -- kari [1], kekri [2], pwri [3]
  else if info.tag = 0xa1 then some "key agreement".toList
  else if info.tag = 0xa2 then some "key encryption key".toList
  else if info.tag = 0xa3 then some "password".toList
  else none

/-- A SignerInfo: its signature algorithm, the second in it. -/
def signer (info : Tlv) : Option Str := do
  let parts ← children info.body
  let (oid, _) ← (parts.filterMap algorithm)[1]?
  some (nameOf oid)

def setOf (fields : List Tlv) : Option (List Tlv) :=
  (fields.find? fun t => t.tag = SET).bind fun set => children set.body

def envelopedData (kind : Str) (fields : List Tlv) : Option Finding := do
  let eci ← fields.reverse.find? fun t => t.tag = SEQUENCE
  let eci ← children eci.body
  let (oid, _) ← algorithm (← eci[1]?)
  let recipients := ((setOf fields).map fun r => Str.join ", " (r.filterMap recipient)).getD []
  let found := (Finding.new ("CMS ".toList ++ kind ++ " (S/MIME, PKCS#7)".toList)).fact "cipher"
    (nameOf oid)
  if recipients = [] then some found else some (found.fact "recipients" recipients)

def signedData (fields : List Tlv) : Finding :=
  let digests := ((setOf fields).map fun d =>
    (d.filterMap algorithm).map fun (o, _) => nameOf o).getD []
  let signers := ((setOf fields.reverse).map fun s => Str.join ", " (s.filterMap signer)).getD []
  let found := (Finding.new "CMS signed data (S/MIME, PKCS#7)").fact "digest" (Str.join ", " digests)
  if signers = [] then found else found.fact "signature" signers

/-- CMS / PKCS#7: ContentInfo { OID contentType, [0] content }. -/
def cms (parts : List Tlv) : Option Finding := do
  match parts with
  | [oid, content] =>
    if oid.tag ≠ OID ∨ content.tag ≠ 0xa0 then
      none
    else
      let kind := nameOf oid
      let inner ← (whole content.body).filter fun t => t.tag = SEQUENCE
      let fields ← children inner.body
      if kind = "enveloped data".toList ∨ kind = "authenticated enveloped data".toList then
        envelopedData kind fields
      else if kind = "signed data".toList then
        some (signedData fields)
      else if kind = "encrypted data".toList then
        let eci ← children (← fields[1]?).body
        some ((Finding.new "CMS encrypted data (PKCS#7)").fact "encryption" (← schemeText (← eci[1]?)))
      else
        none
  | _ => none

def families : List (List Tlv → Option Finding) :=
  [certificate, request, revocationList, pkcs8, encryptedPkcs8, spki, pkcs12, cms, sec1, pkcs1Private]

def fromDer (input : Bytes) : Option Finding := do
  let outer ← (whole input).filter fun t => t.tag = SEQUENCE
  let parts ← children outer.body
  families.findSome? fun f => f parts

end Krypto.Inspect.Pkix
