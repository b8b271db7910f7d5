import Krypto.Inspect.Encoding
import Krypto.Inspect.Pkix

/-! X.509 and PKCS structures are not taken for one another: each family's pattern
refuses the elements of the families that are tried after it, and takes its own. -/

namespace Krypto.Inspect.Pkix
open Effect Der

/-! ### The structures -/

/-- What a key's AlgorithmIdentifier is called: by its OID, for EC with the curve, for RSA with the
size of the modulus where the key can be read. -/
def keyName (oid : Tlv) (params : List Tlv) (key : Option Bytes) : Str :=
  if nameOf oid = "EC".toList then
    match params.head?.filter fun p => p.tag = OID with
    | some curve => "EC ".toList ++ nameOf curve
    | none => "EC".toList
  else if nameOf oid = "RSA".toList then
    ((key.bind rsaBits).map rsaText).getD "RSA".toList
  else
    nameOf oid

/-- UTCTime or GeneralizedTime: digits down to the minute or the hour at least, then ASCII. -/
structure IsTime (t : Tlv) : Prop where
  tag : t.tag = 0x17 ∨ t.tag = 0x18
  digits : ∀ b ∈ t.body.take 10, Str.isAsciiDigit b
  length : 10 ≤ t.body.length
  ascii : ∀ b ∈ t.body, b.toNat < 128

/-- A SubjectPublicKeyInfo: an algorithm, and a BIT STRING whose first octet counts unused bits. -/
structure IsSpki (oid : Tlv) (params : List Tlv) (key : Bytes) (t : Tlv) : Prop where
  parts : ∃ alg bits, IsAlgorithm oid params alg ∧ bits.tag = BIT_STRING ∧
    (∃ unused, bits.body = unused :: key) ∧ IsSequence [alg, bits] t

/-- What follows the iterations of PBKDF2: a key length, and the PRF if it is not the default. -/
inductive IsPrf : List Tlv → Str → Prop
  | default {ts : List Tlv} (h : ∀ t ∈ ts, t.tag = INTEGER) : IsPrf ts "HMAC-SHA1".toList
  | stated {ts params : List Tlv} {oid prf : Tlv} (h : ∀ t ∈ ts, t.tag = INTEGER)
    (hprf : IsAlgorithm oid params prf) : IsPrf (ts ++ [prf]) (nameOf oid)

def iterationsText (count : Tlv) : Str :=
  ", ".toList ++ Str.decimal ((iterationsOf (some count)).getD 0) ++ " iterations".toList

inductive IsKdf : Tlv → Str → Prop
  | pbkdf2 {t oid p salt count : Tlv} {more : List Tlv} {prf : Str} (h : IsAlgorithm oid [p] t)
    (hname : nameOf oid = "PBKDF2".toList) (hp : IsSequence (salt :: count :: more) p)
    (hsalt : salt.tag = OCTET_STRING) (hcount : count.tag = INTEGER) (hprf : IsPrf more prf) :
    IsKdf t ("PBKDF2 with ".toList ++ prf ++ iterationsText count)
  | other {t oid : Tlv} {params : List Tlv} (h : IsAlgorithm oid params t)
    (hname : nameOf oid ≠ "PBKDF2".toList) : IsKdf t (nameOf oid)

structure IsPbes2 (kdf : Str) (cipher : Tlv) (t : Tlv) : Prop where
  parts : ∃ kdfAlg cipherAlg params, IsKdf kdfAlg kdf ∧ IsAlgorithm cipher params cipherAlg ∧
    IsSequence [kdfAlg, cipherAlg] t

inductive IsScheme : Tlv → Str → Prop
  | pbes2 {t oid params cipher : Tlv} {kdf : Str} (h : IsAlgorithm oid [params] t)
    (hname : nameOf oid = "PBES2".toList) (hparams : IsPbes2 kdf cipher params) :
    IsScheme t (nameOf cipher ++ ", key from ".toList ++ kdf)
  | other {t oid : Tlv} {params : List Tlv} (h : IsAlgorithm oid params t)
    (hname : nameOf oid ≠ "PBES2".toList) : IsScheme t (nameOf oid)

/-- macData in words: a digest under a key from a salt and an iteration count, which is 1 when it
is left out. -/
inductive IsMac : Tlv → Str → Prop
  | counted {t info alg digest oid salt count : Tlv} {params : List Tlv}
    (ht : IsSequence [info, salt, count] t) (hinfo : IsSequence [alg, digest] info)
    (halg : IsAlgorithm oid params alg) (hcount : count.tag = INTEGER) :
    IsMac t ("HMAC with ".toList ++ nameOf oid ++ iterationsText count)
  | single {t info alg digest oid salt : Tlv} {params : List Tlv} (ht : IsSequence [info, salt] t)
    (hinfo : IsSequence [alg, digest] info) (halg : IsAlgorithm oid params alg) :
    IsMac t ("HMAC with ".toList ++ nameOf oid)

structure IsContent (oid inner : Tlv) (t : Tlv) : Prop where
  tag : oid.tag = OID
  parts : ∃ content, IsSequence [oid, content] t ∧ content.tag = 0xa0 ∧ Encodes inner content.body

inductive IsBag : Tlv → List Str → Prop
  | key {t oid value key alg : Tlv} {attributes more : List Tlv} {scheme : Str}
    (ht : IsSequence (oid :: value :: attributes) t) (hname : nameOf oid = "encrypted key bag".toList)
    (hvalue : Encodes key value.body) (hkey : IsSequence (alg :: more) key)
    (hscheme : IsScheme alg scheme) : IsBag t ["private key: ".toList ++ scheme]
  | other {t oid : Tlv} {more : List Tlv} (ht : IsSequence (oid :: more) t)
    (hname : nameOf oid ≠ "encrypted key bag".toList) : IsBag t []

inductive IsSafe : Tlv → List Str → Prop
  | encrypted {t oid inner version eci kind alg : Tlv} {more more' : List Tlv} {scheme : Str}
    (ht : IsContent oid inner t) (hname : nameOf oid = "encrypted data".toList)
    (hinner : IsSequence (version :: eci :: more) inner) (heci : IsSequence (kind :: alg :: more') eci)
    (hscheme : IsScheme alg scheme) : IsSafe t ["certificates: ".toList ++ scheme]
  | data {t oid octets bags : Tlv} {ts : List Tlv} {texts : List (List Str)}
    (ht : IsContent oid octets t) (hname : nameOf oid = "data".toList)
    (hoctets : Encodes bags octets.body) (hbags : IsSequence ts bags)
    (hts : List.Forall₂ IsBag ts texts) : IsSafe t texts.flatten
  | other {t oid inner : Tlv} (ht : IsContent oid inner t) (hdata : nameOf oid ≠ "data".toList)
    (hencrypted : nameOf oid ≠ "encrypted data".toList) : IsSafe t []

/-- What the bundle is made of: safes in an OCTET STRING, or something signed. -/
inductive IsAuthSafe : Tlv → List Str → Prop
  | data {t oid octets infos : Tlv} {ts : List Tlv} {texts : List (List Str)}
    (ht : IsContent oid octets t) (hname : nameOf oid = "data".toList)
    (hoctets : octets.tag = OCTET_STRING) (hinfos : Encodes infos octets.body)
    (hts : IsSequence ts infos) (hsafes : List.Forall₂ IsSafe ts texts) : IsAuthSafe t texts.flatten
  | other {t oid inner : Tlv} (ht : IsContent oid inner t) (hname : nameOf oid ≠ "data".toList) :
    IsAuthSafe t []

inductive IsIssuer : Tlv → Prop
  | named {t name serial : Tlv} (ht : IsSequence [name, serial] t) (hname : name.tag = SEQUENCE) :
    IsIssuer t
  | keyed {t : Tlv} (ht : t.tag = 0x80) : IsIssuer t

structure IsSigner (t oid : Tlv) : Prop where
  parts : ∃ version issuer digest digestOid params attributes alg params' more,
    IsSequence (version :: issuer :: digest :: (attributes ++ alg :: more)) t ∧
      version.tag = INTEGER ∧ IsIssuer issuer ∧ IsAlgorithm digestOid params digest ∧
        (∀ a ∈ attributes, a.tag = 0xa0) ∧ IsAlgorithm oid params' alg

/-- A RecipientInfo in words; those of no known kind go unnamed. -/
inductive IsRecipient : Tlv → Option Str → Prop
  | transport {t version issuer alg oid : Tlv} {params more : List Tlv}
    (ht : IsSequence (version :: issuer :: alg :: more) t) (hversion : version.tag = INTEGER)
    (hissuer : IsIssuer issuer) (halg : IsAlgorithm oid params alg) :
    IsRecipient t (some ("key transport with ".toList ++ nameOf oid))
  | agreement {t : Tlv} {ts : List Tlv} (ht : Encoded ts t.body) (htag : t.tag = 0xa1) :
    IsRecipient t (some "key agreement".toList)
  | kek {t : Tlv} {ts : List Tlv} (ht : Encoded ts t.body) (htag : t.tag = 0xa2) :
    IsRecipient t (some "key encryption key".toList)
  | password {t : Tlv} {ts : List Tlv} (ht : Encoded ts t.body) (htag : t.tag = 0xa3) :
    IsRecipient t (some "password".toList)
  | other {t : Tlv} {ts : List Tlv} (ht : Encoded ts t.body) (htag : t.tag = 0xa4) :
    IsRecipient t none

inductive IsCurve : List Tlv → Str → Prop
  | named {params curve : Tlv} {more : List Tlv} (hparams : params.tag = 0xa0)
    (hcurve : Encodes curve params.body) (htag : curve.tag = OID) (hmore : ∀ t ∈ more, t.tag = 0xa1) :
    IsCurve (params :: more) (nameOf curve)
  | specified {params curve : Tlv} {more : List Tlv} (hparams : params.tag = 0xa0)
    (hcurve : Encodes curve params.body) (htag : curve.tag ≠ OID) (hmore : ∀ t ∈ more, t.tag = 0xa1) :
    IsCurve (params :: more) "curve not named".toList
  | unnamed {more : List Tlv} (hmore : ∀ t ∈ more, t.tag = 0xa1) : IsCurve more "curve not named".toList

def said (name : String) (text : Str) : List (Str × Str) := if text = [] then [] else [(name.toList, text)]

def protection (texts : List Str) : List (Str × Str) :=
  if texts = [] then [] else [("encryption".toList, Str.join "; " texts)]

/-- The well-formed structures, by the elements of their outer SEQUENCE: the name of the family, and
the algorithms that stand in it. -/
inductive Structure : List Tlv → String → List (Str × Str) → Prop
  | certificate {tbs sigAlg sig serial inner issuer validity start stop subject spki sigOid oid : Tlv}
    {version sigParams params more : List Tlv} {key : Bytes}
    (htbs : IsSequence (version ++ serial :: inner :: issuer :: validity :: subject :: spki :: more) tbs)
    (hversion : version = [] ∨ ∃ v, version = [v] ∧ v.tag = 0xa0) (hserial : serial.tag = INTEGER)
    (hvalidity : IsSequence [start, stop] validity) (hspki : IsSpki oid params key spki)
    (hsigAlg : IsAlgorithm sigOid sigParams sigAlg) (hsig : sig.tag = BIT_STRING) :
    Structure [tbs, sigAlg, sig] "X.509 certificate" [("signature".toList, nameOf sigOid),
      ("public key".toList, keyName oid params (some key))]
  | request {info sigAlg sig subject spki sigOid oid : Tlv} {sigParams params attributes : List Tlv}
    {key : Bytes} (hinfo : IsSequence (⟨INTEGER, [0]⟩ :: subject :: spki :: attributes) info)
    (hattributes : ∀ a ∈ attributes, a.tag = 0xa0) (hspki : IsSpki oid params key spki)
    (hsigAlg : IsAlgorithm sigOid sigParams sigAlg) (hsig : sig.tag = BIT_STRING) :
    Structure [info, sigAlg, sig] "certificate signing request (PKCS#10)"
      [("signature".toList, nameOf sigOid), ("public key".toList, keyName oid params (some key))]
  | revocationList {tbs sigAlg sig alg issuer thisUpdate sigOid : Tlv} {version sigParams more : List Tlv}
    (htbs : IsSequence (version ++ alg :: issuer :: thisUpdate :: more) tbs)
    (hversion : version = [] ∨ version = [⟨INTEGER, [1]⟩]) (halg : alg.tag = SEQUENCE)
    (hissuer : issuer.tag = SEQUENCE) (hupdate : IsTime thisUpdate)
    (hsigAlg : IsAlgorithm sigOid sigParams sigAlg) (hsig : sig.tag = BIT_STRING) :
    Structure [tbs, sigAlg, sig] "certificate revocation list (X.509 CRL)"
      [("signature".toList, nameOf sigOid)]
  | pkcs8 {alg key oid : Tlv} {version : UInt8} {params more : List Tlv} (hversion : version ≤ 1)
    (halg : IsAlgorithm oid params alg) (hkey : key.tag = OCTET_STRING) :
    Structure (⟨INTEGER, [version]⟩ :: alg :: key :: more) "private key (PKCS#8)"
      [("algorithm".toList, keyName oid params (some key.body))]
  | pbes2 {alg data oid params cipher : Tlv} {kdf : Str} (halg : IsAlgorithm oid [params] alg)
    (hname : nameOf oid = "PBES2".toList) (hparams : IsPbes2 kdf cipher params)
    (hdata : data.tag = OCTET_STRING) : Structure [alg, data] "encrypted private key (PKCS#8)"
      [("key from".toList, kdf), ("cipher".toList, nameOf cipher)]
  | encrypted {alg data oid : Tlv} {params : List Tlv} (halg : IsAlgorithm oid params alg)
    (hname : nameOf oid ≠ "PBES2".toList) (hdata : data.tag = OCTET_STRING) :
    Structure [alg, data] "encrypted private key (PKCS#8)" [("scheme".toList, nameOf oid)]
  | spki {alg bits oid : Tlv} {params : List Tlv} {unused : UInt8} {key : Bytes}
    (halg : IsAlgorithm oid params alg) (hbits : bits = ⟨BIT_STRING, unused :: key⟩) :
    Structure [alg, bits] "public key (SubjectPublicKeyInfo)"
      [("algorithm".toList, keyName oid params (some key))]
  | pkcs12 {authSafe mac : Tlv} {texts : List Str} {integrity : Str} (hsafe : IsAuthSafe authSafe texts)
    (hmac : IsMac mac integrity) : Structure [⟨INTEGER, [3]⟩, authSafe, mac] "PKCS#12 bundle (PFX)"
      (("integrity".toList, integrity) :: protection texts)
  | pkcs12Signed {authSafe : Tlv} {texts : List Str} (hsafe : IsAuthSafe authSafe texts) :
    Structure [⟨INTEGER, [3]⟩, authSafe] "PKCS#12 bundle (PFX)"
      (protection texts)
  | signed {oid content inner version digests encap signers : Tlv} {algs oids more infos names : List Tlv}
    (hoid : oid.tag = OID) (hname : nameOf oid = "signed data".toList) (hcontent : content.tag = 0xa0)
    (hinner : Encodes inner content.body)
    (hfields : IsSequence (version :: digests :: encap :: (more ++ [signers])) inner)
    (hversion : version.tag = INTEGER) (hdigests : digests.tag = SET) (halgs : Encoded algs digests.body)
    (hoids : List.Forall₂ (fun alg oid => ∃ params, IsAlgorithm oid params alg) algs oids)
    (hsigners : signers.tag = SET) (hinfos : Encoded infos signers.body)
    (hnames : List.Forall₂ IsSigner infos names) :
    Structure [oid, content] "CMS signed data (S/MIME, PKCS#7)"
      (("digest".toList, Str.join ", " (oids.map nameOf)) ::
        said "signature" (Str.join ", " (names.map nameOf)))
  | enveloped {oid content inner version recipients eci kind alg cipher : Tlv}
    {originator more more' infos params : List Tlv} {texts : List (Option Str)} {name : String}
    (hoid : oid.tag = OID) (hkind : name = "enveloped data" ∨ name = "authenticated enveloped data")
    (hname : nameOf oid = name.toList) (hcontent : content.tag = 0xa0)
    (hinner : Encodes inner content.body)
    (hfields : IsSequence (version :: (originator ++ recipients :: eci :: more)) inner)
    (hversion : version.tag = INTEGER) (horiginator : ∀ t ∈ originator, t.tag = 0xa0)
    (hset : recipients.tag = SET) (hinfos : Encoded infos recipients.body)
    (htexts : List.Forall₂ IsRecipient infos texts) (heci : IsSequence (kind :: alg :: more') eci)
    (halg : IsAlgorithm cipher params alg) (hmore : ∀ t ∈ more, t.tag ≠ SEQUENCE) :
    Structure [oid, content] ("CMS " ++ name ++ " (S/MIME, PKCS#7)")
      (("cipher".toList, nameOf cipher) ::
        said "recipients" (Str.join ", " (texts.filterMap id)))
  | encryptedData {oid content inner version eci kind alg : Tlv} {more more' : List Tlv} {scheme : Str}
    (hoid : oid.tag = OID) (hname : nameOf oid = "encrypted data".toList) (hcontent : content.tag = 0xa0)
    (hinner : Encodes inner content.body) (hfields : IsSequence (version :: eci :: more) inner)
    (heci : IsSequence (kind :: alg :: more') eci) (hscheme : IsScheme alg scheme) :
    Structure [oid, content] "CMS encrypted data (PKCS#7)" [("encryption".toList, scheme)]
  | sec1 {key : Tlv} {rest : List Tlv} {curve : Str} (hkey : key.tag = OCTET_STRING)
    (hcurve : IsCurve rest curve) : Structure (⟨INTEGER, [1]⟩ :: key :: rest) "EC private key (SEC1)"
      [("algorithm".toList, "EC ".toList ++ curve)]
  | pkcs1Private {n : Tlv} {rest : List Tlv} (hn : n.tag = INTEGER) (hrest : ∀ t ∈ rest, t.tag = INTEGER)
    (hlength : rest.length = 7) : Structure (⟨INTEGER, [0]⟩ :: n :: rest) "RSA private key (PKCS#1)"
      [("algorithm".toList, rsaText (integerBits n.body))]

/-! ### What the parts are called -/

section Parts
variable {t oid : Tlv} {params : List Tlv}

theorem keyAlgorithm_eq (h : IsAlgorithm oid params t) (key : Option Bytes) :
    keyAlgorithm t key = some (keyName oid params key) := by
  simp only [keyAlgorithm, h.algorithm, Option.bind_eq_bind, Option.bind_some, keyName]
  split
  · cases params.head?.filter fun p => p.tag = OID <;> rfl
  · split
    · cases key.bind rsaBits <;> rfl
    · rfl

theorem signatureName_eq (h : IsAlgorithm oid params t) : signatureName t = some (nameOf oid) := by
  rw [signatureName, h.algorithm]
  rfl

theorem spkiKey_eq {key : Bytes} (h : IsSpki oid params key t) :
    spkiKey t = some (keyName oid params (some key)) := by
  obtain ⟨alg, bits, halg, -, ⟨unused, hbody⟩, ht⟩ := h.parts
  have hkey : range bits.body 1 bits.body.length = some key := by
    rw [hbody, range, if_pos ⟨by simp, Nat.le_refl _⟩]
    simp
  simp only [spkiKey, children_eq_some.mpr ht.parts, Option.bind_eq_bind, Option.bind_some, hkey,
    keyAlgorithm_eq halg]

theorem digits_some (h : IsTime t) {i j : ℕ} (hij : i ≤ j) (hj : j ≤ 10) :
    ∃ d, digits t.body i j = some d := by
  have hrange : range t.body i j = some ((t.body.drop i).take (j - i)) :=
    if_pos ⟨hij, hj.trans h.length⟩
  have hdigits : ((t.body.drop i).take (j - i)).all Str.isAsciiDigit := by
    have htake : (t.body.drop i).take (j - i) = ((t.body.take 10).take j).drop i := by
      rw [List.take_take, Nat.min_eq_left hj, List.drop_take]
    rw [htake, List.all_eq_true]
    intro b hb
    exact h.digits b (List.mem_of_mem_take (List.mem_of_mem_drop hb))
  exact ⟨_, by rw [digits, hrange, Option.filter_some, if_pos hdigits]⟩

theorem time_some (h : IsTime t) : ∃ text, time t = some text := by
  have htext : Str.fromUtf8 t.body = some (t.body.map fun b => Char.ofNat b.toNat) := by
    have hback : ∀ b ∈ t.body, (Char.ofNat b.toNat).toNat = b.toNat :=
      fun b hb => Str.toNat_ofNat_of_lt (h.ascii b hb)
    rw [Str.fromUtf8_eq_some, Str.asBytes_of_lt]
    · rw [List.map_map]
      have hsame : t.body.map ((fun c => UInt8.ofNat c.toNat) ∘ fun b => Char.ofNat b.toNat) =
          t.body.map id := by
        refine List.map_congr_left fun b hb => ?_
        rw [Function.comp_apply, hback b hb, UInt8.ofNat_toNat, id]
      rw [hsame, List.map_id]
    · intro c hc
      obtain ⟨b, hb, rfl⟩ := List.mem_map.mp hc
      rw [hback b hb]
      exact h.ascii b hb
  have hbytes : (Str.fromUtf8 t.body).map Str.asBytes = some t.body := by
    rw [htext, Option.map_some, Str.asBytes_of_fromUtf8 htext]
  obtain ⟨d0, h0⟩ := digits_some h (by decide : 0 ≤ 2) (by decide)
  obtain ⟨d1, h1⟩ := digits_some h (by decide : 2 ≤ 4) (by decide)
  obtain ⟨d2, h2⟩ := digits_some h (by decide : 4 ≤ 6) (by decide)
  obtain ⟨d3, h3⟩ := digits_some h (by decide : 0 ≤ 4) (by decide)
  obtain ⟨d4, h4⟩ := digits_some h (by decide : 6 ≤ 8) (by decide)
  rcases h.tag with htag | htag
  · simp [time, hbytes, htag, h0, h1, h2]
  · simp [time, hbytes, htag, h2, h3, h4]

theorem algorithm_none (h : t.tag ≠ SEQUENCE) : algorithm t = none := by
  rw [algorithm, if_pos h]

theorem algorithm_issuer (h : IsIssuer t) : algorithm t = none := by
  cases h with
  | named ht hname =>
    rw [algorithm, if_neg (not_not.mpr ht.tag), children_eq_some.mpr ht.parts]
    simp [hname, SEQUENCE, OID]
  | keyed ht => exact algorithm_none (by rw [ht]; decide)

theorem iterationsOf_eq (h : t.tag = INTEGER) : ∃ n, iterationsOf (some t) = some n := by
  rw [iterationsOf, Option.filter_some, if_pos (by simpa using h)]
  exact ⟨_, rfl⟩

theorem find_sequence_prf {more : List Tlv} {prf : Str} (h : IsPrf more prf) :
    (((more.find? fun t => t.tag = SEQUENCE).bind algorithm).map fun x => nameOf x.1).getD
      "HMAC-SHA1".toList = prf := by
  have hnone {ts : List Tlv} (hts : ∀ t ∈ ts, t.tag = INTEGER) :
      ts.find? (fun t => t.tag = SEQUENCE) = none := by
    rw [List.find?_eq_none]
    intro t ht
    rw [hts t ht]
    decide
  cases h with
  | default hts => rw [hnone hts]; rfl
  | stated hts hprf =>
    rw [List.find?_append, hnone hts, Option.none_or, List.find?_cons_of_pos (by simpa using hprf.parts.tag),
      Option.bind_some, hprf.algorithm]
    rfl

theorem pbkdf2Text_eq {p salt count : Tlv} {more : List Tlv} {prf : Str}
    (hp : IsSequence (salt :: count :: more) p) (hsalt : salt.tag = OCTET_STRING)
    (hcount : count.tag = INTEGER) (hprf : IsPrf more prf) :
    pbkdf2Text p = some ("PBKDF2 with ".toList ++ prf ++ iterationsText count) := by
  have hfind : (salt :: count :: more).find? (fun t => t.tag = SEQUENCE) =
      more.find? fun t => t.tag = SEQUENCE := by
    rw [List.find?_cons_of_neg, List.find?_cons_of_neg]
    · rw [hcount]; decide
    · rw [hsalt]; decide
  obtain ⟨n, hn⟩ := iterationsOf_eq hcount
  simp only [pbkdf2Text, children_eq_some.mpr hp.parts, Option.bind_eq_bind, Option.bind_some, hfind,
    find_sequence_prf hprf, List.getElem?_cons_succ, List.getElem?_cons_zero, hn]
  simp [iterationsText, hn]

theorem pbes2_eq {kdf : Str} {cipher : Tlv} (h : IsPbes2 kdf cipher t) :
    pbes2 t = some (kdf, nameOf cipher) := by
  obtain ⟨kdfAlg, cipherAlg, cipherParams, hkdf, hcipher, ht⟩ := h.parts
  simp only [pbes2, children_eq_some.mpr ht.parts, Option.bind_eq_bind, Option.bind_some]
  cases hkdf with
  | pbkdf2 halg hname hp hsalt hcount hprf =>
    simp only [halg.algorithm, hcipher.algorithm, Option.bind_some, List.head?_cons, hname,
      decide_true, Option.filter_some, if_true, pbkdf2Text_eq hp hsalt hcount hprf]
  | @other oid params halg hname =>
    have hfilter : params.head?.filter (fun _ => nameOf oid = "PBKDF2".toList) = none := by
      cases params.head? with
      | none => rfl
      | some p => rw [Option.filter_some, decide_eq_false hname, if_neg Bool.false_ne_true]
    simp only [halg.algorithm, hcipher.algorithm, Option.bind_some, hfilter]

theorem schemeText_eq {scheme : Str} (h : IsScheme t scheme) : schemeText t = some scheme := by
  cases h with
  | pbes2 halg hname hparams =>
    simp only [schemeText, halg.algorithm, Option.bind_eq_bind, Option.bind_some, if_pos hname,
      List.head?_cons, pbes2_eq hparams]
  | other halg hname =>
    simp only [schemeText, halg.algorithm, Option.bind_eq_bind, Option.bind_some, if_neg hname]

theorem macData_eq {integrity : Str} (h : IsMac t integrity) : macData t = some integrity := by
  cases h with
  | counted ht hinfo halg hcount =>
    obtain ⟨n, hn⟩ := iterationsOf_eq hcount
    simp only [macData, children_eq_some.mpr ht.parts, children_eq_some.mpr hinfo.parts,
      halg.algorithm, Option.bind_eq_bind, Option.bind_some, List.head?_cons,
      List.getElem?_cons_succ, List.getElem?_cons_zero, hn, iterationsText, Option.getD_some,
      List.append_assoc]
  | single ht hinfo halg =>
    simp only [macData, children_eq_some.mpr ht.parts, children_eq_some.mpr hinfo.parts,
      halg.algorithm, Option.bind_eq_bind, Option.bind_some, List.head?_cons,
      List.getElem?_cons_succ, List.getElem?_nil]
    rfl

theorem bagProtection_eq {texts : List Str} (h : IsBag t texts) (out : List Str) :
    bagProtection out t = some (out ++ texts) := by
  cases h with
  | key ht hname hvalue hkey hscheme =>
    simp only [bagProtection, children_eq_some.mpr ht.parts, Option.bind_eq_bind, Option.bind_some,
      List.head?_cons, if_pos hname, List.getElem?_cons_succ, List.getElem?_cons_zero,
      whole_eq_some.mpr hvalue, children_eq_some.mpr hkey.parts, schemeText_eq hscheme]
  | other ht hname =>
    simp only [bagProtection, children_eq_some.mpr ht.parts, Option.bind_eq_bind, Option.bind_some,
      List.head?_cons, if_neg hname, List.append_nil]

theorem foldlM_texts {step : List Str → Tlv → Option (List Str)} {Is : Tlv → List Str → Prop}
    (hstep : ∀ t texts, Is t texts → ∀ out, step out t = some (out ++ texts)) {ts : List Tlv}
    {texts : List (List Str)} (h : List.Forall₂ Is ts texts) (out : List Str) :
    ts.foldlM step out = some (out ++ texts.flatten) := by
  induction h generalizing out with
  | nil => rw [List.foldlM_nil, List.flatten_nil, List.append_nil]; rfl
  | cons hfirst _ ih =>
    rw [List.foldlM_cons, hstep _ _ hfirst, Option.bind_eq_bind, Option.bind_some, ih,
      List.flatten_cons, List.append_assoc]

theorem infoProtection_eq {texts : List Str} (h : IsSafe t texts) (out : List Str) :
    infoProtection out t = some (out ++ texts) := by
  cases h with
  | encrypted ht hname hinner heci hscheme =>
    obtain ⟨content, hparts, -, hcontent⟩ := ht.parts
    simp only [infoProtection, children_eq_some.mpr hparts.parts, Option.bind_eq_bind,
      Option.bind_some, List.head?_cons, List.getElem?_cons_succ, List.getElem?_cons_zero,
      whole_eq_some.mpr hcontent, if_pos hname, children_eq_some.mpr hinner.parts,
      children_eq_some.mpr heci.parts, schemeText_eq hscheme]
  | @data oid octets bags ts texts ht hname hoctets hbags hts =>
    obtain ⟨content, hparts, -, hcontent⟩ := ht.parts
    have hother : ¬nameOf oid = "encrypted data".toList := by
      rw [hname]
      decide
    simp only [infoProtection, children_eq_some.mpr hparts.parts, Option.bind_eq_bind,
      Option.bind_some, List.head?_cons, List.getElem?_cons_succ, List.getElem?_cons_zero,
      whole_eq_some.mpr hcontent, if_neg hother, if_pos hname, hbags.whole hoctets,
      children_eq_some.mpr hbags.parts]
    exact foldlM_texts (fun _ _ h => bagProtection_eq h) hts out
  | other ht hdata hencrypted =>
    obtain ⟨content, hparts, -, hcontent⟩ := ht.parts
    simp only [infoProtection, children_eq_some.mpr hparts.parts, Option.bind_eq_bind,
      Option.bind_some, List.head?_cons, List.getElem?_cons_succ, List.getElem?_cons_zero,
      whole_eq_some.mpr hcontent, if_neg hencrypted, if_neg hdata, List.append_nil]

theorem IsAuthSafe.tag {texts : List Str} (h : IsAuthSafe t texts) : t.tag = SEQUENCE := by
  cases h with
  | data ht =>
    obtain ⟨content, hparts, -⟩ := ht.parts
    exact hparts.tag
  | other ht =>
    obtain ⟨content, hparts, -⟩ := ht.parts
    exact hparts.tag

theorem pkcs12Protection_eq {texts : List Str} (h : IsAuthSafe t texts) :
    (pkcs12Protection t).getD [] = texts := by
  cases h with
  | @data oid octets infos ts texts ht hname hoctets hinfos hts hsafes =>
    obtain ⟨content, hparts, htag, hcontent⟩ := ht.parts
    have hcontentOf : contentOf t "data" = some content.body := by
      simp only [contentOf, children_eq_some.mpr hparts.parts, Option.bind_eq_bind, Option.bind_some,
        if_pos (And.intro ht.tag (And.intro hname htag))]
    have hoctet : (some octets).filter (fun t => t.tag = OCTET_STRING) = some octets := by
      rw [Option.filter_some, decide_eq_true hoctets, if_pos rfl]
    simp only [pkcs12Protection, hcontentOf, Option.bind_eq_bind, Option.bind_some,
      whole_eq_some.mpr hcontent, hoctet, hts.whole hinfos, children_eq_some.mpr hts.parts,
      foldlM_texts (fun _ _ h => infoProtection_eq h) hsafes, List.nil_append, Option.getD_some]
  | other ht hname =>
    obtain ⟨content, hparts, -, -⟩ := ht.parts
    have hcontentOf : contentOf t "data" = none := by
      simp only [contentOf, children_eq_some.mpr hparts.parts, Option.bind_eq_bind, Option.bind_some]
      exact if_neg fun hall => hname hall.2.1
    rw [pkcs12Protection, hcontentOf]
    rfl

theorem signer_eq (h : IsSigner t oid) : signer t = some (nameOf oid) := by
  obtain ⟨version, issuer, digest, digestOid, params, attributes, alg, params', more, ht, hversion,
    hissuer, hdigest, hattributes, halg⟩ := h.parts
  have hnone : version.tag ≠ SEQUENCE := by
    rw [hversion]
    decide
  have hskip : attributes.filterMap algorithm = [] := by
    rw [List.filterMap_eq_nil_iff]
    intro a ha
    exact algorithm_none (by rw [hattributes a ha]; decide)
  have hfound : (version :: issuer :: digest :: (attributes ++ alg :: more)).filterMap algorithm =
      (digestOid, params.head?) :: (oid, params'.head?) :: more.filterMap algorithm := by
    rw [List.filterMap_cons_none (algorithm_none hnone),
      List.filterMap_cons_none (algorithm_issuer hissuer), List.filterMap_cons_some hdigest.algorithm,
      List.filterMap_append, hskip, List.nil_append, List.filterMap_cons_some halg.algorithm]
  simp only [signer, children_eq_some.mpr ht.parts, Option.bind_eq_bind, Option.bind_some, hfound,
    List.getElem?_cons_succ, List.getElem?_cons_zero]

theorem recipient_eq {text : Option Str} (h : IsRecipient t text) : recipient t = text := by
  cases h with
  | @transport version issuer alg oid params more ht hversion hissuer halg =>
    have hnone : version.tag ≠ SEQUENCE := by
      rw [hversion]
      decide
    have hfound : (version :: issuer :: alg :: more).find? (fun t => (algorithm t).isSome) = some alg := by
      rw [List.find?_cons_of_neg, List.find?_cons_of_neg, List.find?_cons_of_pos]
      · rw [halg.algorithm]; rfl
      · rw [algorithm_issuer hissuer]; exact Bool.false_ne_true
      · rw [algorithm_none hnone]; exact Bool.false_ne_true
    simp only [recipient, children_eq_some.mpr ht.parts, Option.bind_eq_bind, Option.bind_some,
      if_pos ht.tag, hfound, halg.algorithm]
  | agreement ht htag =>
    simp only [recipient, children_eq_some.mpr ht, Option.bind_eq_bind, Option.bind_some, htag]
    rfl
  | kek ht htag =>
    simp only [recipient, children_eq_some.mpr ht, Option.bind_eq_bind, Option.bind_some, htag]
    rfl
  | password ht htag =>
    simp only [recipient, children_eq_some.mpr ht, Option.bind_eq_bind, Option.bind_some, htag]
    rfl
  | other ht htag =>
    simp only [recipient, children_eq_some.mpr ht, Option.bind_eq_bind, Option.bind_some, htag]
    rfl

theorem filterMap_eq {α β γ : Type} {f : α → Option γ} {g : β → Option γ} {Is : α → β → Prop}
    (hone : ∀ a b, Is a b → f a = g b) {as : List α} {bs : List β} (h : List.Forall₂ Is as bs) :
    as.filterMap f = bs.filterMap g := by
  induction h with
  | nil => rfl
  | cons hfirst _ ih => rw [List.filterMap_cons, List.filterMap_cons, hone _ _ hfirst, ih]

theorem curve_eq {rest : List Tlv} {curve : Str} (h : IsCurve rest curve) :
    (((((rest.find? fun t => t.tag = 0xa0).bind fun t => whole t.body).filter
      fun t => t.tag = OID).map nameOf).getD "curve not named") = curve := by
  cases h with
  | named hparams hcurve htag hmore =>
    rw [List.find?_cons_of_pos (by simpa using hparams), Option.bind_some, whole_eq_some.mpr hcurve,
      Option.filter_some, decide_eq_true htag, if_pos rfl]
    rfl
  | specified hparams hcurve htag hmore =>
    rw [List.find?_cons_of_pos (by simpa using hparams), Option.bind_some, whole_eq_some.mpr hcurve,
      Option.filter_some, decide_eq_false htag, if_neg Bool.false_ne_true]
    rfl
  | unnamed hmore =>
    have hnone : rest.find? (fun t => t.tag = 0xa0) = none := by
      rw [List.find?_eq_none]
      intro t ht
      rw [hmore t ht]
      decide
    rw [hnone]
    rfl

end Parts

/-! ### What the patterns refuse -/

section Refuse
variable {a b : Tlv} {rest : List Tlv}

theorem signed_none_of_pair : certificate [a, b] = none ∧ request [a, b] = none ∧
    revocationList [a, b] = none ∧ pkcs8 [a, b] = none := ⟨rfl, rfl, rfl, rfl⟩

theorem signed_none (h : a.tag ≠ SEQUENCE) : certificate (a :: rest) = none ∧
    request (a :: rest) = none ∧ revocationList (a :: rest) = none := by
  match rest with
  | [] => exact ⟨rfl, rfl, rfl⟩
  | [_] => exact ⟨rfl, rfl, rfl⟩
  | [_, _] =>
    exact ⟨if_pos (Or.inl h), if_pos (Or.inl h), if_pos (Or.inl h)⟩
  | _ :: _ :: _ :: _ => exact ⟨rfl, rfl, rfl⟩

theorem encryptedPkcs8_none (h : b.tag ≠ OCTET_STRING ∨ a.tag ≠ SEQUENCE) :
    encryptedPkcs8 (a :: b :: rest) = none := by
  match rest with
  | [] =>
    by_cases hb : b.tag = OCTET_STRING
    · have ha : a.tag ≠ SEQUENCE := h.resolve_left (not_not.mpr hb)
      rw [encryptedPkcs8, if_neg (not_not.mpr hb), algorithm_none ha]
      rfl
    · exact if_pos hb
  | _ :: _ => rfl

theorem spki_none (h : b.tag ≠ BIT_STRING) : spki (a :: b :: rest) = none := by
  match rest with
  | [] => exact if_pos h
  | _ :: _ => rfl

theorem cms_none (h : a.tag ≠ OID) : cms (a :: b :: rest) = none := by
  match rest with
  | [] => exact if_pos (Or.inl h)
  | _ :: _ => rfl

theorem pkcs12_none (h : a.tag ≠ INTEGER ∨ a.body ≠ [3]) : pkcs12 (a :: b :: rest) = none := by
  rw [pkcs12, if_pos]
  rcases h with h | h
  · exact Or.inl h
  · exact Or.inr (Or.inl h)

theorem sec1_none (h : a.body ≠ [1]) : sec1 (a :: b :: rest) = none := by
  rw [sec1, if_pos (Or.inr (Or.inl h))]

end Refuse

/-! ### What they take -/

/-- One of the patterns takes the elements, and says the name and the algorithms before what else
there is to say. -/
def Reports (parts : List Tlv) (what : String) (algorithms : List (Str × Str)) : Prop :=
  ∃ found, families.findSome? (fun f => f parts) = some found ∧ found.what = what.toList ∧
    ∃ rest, found.facts = algorithms ++ rest ∧
      ∀ fact ∈ rest, fact.1 = "valid".toList ∨ fact.1 = "key".toList

def withValidity (found : Finding) (start stop : Option Str) : Finding :=
  match start, stop with
  | some start, some stop => found.fact "valid" (start ++ " to ".toList ++ stop)
  | _, _ => found

section Signed
variable {tbs sigAlg sig sigOid oid spki' : Tlv} {sigParams params more : List Tlv} {key : Bytes}
  (hsigAlg : IsAlgorithm sigOid sigParams sigAlg) (hsig : sig.tag = BIT_STRING)
include hsigAlg hsig

/-- Behind an optional [0] version, the serial number comes first. -/
theorem reports_certificate {serial inner issuer validity start stop subject : Tlv} {version : List Tlv}
    (htbs : IsSequence (version ++ serial :: inner :: issuer :: validity :: subject :: spki' :: more) tbs)
    (hversion : version = [] ∨ ∃ v, version = [v] ∧ v.tag = 0xa0) (hserial : serial.tag = INTEGER)
    (hvalidity : IsSequence [start, stop] validity) (hspki : IsSpki oid params key spki') :
    Reports [tbs, sigAlg, sig] "X.509 certificate" [("signature".toList, nameOf sigOid),
      ("public key".toList, keyName oid params (some key))] := by
  have houter : ¬(tbs.tag ≠ SEQUENCE ∨ sig.tag ≠ BIT_STRING) := by simp [htbs.tag, hsig]
  have hinner : ¬(serial.tag ≠ INTEGER ∨ validity.tag ≠ SEQUENCE) := by simp [hserial, hvalidity.tag]
  have hfields : ∃ first, (version ++ serial :: inner :: issuer :: validity :: subject :: spki' ::
      more).head? = some first ∧ (if first.tag = 0xa0 then (version ++ serial :: inner :: issuer ::
        validity :: subject :: spki' :: more).tail else version ++ serial :: inner :: issuer ::
          validity :: subject :: spki' :: more) =
        serial :: inner :: issuer :: validity :: subject :: spki' :: more := by
    rcases hversion with rfl | ⟨v, rfl, hv⟩
    · exact ⟨serial, rfl, if_neg (by rw [hserial]; decide)⟩
    · exact ⟨v, rfl, if_pos hv⟩
  obtain ⟨first, hhead, hfields⟩ := hfields
  have hbefore : certificate [tbs, sigAlg, sig] = some (
      withValidity (((Finding.new "X.509 certificate").fact "signature" (nameOf sigOid)).fact
        "public key" (keyName oid params (some key))) (time start) (time stop)) := by
    simp only [certificate, if_neg houter, children_eq_some.mpr htbs.parts, Option.bind_eq_bind,
      Option.bind_some, hhead, hfields, if_neg hinner, children_eq_some.mpr hvalidity.parts,
      signatureName_eq hsigAlg, spkiKey_eq hspki, Option.getD_some]
    cases time start with
    | none => rfl
    | some start =>
      cases time stop with
      | none => rfl
      | some stop => rfl
  refine ⟨_, by rw [families, List.findSome?_cons, hbefore], ?_⟩
  cases time start with
  | none => exact ⟨rfl, [], rfl, by simp⟩
  | some start =>
    cases time stop with
    | none => exact ⟨rfl, [], rfl, by simp⟩
    | some stop => exact ⟨rfl, [_], rfl, by simp⟩

/-- A request has too few fields for a certificate. -/
theorem reports_request {info subject : Tlv} {attributes : List Tlv}
    (hinfo : IsSequence (⟨INTEGER, [0]⟩ :: subject :: spki' :: attributes) info)
    (hattributes : ∀ a ∈ attributes, a.tag = 0xa0) (hspki : IsSpki oid params key spki') :
    Reports [info, sigAlg, sig] "certificate signing request (PKCS#10)"
      [("signature".toList, nameOf sigOid), ("public key".toList, keyName oid params (some key))] := by
  have houter : ¬(info.tag ≠ SEQUENCE ∨ sig.tag ≠ BIT_STRING) := by simp [hinfo.tag, hsig]
  have hcertificate : certificate [info, sigAlg, sig] = none := by
    simp only [certificate, if_neg houter, children_eq_some.mpr hinfo.parts, Option.bind_eq_bind,
      Option.bind_some, List.head?_cons]
    rw [if_neg (by decide : ¬(⟨INTEGER, [0]⟩ : Tlv).tag = 0xa0)]
    match attributes with
    | [] => rfl
    | [_] => rfl
    | [_, _] => rfl
    | a :: _ :: _ :: _ =>
      have ha : a.tag ≠ SEQUENCE := by
        rw [hattributes a (List.mem_cons_self ..)]
        decide
      exact if_pos (Or.inr ha)
  obtain ⟨alg, bits, -, -, -, hspkiTag⟩ := hspki.parts
  have hinner : ¬((⟨INTEGER, [0]⟩ : Tlv).tag ≠ INTEGER ∨ (⟨INTEGER, [0]⟩ : Tlv).body ≠ [0] ∨
      spki'.tag ≠ SEQUENCE) := by simp [hspkiTag.tag]
  have hrequest : request [info, sigAlg, sig] = some (((Finding.new
      "certificate signing request (PKCS#10)").fact "signature" (nameOf sigOid)).fact "public key"
        (keyName oid params (some key))) := by
    simp only [request, if_neg houter, children_eq_some.mpr hinfo.parts, Option.bind_eq_bind,
      Option.bind_some, if_neg hinner, signatureName_eq hsigAlg, spkiKey_eq hspki]
  refine ⟨_, by rw [families, List.findSome?_cons, hcertificate, List.findSome?_cons, hrequest], ?_⟩
  exact ⟨rfl, [], rfl, by simp⟩

/-- Where a certificate has its validity and a request its key, a list has a time or is not numbered
zero. -/
theorem reports_revocationList {alg issuer thisUpdate : Tlv} {version : List Tlv}
    (htbs : IsSequence (version ++ alg :: issuer :: thisUpdate :: more) tbs)
    (hversion : version = [] ∨ version = [⟨INTEGER, [1]⟩]) (halg : alg.tag = SEQUENCE)
    (hissuer : issuer.tag = SEQUENCE) (hupdate : IsTime thisUpdate) :
    Reports [tbs, sigAlg, sig] "certificate revocation list (X.509 CRL)"
      [("signature".toList, nameOf sigOid)] := by
  have houter : ¬(tbs.tag ≠ SEQUENCE ∨ sig.tag ≠ BIT_STRING) := by simp [htbs.tag, hsig]
  have htime : thisUpdate.tag ≠ SEQUENCE := by
    rcases hupdate.tag with htag | htag <;> rw [htag] <;> decide
  obtain ⟨text, htext⟩ := time_some hupdate
  have hinner : ¬(alg.tag ≠ SEQUENCE ∨ issuer.tag ≠ SEQUENCE ∨ time thisUpdate = none) := by
    simp [halg, hissuer, htext]
  have hnot : alg.tag ≠ INTEGER := by
    rw [halg]
    decide
  -- not a certificate: no serial number leads, or a time stands where the validity should
  have hcertificate : certificate [tbs, sigAlg, sig] = none := by
    simp only [certificate, if_neg houter, children_eq_some.mpr htbs.parts, Option.bind_eq_bind,
      Option.bind_some]
    rcases hversion with rfl | rfl
    · rw [List.nil_append, List.head?_cons, Option.bind_some, if_neg (by rw [halg]; decide)]
      match more with
      | [] => rfl
      | [_] => rfl
      | [_, _] => rfl
      | _ :: _ :: _ :: _ => exact if_pos (Or.inl hnot)
    · rw [List.singleton_append, List.head?_cons, Option.bind_some, if_neg (by decide)]
      match more with
      | [] => rfl
      | [_] => rfl
      | _ :: _ :: _ => exact if_pos (Or.inr htime)
  -- nor a request: one starts with version 0, a list with no version or with 1
  have hrequest : request [tbs, sigAlg, sig] = none := by
    simp only [request, if_neg houter, children_eq_some.mpr htbs.parts, Option.bind_eq_bind,
      Option.bind_some]
    rcases hversion with rfl | rfl
    · exact if_pos (Or.inl hnot)
    · exact if_pos (Or.inr (Or.inl (by decide)))
  have hlist : revocationList [tbs, sigAlg, sig] = some ((Finding.new
      "certificate revocation list (X.509 CRL)").fact "signature" (nameOf sigOid)) := by
    simp only [revocationList, if_neg houter, children_eq_some.mpr htbs.parts, Option.bind_eq_bind,
      Option.bind_some]
    have hname := signatureName_eq hsigAlg
    rcases hversion with rfl | rfl
    · rw [List.nil_append, List.head?_cons, Option.bind_some, if_neg hnot]
      simp only [if_neg hinner, hname, Option.bind_some]
    · rw [List.singleton_append, List.head?_cons, Option.bind_some, if_pos rfl]
      simp only [List.tail_cons, if_neg hinner, hname, Option.bind_some]
  refine ⟨_, by rw [families, List.findSome?_cons, hcertificate, List.findSome?_cons, hrequest,
    List.findSome?_cons, hlist], ?_⟩
  exact ⟨rfl, [], rfl, by simp⟩

end Signed

section Keys
variable {alg bits key data authSafe oid : Tlv} {params rest : List Tlv}

/-- What a pair of elements that no pattern before `encrypted_pkcs8` looks at is told as. -/
theorem findSome_pair {a b : Tlv} : families.findSome? (fun f => f [a, b]) =
    [encryptedPkcs8, spki, pkcs12, cms, sec1, pkcs1Private].findSome? fun f => f [a, b] := by
  obtain ⟨h1, h2, h3, h4⟩ := @signed_none_of_pair a b
  simp only [families, List.findSome?_cons, h1, h2, h3, h4]

/-- What begins with an INTEGER is signed by no one. -/
theorem findSome_integer {a : Tlv} (h : a.tag = INTEGER) : families.findSome? (fun f => f (a :: rest)) =
    [pkcs8, encryptedPkcs8, spki, pkcs12, cms, sec1, pkcs1Private].findSome? fun f => f (a :: rest) := by
  obtain ⟨h1, h2, h3⟩ := @signed_none a rest (by rw [h]; decide)
  simp only [families, List.findSome?_cons, h1, h2, h3]

theorem reports_pkcs8 {version : UInt8} (hversion : version ≤ 1) (halg : IsAlgorithm oid params alg)
    (hkey : key.tag = OCTET_STRING) : Reports (⟨INTEGER, [version]⟩ :: alg :: key :: rest)
      "private key (PKCS#8)" [("algorithm".toList, keyName oid params (some key.body))] := by
  have hone : version = 0 ∨ version = 1 := by
    rw [UInt8.le_iff_toNat_le] at hversion
    rcases Nat.le_one_iff_eq_zero_or_eq_one.mp hversion with h | h
    · exact .inl (UInt8.toNat_inj.mp h)
    · exact .inr (UInt8.toNat_inj.mp h)
  have hguard : ¬((⟨INTEGER, [version]⟩ : Tlv).tag ≠ INTEGER ∨ ((⟨INTEGER, [version]⟩ : Tlv).body ≠ [0] ∧
      (⟨INTEGER, [version]⟩ : Tlv).body ≠ [1]) ∨ key.tag ≠ OCTET_STRING) := by
    rcases hone with rfl | rfl <;> simp [hkey]
  have hpkcs8 : pkcs8 (⟨INTEGER, [version]⟩ :: alg :: key :: rest) = some (((Finding.new
      "private key (PKCS#8)").fact "algorithm" (keyName oid params (some key.body))).fact "key"
        "not shown") := by
    simp only [pkcs8, if_neg hguard, keyAlgorithm_eq halg, Option.bind_eq_bind, Option.bind_some]
  refine ⟨_, by rw [findSome_integer rfl, List.findSome?_cons, hpkcs8], rfl, [_], rfl, by simp⟩

theorem reports_encrypted (halg : IsAlgorithm oid params alg) (hname : nameOf oid ≠ "PBES2".toList)
    (hdata : data.tag = OCTET_STRING) :
    Reports [alg, data] "encrypted private key (PKCS#8)" [("scheme".toList, nameOf oid)] := by
  have hencrypted : encryptedPkcs8 [alg, data] =
      some ((Finding.new "encrypted private key (PKCS#8)").fact "scheme" (nameOf oid)) := by
    simp only [encryptedPkcs8, if_neg (not_not.mpr hdata), halg.algorithm, Option.bind_eq_bind,
      Option.bind_some, if_neg hname]
  exact ⟨_, by rw [findSome_pair, List.findSome?_cons, hencrypted], rfl, [], rfl, by simp⟩

theorem reports_pbes2 {param cipher : Tlv} {kdf : Str} (halg : IsAlgorithm oid [param] alg)
    (hname : nameOf oid = "PBES2".toList) (hparams : IsPbes2 kdf cipher param)
    (hdata : data.tag = OCTET_STRING) : Reports [alg, data] "encrypted private key (PKCS#8)"
      [("key from".toList, kdf), ("cipher".toList, nameOf cipher)] := by
  have hencrypted : encryptedPkcs8 [alg, data] = some (((Finding.new
      "encrypted private key (PKCS#8)").fact "key from" kdf).fact "cipher" (nameOf cipher)) := by
    simp only [encryptedPkcs8, if_neg (not_not.mpr hdata), halg.algorithm, Option.bind_eq_bind,
      Option.bind_some, if_pos hname, List.head?_cons, pbes2_eq hparams]
  exact ⟨_, by rw [findSome_pair, List.findSome?_cons, hencrypted], rfl, [], rfl, by simp⟩

theorem reports_spki {unused : UInt8} {content : Bytes} (halg : IsAlgorithm oid params alg)
    (hbits : bits = ⟨BIT_STRING, unused :: content⟩) :
    Reports [alg, bits] "public key (SubjectPublicKeyInfo)"
      [("algorithm".toList, keyName oid params (some content))] := by
  subst hbits
  have hencrypted : encryptedPkcs8 [alg, ⟨BIT_STRING, unused :: content⟩] = none :=
    encryptedPkcs8_none (Or.inl (show BIT_STRING ≠ OCTET_STRING by decide))
  have hkey : range (unused :: content) 1 (unused :: content).length = some content := by
    rw [range, if_pos ⟨by simp, Nat.le_refl _⟩]
    simp
  have hspki : spki [alg, ⟨BIT_STRING, unused :: content⟩] = some ((Finding.new
      "public key (SubjectPublicKeyInfo)").fact "algorithm" (keyName oid params (some content))) := by
    simp only [spki, if_neg (not_not.mpr rfl), hkey, keyAlgorithm_eq halg, Option.bind_eq_bind,
      Option.bind_some]
  exact ⟨_, by rw [findSome_pair, List.findSome?_cons, hencrypted, List.findSome?_cons, hspki], rfl, [],
    rfl, by simp⟩

theorem reports_pkcs12 {macs : List Tlv} {texts : List Str} (hsafe : IsAuthSafe authSafe texts)
    (htag : authSafe.tag = SEQUENCE) {integrity : List (Str × Str)}
    (hmacs : macs = [] ∧ integrity = [] ∨ ∃ mac text, macs = [mac] ∧ IsMac mac text ∧
      integrity = [("integrity".toList, text)]) :
    Reports (⟨INTEGER, [3]⟩ :: authSafe :: macs) "PKCS#12 bundle (PFX)"
      (integrity ++ protection texts) := by
  have hpkcs8 : pkcs8 (⟨INTEGER, [3]⟩ :: authSafe :: macs) = none := by
    match macs with
    | [] => rfl
    | t :: _ =>
      have hguard : (⟨INTEGER, [3]⟩ : Tlv).tag ≠ INTEGER ∨ ((⟨INTEGER, [3]⟩ : Tlv).body ≠ [0] ∧
          (⟨INTEGER, [3]⟩ : Tlv).body ≠ [1]) ∨ t.tag ≠ OCTET_STRING := by simp
      simp only [pkcs8, if_pos hguard]
  have hencrypted : encryptedPkcs8 (⟨INTEGER, [3]⟩ :: authSafe :: macs) = none :=
    encryptedPkcs8_none (Or.inr (show INTEGER ≠ SEQUENCE by decide))
  have hspki : spki (⟨INTEGER, [3]⟩ :: authSafe :: macs) = none := spki_none (by rw [htag]; decide)
  have hguard : ¬((⟨INTEGER, [3]⟩ : Tlv).tag ≠ INTEGER ∨ (⟨INTEGER, [3]⟩ : Tlv).body ≠ [3] ∨
      authSafe.tag ≠ SEQUENCE) := by simp [htag]
  have hpkcs12 : ∃ found, pkcs12 (⟨INTEGER, [3]⟩ :: authSafe :: macs) = some found ∧
      found.what = "PKCS#12 bundle (PFX)".toList ∧
        found.facts = integrity ++ protection texts := by
    rcases hmacs with ⟨rfl, rfl⟩ | ⟨mac, text, rfl, hmac, rfl⟩
    · simp only [pkcs12, if_neg hguard, List.head?_nil, Option.bind_none, pkcs12Protection_eq hsafe,
        protection]
      split
      · exact ⟨_, rfl, rfl, rfl⟩
      · exact ⟨_, rfl, rfl, rfl⟩
    · simp only [pkcs12, if_neg hguard, List.head?_cons, Option.bind_some, macData_eq hmac,
        pkcs12Protection_eq hsafe, protection]
      split
      · exact ⟨_, rfl, rfl, rfl⟩
      · exact ⟨_, rfl, rfl, rfl⟩
  obtain ⟨found, hfound, hwhat, hfacts⟩ := hpkcs12
  refine ⟨found, by rw [findSome_integer rfl, List.findSome?_cons, hpkcs8, List.findSome?_cons,
    hencrypted, List.findSome?_cons, hspki, List.findSome?_cons, hfound], hwhat, [], ?_, by simp⟩
  rw [hfacts, List.append_nil]

theorem reports_sec1 {curve : Str} (hkey : key.tag = OCTET_STRING) (hcurve : IsCurve rest curve) :
    Reports (⟨INTEGER, [1]⟩ :: key :: rest) "EC private key (SEC1)"
      [("algorithm".toList, "EC ".toList ++ curve)] := by
  have hpkcs8 : pkcs8 (⟨INTEGER, [1]⟩ :: key :: rest) = none := by
    match rest, hcurve with
    | [], _ => rfl
    | t :: ts, hcurve =>
      have ht : t.tag = 0xa0 ∨ t.tag = 0xa1 := by
        cases hcurve with
        | named hparams _ _ _ => exact .inl hparams
        | specified hparams _ _ _ => exact .inl hparams
        | unnamed hmore => exact .inr (hmore t (List.mem_cons_self ..))
      have hnot : t.tag ≠ OCTET_STRING := by
        rcases ht with ht | ht <;> rw [ht] <;> decide
      exact if_pos (Or.inr (Or.inr hnot))
  have hencrypted : encryptedPkcs8 (⟨INTEGER, [1]⟩ :: key :: rest) = none :=
    encryptedPkcs8_none (Or.inr (show INTEGER ≠ SEQUENCE by decide))
  have hspki : spki (⟨INTEGER, [1]⟩ :: key :: rest) = none := spki_none (by rw [hkey]; decide)
  have hpkcs12 : pkcs12 (⟨INTEGER, [1]⟩ :: key :: rest) = none := pkcs12_none (.inr (by simp))
  have hcms : cms (⟨INTEGER, [1]⟩ :: key :: rest) = none := cms_none (show INTEGER ≠ OID by decide)
  have hguard : ¬((⟨INTEGER, [1]⟩ : Tlv).tag ≠ INTEGER ∨ (⟨INTEGER, [1]⟩ : Tlv).body ≠ [1] ∨
      key.tag ≠ OCTET_STRING) := by simp [hkey]
  have hsec1 : sec1 (⟨INTEGER, [1]⟩ :: key :: rest) = some (((Finding.new
      "EC private key (SEC1)").fact "algorithm" ("EC ".toList ++ curve)).fact "key" "not shown") := by
    simp only [sec1, if_neg hguard, curve_eq hcurve]
  refine ⟨_, by rw [findSome_integer rfl, List.findSome?_cons, hpkcs8, List.findSome?_cons, hencrypted,
    List.findSome?_cons, hspki, List.findSome?_cons, hpkcs12, List.findSome?_cons, hcms,
    List.findSome?_cons, hsec1], rfl, [_], rfl, by simp⟩

theorem reports_pkcs1Private {n : Tlv} (hn : n.tag = INTEGER) (hrest : ∀ t ∈ rest, t.tag = INTEGER)
    (hlength : rest.length = 7) : Reports (⟨INTEGER, [0]⟩ :: n :: rest) "RSA private key (PKCS#1)"
      [("algorithm".toList, rsaText (integerBits n.body))] := by
  have hpkcs8 : pkcs8 (⟨INTEGER, [0]⟩ :: n :: rest) = none := by
    match rest, hrest with
    | [], _ => rfl
    | e :: ts, hrest =>
      have he : e.tag ≠ OCTET_STRING := by
        rw [hrest e (List.mem_cons_self ..)]
        decide
      exact if_pos (Or.inr (Or.inr he))
  have hencrypted : encryptedPkcs8 (⟨INTEGER, [0]⟩ :: n :: rest) = none :=
    encryptedPkcs8_none (Or.inr (show INTEGER ≠ SEQUENCE by decide))
  have hspki : spki (⟨INTEGER, [0]⟩ :: n :: rest) = none := spki_none (by rw [hn]; decide)
  have hpkcs12 : pkcs12 (⟨INTEGER, [0]⟩ :: n :: rest) = none := pkcs12_none (.inr (by simp))
  have hcms : cms (⟨INTEGER, [0]⟩ :: n :: rest) = none := cms_none (show INTEGER ≠ OID by decide)
  have hsec1 : sec1 (⟨INTEGER, [0]⟩ :: n :: rest) = none := sec1_none (by simp)
  have hall : ((⟨INTEGER, [0]⟩ :: n :: rest).any fun t => t.tag ≠ INTEGER) = false := by
    rw [List.any_eq_false]
    intro t ht
    have htag : t.tag = INTEGER := by
      rcases List.mem_cons.mp ht with rfl | ht
      · rfl
      · rcases List.mem_cons.mp ht with rfl | ht
        · exact hn
        · exact hrest t ht
    simp [htag]
  have hguard : ¬((⟨INTEGER, [0]⟩ :: n :: rest).length ≠ 9 ∨
      ((⟨INTEGER, [0]⟩ :: n :: rest).any fun t => t.tag ≠ INTEGER) ∨
        (⟨INTEGER, [0]⟩ : Tlv).body ≠ [0]) := by
    rw [hall]
    simp [hlength]
  have hpkcs1 : pkcs1Private (⟨INTEGER, [0]⟩ :: n :: rest) = some (((Finding.new
      "RSA private key (PKCS#1)").fact "algorithm" (rsaText (integerBits n.body))).fact "key"
        "not shown") := if_neg hguard
  refine ⟨_, by rw [findSome_integer rfl, List.findSome?_cons, hpkcs8, List.findSome?_cons, hencrypted,
    List.findSome?_cons, hspki, List.findSome?_cons, hpkcs12, List.findSome?_cons, hcms,
    List.findSome?_cons, hsec1, List.findSome?_cons, hpkcs1], rfl, [_], rfl, by simp⟩

end Keys

section Messages
variable {oid content inner version : Tlv} (hoid : oid.tag = OID) (hcontent : content.tag = 0xa0)
include hoid hcontent

/-- Only `cms` looks at an OID before a [0]. -/
theorem reports_cms {what : String} {found : Finding} (hcms : cms [oid, content] = some found)
    (hwhat : found.what = what.toList) : Reports [oid, content] what found.facts := by
  have hencrypted : encryptedPkcs8 [oid, content] = none :=
    encryptedPkcs8_none (Or.inl (by rw [hcontent]; decide))
  have hspki : spki [oid, content] = none := spki_none (by rw [hcontent]; decide)
  have hpkcs12 : pkcs12 [oid, content] = none := pkcs12_none (.inl (by rw [hoid]; decide))
  refine ⟨found, by rw [findSome_pair, List.findSome?_cons, hencrypted, List.findSome?_cons, hspki,
    List.findSome?_cons, hpkcs12, List.findSome?_cons, hcms], hwhat, [], ?_, by simp⟩
  rw [List.append_nil]

theorem reports_signed {digests encap signers : Tlv} {algs oids more infos names : List Tlv}
    (hname : nameOf oid = "signed data".toList) (hinner : Encodes inner content.body)
    (hfields : IsSequence (version :: digests :: encap :: (more ++ [signers])) inner)
    (hversion : version.tag = INTEGER) (hdigests : digests.tag = SET) (halgs : Encoded algs digests.body)
    (hoids : List.Forall₂ (fun alg oid => ∃ params, IsAlgorithm oid params alg) algs oids)
    (hsigners : signers.tag = SET) (hinfos : Encoded infos signers.body)
    (hnames : List.Forall₂ IsSigner infos names) :
    Reports [oid, content] "CMS signed data (S/MIME, PKCS#7)"
      (("digest".toList, Str.join ", " (oids.map nameOf)) ::
        said "signature" (Str.join ", " (names.map nameOf))) := by
  have hnot : version.tag ≠ SET := by
    rw [hversion]
    decide
  have hkind : ¬(nameOf oid = "enveloped data".toList ∨
      nameOf oid = "authenticated enveloped data".toList) := by
    rw [hname]
    decide
  -- the first SET holds the digests, and the last one the signers
  have hfirst : setOf (version :: digests :: encap :: (more ++ [signers])) = some algs := by
    rw [setOf, List.find?_cons_of_neg (by simpa using hnot), List.find?_cons_of_pos (by simpa using hdigests),
      Option.bind_some, children_eq_some.mpr halgs]
  have hlast : setOf (version :: digests :: encap :: (more ++ [signers])).reverse = some infos := by
    have hreverse : (version :: digests :: encap :: (more ++ [signers])).reverse =
        signers :: (version :: digests :: encap :: more).reverse := by simp
    rw [hreverse, setOf, List.find?_cons_of_pos (by simpa using hsigners), Option.bind_some,
      children_eq_some.mpr hinfos]
  have hdigestNames : (algs.filterMap algorithm).map (fun x => nameOf x.1) = oids.map nameOf := by
    rw [List.map_filterMap, ← List.filterMap_eq_map]
    refine filterMap_eq ?_ hoids
    rintro alg oid ⟨params, halg⟩
    rw [halg.algorithm]
    rfl
  have hsignerNames : infos.filterMap signer = names.map nameOf := by
    rw [← List.filterMap_eq_map]
    refine filterMap_eq ?_ hnames
    intro info oid hsigner
    exact signer_eq hsigner
  have hsigned : (signedData (version :: digests :: encap :: (more ++ [signers]))).facts =
      ("digest".toList, Str.join ", " (oids.map nameOf)) ::
        said "signature" (Str.join ", " (names.map nameOf)) := by
    simp only [signedData, hfirst, hlast, Option.map_some, Option.getD_some, hdigestNames,
      hsignerNames, said]
    split
    · rfl
    · rfl
  have hcms : cms [oid, content] =
      some (signedData (version :: digests :: encap :: (more ++ [signers]))) := by
    have hguard : ¬(oid.tag ≠ OID ∨ content.tag ≠ 0xa0) := by simp [hoid, hcontent]
    simp only [cms, if_neg hguard, hfields.whole hinner, children_eq_some.mpr hfields.parts,
      Option.bind_eq_bind, Option.bind_some, if_neg hkind, if_pos hname]
  rw [← hsigned]
  refine reports_cms hoid hcontent hcms ?_
  unfold signedData
  dsimp only
  split
  · rfl
  · rfl

/-- The only SET before the encrypted content holds the recipients, and no SEQUENCE follows it. -/
theorem reports_enveloped {recipients eci kind alg cipher : Tlv}
    {originator more more' infos params : List Tlv} {texts : List (Option Str)} {name : String}
    (hkind : name = "enveloped data" ∨ name = "authenticated enveloped data")
    (hname : nameOf oid = name.toList) (hinner : Encodes inner content.body)
    (hfields : IsSequence (version :: (originator ++ recipients :: eci :: more)) inner)
    (hversion : version.tag = INTEGER) (horiginator : ∀ t ∈ originator, t.tag = 0xa0)
    (hset : recipients.tag = SET) (hinfos : Encoded infos recipients.body)
    (htexts : List.Forall₂ IsRecipient infos texts) (heci : IsSequence (kind :: alg :: more') eci)
    (halg : IsAlgorithm cipher params alg) (hmore : ∀ t ∈ more, t.tag ≠ SEQUENCE) :
    Reports [oid, content] ("CMS " ++ name ++ " (S/MIME, PKCS#7)")
      (("cipher".toList, nameOf cipher) :: said "recipients" (Str.join ", " (texts.filterMap id))) := by
  have hnot : version.tag ≠ SET := by
    rw [hversion]
    decide
  -- the first SET holds the recipients: no version and no originator is one
  have hrecipients : setOf (version :: (originator ++ recipients :: eci :: more)) = some infos := by
    have hnone : originator.find? (fun t => t.tag = SET) = none := by
      rw [List.find?_eq_none]
      intro t ht
      rw [horiginator t ht]
      decide
    rw [setOf, List.find?_cons_of_neg (by simpa using hnot), List.find?_append, hnone, Option.none_or,
      List.find?_cons_of_pos (by simpa using hset), Option.bind_some, children_eq_some.mpr hinfos]
  -- the last SEQUENCE is the encrypted content: nothing behind it is one
  have heciFound : (version :: (originator ++ recipients :: eci :: more)).reverse.find?
      (fun t => t.tag = SEQUENCE) = some eci := by
    have hreverse : (version :: (originator ++ recipients :: eci :: more)).reverse =
        more.reverse ++ eci :: (version :: (originator ++ [recipients])).reverse := by simp
    have hnone : more.reverse.find? (fun t => t.tag = SEQUENCE) = none := by
      rw [List.find?_eq_none]
      intro t ht
      simpa using hmore t (List.mem_reverse.mp ht)
    rw [hreverse, List.find?_append, hnone, Option.none_or, List.find?_cons_of_pos (by simpa using heci.tag)]
  have htextsFound : infos.filterMap recipient = texts.filterMap id := by
    refine filterMap_eq ?_ htexts
    intro info text hrecipient
    exact recipient_eq hrecipient
  have henveloped : ∃ found, envelopedData (nameOf oid) (version :: (originator ++ recipients :: eci ::
      more)) = some found ∧ found.what = "CMS ".toList ++ nameOf oid ++ " (S/MIME, PKCS#7)".toList ∧
        found.facts = ("cipher".toList, nameOf cipher) ::
          said "recipients" (Str.join ", " (texts.filterMap id)) := by
    simp only [envelopedData, heciFound, children_eq_some.mpr heci.parts, List.getElem?_cons_succ,
      List.getElem?_cons_zero, halg.algorithm, Option.bind_eq_bind, Option.bind_some, hrecipients,
      Option.map_some, Option.getD_some, htextsFound, said]
    split
    · exact ⟨_, rfl, rfl, rfl⟩
    · exact ⟨_, rfl, rfl, rfl⟩
  obtain ⟨found, hfound, hwhat, hfacts⟩ := henveloped
  have hcms : cms [oid, content] = some found := by
    have hguard : ¬(oid.tag ≠ OID ∨ content.tag ≠ 0xa0) := by simp [hoid, hcontent]
    have hkind : nameOf oid = "enveloped data".toList ∨
        nameOf oid = "authenticated enveloped data".toList := by
      rcases hkind with rfl | rfl
      · exact .inl hname
      · exact .inr hname
    simp only [cms, if_neg hguard, hfields.whole hinner, children_eq_some.mpr hfields.parts,
      Option.bind_eq_bind, Option.bind_some, if_pos hkind, hfound]
  rw [← hfacts]
  refine reports_cms hoid hcontent hcms ?_
  rw [hwhat, hname]
  simp [String.toList_append]

theorem reports_encryptedData {eci kind alg : Tlv} {more more' : List Tlv} {scheme : Str}
    (hname : nameOf oid = "encrypted data".toList) (hinner : Encodes inner content.body)
    (hfields : IsSequence (version :: eci :: more) inner) (heci : IsSequence (kind :: alg :: more') eci)
    (hscheme : IsScheme alg scheme) :
    Reports [oid, content] "CMS encrypted data (PKCS#7)" [("encryption".toList, scheme)] := by
  have hcms : cms [oid, content] =
      some ((Finding.new "CMS encrypted data (PKCS#7)").fact "encryption" scheme) := by
    have hguard : ¬(oid.tag ≠ OID ∨ content.tag ≠ 0xa0) := by simp [hoid, hcontent]
    have henveloped : ¬(nameOf oid = "enveloped data".toList ∨
        nameOf oid = "authenticated enveloped data".toList) := by
      rw [hname]
      decide
    have hsigned : ¬nameOf oid = "signed data".toList := by
      rw [hname]
      decide
    simp only [cms, if_neg hguard, hfields.whole hinner, children_eq_some.mpr hfields.parts,
      Option.bind_eq_bind, Option.bind_some, if_neg henveloped, if_neg hsigned, if_pos hname,
      List.getElem?_cons_succ, List.getElem?_cons_zero, children_eq_some.mpr heci.parts,
      schemeText_eq hscheme]
  exact reports_cms hoid hcontent hcms rfl

end Messages

theorem Structure.reports {parts : List Tlv} {what : String} {algorithms : List (Str × Str)}
    (h : Structure parts what algorithms) : Reports parts what algorithms := by
  cases h with
  | certificate htbs hversion hserial hvalidity hspki hsigAlg hsig =>
    exact reports_certificate hsigAlg hsig htbs hversion hserial hvalidity hspki
  | request hinfo hattributes hspki hsigAlg hsig =>
    exact reports_request hsigAlg hsig hinfo hattributes hspki
  | revocationList htbs hversion halg hissuer hupdate hsigAlg hsig =>
    exact reports_revocationList hsigAlg hsig htbs hversion halg hissuer hupdate
  | pkcs8 hversion halg hkey => exact reports_pkcs8 hversion halg hkey
  | pbes2 halg hname hparams hdata => exact reports_pbes2 halg hname hparams hdata
  | encrypted halg hname hdata => exact reports_encrypted halg hname hdata
  | spki halg hbits => exact reports_spki halg hbits
  | pkcs12 hsafe hmac => exact reports_pkcs12 hsafe hsafe.tag (.inr ⟨_, _, rfl, hmac, rfl⟩)
  | pkcs12Signed hsafe => exact reports_pkcs12 hsafe hsafe.tag (.inl ⟨rfl, rfl⟩)
  | signed hoid hname hcontent hinner hfields hversion hdigests halgs hoids hsigners hinfos hnames =>
    exact reports_signed hoid hcontent hname hinner hfields hversion hdigests halgs hoids hsigners
      hinfos hnames
  | enveloped hoid hkind hname hcontent hinner hfields hversion horiginator hset hinfos htexts heci
      halg hmore =>
    exact reports_enveloped hoid hcontent hkind hname hinner hfields hversion horiginator hset hinfos
      htexts heci halg hmore
  | encryptedData hoid hname hcontent hinner hfields heci hscheme =>
    exact reports_encryptedData hoid hcontent hname hinner hfields heci hscheme
  | sec1 hkey hcurve => exact reports_sec1 hkey hcurve
  | pkcs1Private hn hrest hlength => exact reports_pkcs1Private hn hrest hlength

theorem fromDer_eq {parts : List Tlv} {outer : Tlv} {input : Bytes} (h : IsSequence parts outer)
    (hinput : Encodes outer input) : fromDer input = families.findSome? fun f => f parts := by
  simp only [fromDer, h.whole hinput, children_eq_some.mpr h.parts, Option.bind_eq_bind,
    Option.bind_some]

/-- The bytes of a well-formed structure: one SEQUENCE of its elements, each with its own length. -/
def IsA (what : String) (algorithms : List (Str × Str)) (input : Bytes) : Prop :=
  ∃ parts outer, Structure parts what algorithms ∧ IsSequence parts outer ∧ Encodes outer input

theorem IsA.found {what : String} {algorithms : List (Str × Str)} {input : Bytes}
    (h : IsA what algorithms input) : ∃ found, fromDer input = some found ∧
      found.what = what.toList ∧ ∃ rest, found.facts = algorithms ++ rest ∧
        ∀ fact ∈ rest, fact.1 = "valid".toList ∨ fact.1 = "key".toList := by
  obtain ⟨parts, outer, hparts, houter, hinput⟩ := h
  rw [fromDer_eq houter hinput]
  exact hparts.reports

end Krypto.Inspect.Pkix
