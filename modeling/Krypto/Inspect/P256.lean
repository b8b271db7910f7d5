import Krypto.Inspect.Families
import Krypto.Inspect.Nested

/-! Which inputs the fast path for P-256 private keys takes, and on which of them it is right. -/

namespace Krypto.Inspect
open Effect Der

def idEcPublicKey : Bytes := [0x2a, 0x86, 0x48, 0xce, 0x3d, 0x02, 0x01]

def idP256 : Bytes := [0x2a, 0x86, 0x48, 0xce, 0x3d, 0x03, 0x01, 0x07]

/-- Shorter than 512 bytes, starting as a SEQUENCE does, with INTEGER 0 and the two OIDs somewhere
in the first 48 bytes. -/
def Marked (input : Bytes) : Prop :=
  input.length < 512 ∧ input.head? = some 0x30 ∧ [0x02, 0x01, 0x00] <:+: input.take 48 ∧
    [0x06, 0x07] ++ idEcPublicKey <:+: input.take 48 ∧ [0x06, 0x08] ++ idP256 <:+: input.take 48

theorem pkcs8P256_isSome {input : Bytes} : (pkcs8P256 input).isSome ↔ Marked input := by
  have hiff : ((input.length < 512 ∧ input.head? = some 0x30 ∧
      has (input.take 48) [0x02, 0x01, 0x00]) ∧ has (input.take 48) OID_EC_PUBLIC_KEY ∧
        has (input.take 48) OID_P256) ↔ Marked input := by
    simp only [has_eq_true, Marked, and_assoc]
    rfl
  simp only [pkcs8P256]
  by_cases h : Marked input
  · rw [if_pos (hiff.mpr h)]
    exact iff_of_true rfl h
  · rw [if_neg (mt hiff.mp h)]
    exact iff_of_false Bool.false_ne_true h

/-- The bytes of a P-256 private key: one element that is a SEQUENCE of INTEGER 0, the SEQUENCE of
the two OIDs, an OCTET STRING and any further elements, each with its own length. -/
def Layout (input : Bytes) : Prop :=
  ∃ version alg oid curve key content rest ts,
    Encodes ⟨SEQUENCE, version ++ (alg ++ (key ++ rest))⟩ input ∧ Encodes ⟨INTEGER, [0]⟩ version ∧
      Encodes ⟨SEQUENCE, oid ++ curve⟩ alg ∧ Encodes ⟨OID, idEcPublicKey⟩ oid ∧
        Encodes ⟨OID, idP256⟩ curve ∧ Encodes ⟨OCTET_STRING, content⟩ key ∧ Encoded ts rest

/-- What the DER reader finds in a P-256 private key. -/
def IsP256Key (input : Bytes) : Prop :=
  ∃ outer alg key rest, whole input = some outer ∧ outer.tag = SEQUENCE ∧
    children outer.body = some (⟨INTEGER, [0]⟩ :: alg :: key :: rest) ∧ alg.tag = SEQUENCE ∧
      children alg.body = some [⟨OID, idEcPublicKey⟩, ⟨OID, idP256⟩] ∧ key.tag = OCTET_STRING

def SaysP256 (input : Bytes) : Prop :=
  ∃ found, Pkix.fromDer input = some found ∧ found.what = "private key (PKCS#8)".toList ∧
    ("algorithm".toList, "EC P-256".toList) ∈ found.facts

theorem isP256Key_iff {input : Bytes} : IsP256Key input ↔ Layout input := by
  simp only [IsP256Key, whole_eq_some, children_eq_some, encoded_cons_iff, encoded_nil_iff]
  constructor
  · rintro ⟨⟨_, _⟩, ⟨_, _⟩, ⟨_, content⟩, ts, houter, rfl, ⟨version, _, hversion, ⟨alg, _, halg,
      ⟨key, rest, hkey, hrest, rfl⟩, rfl⟩, rfl⟩, rfl, ⟨oid, _, hoid, ⟨curve, _, hcurve, rfl, rfl⟩, rfl⟩,
      rfl⟩
    rw [List.append_nil] at halg
    exact ⟨version, alg, oid, curve, key, content, rest, ts, houter, hversion, halg, hoid, hcurve,
      hkey, hrest⟩
  · rintro ⟨version, alg, oid, curve, key, content, rest, ts, houter, hversion, halg, hoid, hcurve,
      hkey, hrest⟩
    refine ⟨_, ⟨SEQUENCE, oid ++ curve⟩, ⟨OCTET_STRING, content⟩, ts, houter, rfl, ?_, rfl, ?_, rfl⟩
    · exact ⟨version, _, hversion, ⟨alg, _, halg, ⟨key, rest, hkey, hrest, rfl⟩, rfl⟩, rfl⟩
    · exact ⟨oid, curve, hoid, ⟨curve, [], hcurve, rfl, (List.append_nil curve).symm⟩, rfl⟩

theorem keyName_p256 (key : Option Bytes) :
    Pkix.keyName ⟨OID, idEcPublicKey⟩ [⟨OID, idP256⟩] key = "EC P-256".toList := by
  have hec : nameOf ⟨OID, idEcPublicKey⟩ = "EC".toList := by decide +kernel
  have hcurve : nameOf ⟨OID, idP256⟩ = "P-256".toList := by decide +kernel
  rw [Pkix.keyName, if_pos hec]
  show "EC ".toList ++ nameOf ⟨OID, idP256⟩ = _
  rw [hcurve]
  rfl

theorem IsP256Key.says {input : Bytes} (h : IsP256Key input) : SaysP256 input := by
  obtain ⟨outer, alg, key, rest, hwhole, htag, hparts, halgTag, hoids, hkey⟩ := h
  have houter : IsSequence (⟨INTEGER, [0]⟩ :: alg :: key :: rest) outer :=
    ⟨htag, children_eq_some.mp hparts⟩
  have halg : IsAlgorithm ⟨OID, idEcPublicKey⟩ [⟨OID, idP256⟩] alg :=
    ⟨⟨halgTag, children_eq_some.mp hoids⟩, rfl⟩
  have hpkcs8 : Pkix.Reports (⟨INTEGER, [0]⟩ :: alg :: key :: rest) "private key (PKCS#8)" _ :=
    Pkix.reports_pkcs8 (by decide) halg hkey
  obtain ⟨found, hfound, hwhat, more, hfacts, -⟩ := hpkcs8
  refine ⟨found, ?_, hwhat, ?_⟩
  · rw [Pkix.fromDer_eq houter (whole_eq_some.mp hwhole)]
    exact hfound
  · rw [hfacts, keyName_p256]
    exact List.mem_append_left _ (List.mem_singleton.mpr rfl)

/-- What the fast path takes is a P-256 private key, for the DER reader and for the general
recognizer alike, exactly on the inputs that are not marked or have its layout. -/
theorem pkcs8P256_sound_iff (input : Bytes) :
    ((pkcs8P256 input).isSome → IsP256Key input ∧ SaysP256 input) ↔
      ¬Marked input ∨ Layout input := by
  rw [pkcs8P256_isSome, ← isP256Key_iff]
  constructor
  · intro h
    by_cases hmarked : Marked input
    · exact .inr (h hmarked).1
    · exact .inl hmarked
  · rintro (h | h) hmarked
    · exact absurd hmarked h
    · exact ⟨h, h.says⟩

def emptySubject : Bytes :=
  let key := [0x30, 0x59, 0x30, 0x13] ++ OID_EC_PUBLIC_KEY ++ OID_P256 ++
    [0x03, 0x42, 0x00, 0x04] ++ List.replicate 64 0x11
  let info := [0x30, 0x62, 0x02, 0x01, 0x00, 0x30, 0x00] ++ key ++ [0xa0, 0x00]
  let ecdsaWithSha256 := [0x30, 0x0a, 0x06, 0x08, 0x2a, 0x86, 0x48, 0xce, 0x3d, 0x04, 0x03, 0x02]
  let signature := [0x03, 0x09, 0x00, 0x30, 0x06, 0x02, 0x01, 0x01, 0x02, 0x01, 0x01]
  [0x30, 0x7b] ++ info ++ ecdsaWithSha256 ++ signature

/-- The request is taken for a private key, and so are its first 48 bytes. -/
theorem pkcs8P256_takes_request :
    (pkcs8P256 emptySubject).isSome ∧
      (Pkix.fromDer emptySubject).map Finding.what =
        some "certificate signing request (PKCS#10)".toList ∧
      ¬SaysP256 emptySubject ∧
      (∀ lib, (inspect lib emptySubject).what = "ECDSA P-256 private key (PKCS#8, DER)".toList) ∧
      (pkcs8P256 (emptySubject.take 48)).isSome ∧ Pkix.fromDer (emptySubject.take 48) = none := by
  have hrequest : (Pkix.fromDer emptySubject).map Finding.what =
      some "certificate signing request (PKCS#10)".toList := by decide +kernel
  have hfast : (recognizers.findSome? fun f => f emptySubject).map Finding.what =
      some "ECDSA P-256 private key (PKCS#8, DER)".toList := by decide +kernel
  refine ⟨by decide +kernel, hrequest, ?_, fun lib => ?_, by decide +kernel, by decide +kernel⟩
  · rintro ⟨found, hfound, hwhat, -⟩
    rw [hfound, Option.map_some, hwhat] at hrequest
    exact absurd hrequest (by decide +kernel)
  · obtain ⟨found, hfound, hwhat⟩ := Option.map_eq_some_iff.mp hfast
    rw [inspect, inspectAt_eq, inspectOne, hfound]
    exact hwhat

end Krypto.Inspect
