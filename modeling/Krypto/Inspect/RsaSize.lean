import Krypto.Inspect.Families
import Krypto.Inspect.Packets
import Krypto.Inspect.Ssh
import Mathlib.Data.Nat.Size
import Mathlib.Order.Bounds.Basic
import Mathlib.Tactic.Ring

/-! The size of an RSA modulus, from every structure that holds one: PKCS#1 public
and private, PKCS#8, SubjectPublicKeyInfo and the wire format of SSH. -/

namespace Krypto.Inspect
open Effect Der Pkix

/-! ### The bits of an INTEGER -/

section Bits

theorem size_of_between {n k : ℕ} (hlow : 2 ^ k ≤ n) (hhigh : n < 2 ^ (k + 1)) : n.size = k + 1 :=
  Nat.le_antisymm (Nat.size_le.mpr hhigh) (Nat.lt_size.mpr hlow)

/-- Whatever zeros stand in front, the bits are those of the number. -/
theorem integerBits_eq (body : Bytes) : integerBits body = (be body).size := by
  induction body with
  | nil => rfl
  | cons b rest ih =>
    by_cases hb : b = 0
    · subst hb
      have hdrop : integerBits (0 :: rest) = integerBits rest := rfl
      rw [hdrop, ih, be_cons]
      simp
    · have hne : b.toNat ≠ 0 := fun h => hb (UInt8.toNat_inj.mp h)
      have hbits : integerBits (b :: rest) = rest.length * 8 + b.toNat.log2 + 1 := by
        have hlog : b.toNat.log2 < 8 := (Nat.log2_lt hne).mpr b.toNat_lt
        have hdrop : (b :: rest).dropWhile (· = 0) = b :: rest := by
          rw [List.dropWhile_cons_of_neg (by simpa using hb)]
        unfold integerBits
        rw [hdrop]
        simp only [leadingZeros, if_neg hb]
        omega
      have hlow : 2 ^ b.toNat.log2 ≤ b.toNat := Nat.log2_self_le hne
      have hhigh : b.toNat < 2 ^ (b.toNat.log2 + 1) := Nat.lt_log2_self
      have hrest := be_lt rest
      have hpow : 256 ^ rest.length = 2 ^ (rest.length * 8) := by
        rw [Nat.mul_comm, Nat.pow_mul]
      rw [hbits, be_cons]
      rw [hpow] at hrest ⊢
      symm
      apply size_of_between
      · calc 2 ^ (rest.length * 8 + b.toNat.log2) = 2 ^ b.toNat.log2 * 2 ^ (rest.length * 8) := by
              rw [Nat.pow_add, Nat.mul_comm]
          _ ≤ b.toNat * 2 ^ (rest.length * 8) := Nat.mul_le_mul_right _ hlow
          _ ≤ _ := Nat.le_add_right _ _
      · calc b.toNat * 2 ^ (rest.length * 8) + be rest
            < (b.toNat + 1) * 2 ^ (rest.length * 8) := by rw [Nat.add_mul]; omega
          _ ≤ 2 ^ (b.toNat.log2 + 1) * 2 ^ (rest.length * 8) := Nat.mul_le_mul_right _ hhigh
          _ = 2 ^ (rest.length * 8 + b.toNat.log2 + 1) := by rw [← Nat.pow_add]; ring_nf

end Bits

/-! ### The key, and what holds it -/

/-- The content of a positive INTEGER, as short as it can be: a zero stands before a first bit that
is set. -/
def integerBody (n : ℕ) : Bytes :=
  match (Nat.digits 256 n).reverse.map UInt8.ofNat with
  | [] => [0]
  | b :: rest => if 0x80 ≤ b then 0 :: b :: rest else b :: rest

def integer (n : ℕ) : Tlv := ⟨INTEGER, integerBody n⟩

theorem be_integerBody (n : ℕ) : be (integerBody n) = n := by
  have hdigits := be_octets n
  rw [octets] at hdigits
  unfold integerBody
  split
  next heq => rw [heq] at hdigits; exact hdigits
  next b rest heq =>
    rw [heq] at hdigits
    split
    · rw [be_cons, hdigits]
      simp
    · exact hdigits

structure RsaKey where
  n : ℕ
  e : ℕ
  d : ℕ
  p : ℕ
  q : ℕ
  dp : ℕ
  dq : ℕ
  qinv : ℕ

def rsaOid : Tlv := ⟨OID, [0x2a, 0x86, 0x48, 0x86, 0xf7, 0x0d, 0x01, 0x01, 0x01]⟩

def IsString (s w : Bytes) : Prop := ∃ octets : Bytes, octets.length = 4 ∧ be octets = s.length ∧ w = octets ++ s

namespace RsaKey
variable (key : RsaKey)

def IsPublic (b : Bytes) : Prop :=
  ∃ outer, IsSequence [integer key.n, integer key.e] outer ∧ Encodes outer b

def IsPrivate (b : Bytes) : Prop :=
  ∃ outer, IsSequence [integer 0, integer key.n, integer key.e, integer key.d, integer key.p,
    integer key.q, integer key.dp, integer key.dq, integer key.qinv] outer ∧ Encodes outer b

/-- PKCS#8, with the private key in an OCTET STRING. -/
def IsPkcs8 (b : Bytes) : Prop :=
  ∃ outer alg octets params more, IsSequence (integer 0 :: alg :: octets :: more) outer ∧
    IsAlgorithm rsaOid params alg ∧ octets.tag = OCTET_STRING ∧ key.IsPrivate octets.body ∧
      Encodes outer b

def IsSpki (b : Bytes) : Prop :=
  ∃ outer alg bits params unused content, IsSequence [alg, bits] outer ∧ IsAlgorithm rsaOid params alg ∧
    bits = ⟨BIT_STRING, unused :: content⟩ ∧ key.IsPublic content ∧ Encodes outer b

def IsSsh (b : Bytes) : Prop :=
  ∃ kind e n, IsString (ascii "ssh-rsa") kind ∧ IsString (integerBody key.e) e ∧
    IsString (integerBody key.n) n ∧ b = kind ++ (e ++ n)

/-! ### What is told of it -/

variable {key}

theorem integerBits_integer (n : ℕ) : integerBits (integer n).body = n.size := by
  rw [integerBits_eq, integer, be_integerBody]

theorem integer_zero : integer 0 = ⟨INTEGER, [0]⟩ := by
  simp [integer, integerBody]

theorem rsaBits_public {b : Bytes} (h : key.IsPublic b) : rsaBits b = some key.n.size := by
  obtain ⟨outer, houter, hb⟩ := h
  have htags : (integer key.n).tag = INTEGER ∧ (integer key.e).tag = INTEGER := ⟨rfl, rfl⟩
  simp only [rsaBits, houter.whole hb, children_eq_some.mpr houter.parts, Option.bind_eq_bind,
    Option.bind_some, if_pos htags, if_pos htags.1, integerBits_integer]

theorem rsaBits_private {b : Bytes} (h : key.IsPrivate b) : rsaBits b = some key.n.size := by
  obtain ⟨outer, houter, hb⟩ := h
  have hguard : (integer 0).tag = INTEGER ∧ (integer 0).body = [0] ∧ 9 ≤ [integer 0, integer key.n,
      integer key.e, integer key.d, integer key.p, integer key.q, integer key.dp, integer key.dq,
      integer key.qinv].length := ⟨rfl, by rw [integer_zero], Nat.le_refl _⟩
  have htag : (integer key.n).tag = INTEGER := rfl
  simp only [rsaBits, houter.whole hb, children_eq_some.mpr houter.parts, Option.bind_eq_bind,
    Option.bind_some, if_pos hguard, if_pos htag, integerBits_integer]

theorem keyName_rsa {params : List Tlv} {content : Bytes} {bits : ℕ} (h : rsaBits content = some bits) :
    keyName rsaOid params (some content) = rsaText bits := by
  have hname : nameOf rsaOid = "RSA".toList := by decide +kernel
  have hnot : ¬nameOf rsaOid = "EC".toList := by
    rw [hname]
    decide
  rw [keyName, if_neg hnot, if_pos hname, Option.bind_some, h]
  rfl

theorem size_of_reports {b : Bytes} {parts : List Tlv} {outer : Tlv} {what : String} {bits : ℕ}
    (h : Structure parts what [("algorithm".toList, rsaText bits)]) (houter : IsSequence parts outer)
    (hb : Encodes outer b) : ∃ found, fromDer b = some found ∧ found.what = what.toList ∧
      found.facts.head? = some ("algorithm".toList, rsaText bits) := by
  obtain ⟨found, hfound, hwhat, rest, hfacts, -⟩ := IsA.found ⟨parts, outer, h, houter, hb⟩
  exact ⟨found, hfound, hwhat, by rw [hfacts]; rfl⟩

theorem string_append {s w : Bytes} (h : IsString s w) (rest : Bytes) :
    Ssh.string (w ++ rest) = some (s, rest) := by
  obtain ⟨octets, hlength, hbe, rfl⟩ := h
  have hlen : beAt (octets ++ s ++ rest) 0 4 = some s.length := by
    rw [beAt, Nat.zero_add, Pgp.range_zero_eq_some.mpr ⟨s ++ rest, by rw [List.append_assoc], hlength⟩,
      Option.map_some, hbe]
  have hrange : range (octets ++ s ++ rest) 4 (4 + s.length) = some s := by
    have hle : 4 ≤ 4 + s.length ∧ 4 + s.length ≤ (octets ++ s ++ rest).length := by
      simp only [List.length_append]
      omega
    rw [range, if_pos hle, List.append_assoc, List.drop_append_of_le_length (by omega),
      List.drop_of_length_le (by omega), List.nil_append, Nat.add_sub_cancel_left, List.take_left]
  have hdrop : (octets ++ s ++ rest).drop (4 + s.length) = rest := by
    have hboth : (octets ++ s).length = 4 + s.length := by rw [List.length_append, hlength]
    rw [← hboth, List.drop_left]
  simp only [Ssh.string, hlen, hrange, hdrop, Option.bind_eq_bind, Option.bind_some]

theorem keyType_ssh {b : Bytes} (h : key.IsSsh b) :
    Ssh.keyType b = some ("ssh-rsa, ".toList ++ rsaText key.n.size) := by
  obtain ⟨kind, e, n, hkind, he, hn, rfl⟩ := h
  have hlast := string_append hn []
  rw [List.append_nil] at hlast
  have hname : Str.fromUtf8 (ascii "ssh-rsa") = some "ssh-rsa".toList := Str.fromUtf8_asBytes _
  simp only [Ssh.keyType, string_append hkind, string_append he, hlast, hname, Option.bind_eq_bind,
    Option.bind_some, if_pos, integerBits_eq, be_integerBody, rsaText]
  simp

end RsaKey

/-- Every route to the modulus ends with its bit length: the least `k` with `n < 2 ^ k`. -/
theorem rsa_sizes_agree (key : RsaKey) : ∃ k, IsLeast {k | key.n < 2 ^ k} k ∧
    (∀ b, key.IsPublic b → ∃ found, pkcs1Public b = some found ∧
      found.what = "RSA public key (PKCS#1)".toList ∧
        found.facts.head? = some ("algorithm".toList, rsaText k)) ∧
    (∀ b, key.IsPrivate b → ∃ found, fromDer b = some found ∧
      found.what = "RSA private key (PKCS#1)".toList ∧
        found.facts.head? = some ("algorithm".toList, rsaText k)) ∧
    (∀ b, key.IsPkcs8 b → ∃ found, fromDer b = some found ∧
      found.what = "private key (PKCS#8)".toList ∧
        found.facts.head? = some ("algorithm".toList, rsaText k)) ∧
    (∀ b, key.IsSpki b → ∃ found, fromDer b = some found ∧
      found.what = "public key (SubjectPublicKeyInfo)".toList ∧
        found.facts.head? = some ("algorithm".toList, rsaText k)) ∧
    ∀ b, key.IsSsh b → Ssh.keyType b = some ("ssh-rsa, ".toList ++ rsaText k) := by
  refine ⟨key.n.size, ⟨Nat.lt_size_self key.n, fun k hk => Nat.size_le.mpr hk⟩, ?_, ?_, ?_, ?_, ?_⟩
  · intro b hb
    rw [pkcs1Public, RsaKey.rsaBits_public hb]
    exact ⟨_, rfl, rfl, rfl⟩
  · rintro b ⟨outer, houter, hb⟩
    rw [RsaKey.integer_zero] at houter
    have hrest : ∀ t ∈ [integer key.e, integer key.d, integer key.p, integer key.q, integer key.dp,
        integer key.dq, integer key.qinv], t.tag = INTEGER := by simp [integer]
    have hstructure := Structure.pkcs1Private (n := integer key.n) rfl hrest rfl
    rw [RsaKey.integerBits_integer] at hstructure
    exact RsaKey.size_of_reports hstructure houter hb
  · rintro b ⟨outer, alg, octets, params, more, houter, halg, htag, hprivate, hb⟩
    rw [RsaKey.integer_zero] at houter
    have hstructure : Structure (⟨INTEGER, [0]⟩ :: alg :: octets :: more) "private key (PKCS#8)" _ :=
      .pkcs8 (by decide) halg htag
    rw [RsaKey.keyName_rsa (RsaKey.rsaBits_private hprivate)] at hstructure
    exact RsaKey.size_of_reports hstructure houter hb
  · rintro b ⟨outer, alg, bits, params, unused, content, houter, halg, hbits, hpublic, hb⟩
    have hstructure : Structure [alg, bits] "public key (SubjectPublicKeyInfo)" _ := .spki halg hbits
    rw [RsaKey.keyName_rsa (RsaKey.rsaBits_public hpublic)] at hstructure
    exact RsaKey.size_of_reports hstructure houter hb
  · intro b hb
    exact RsaKey.keyType_ssh hb

theorem rsa_sizes_agree_eight : ∃ k, IsLeast {k | 200 < 2 ^ k} k ∧
    ∃ found, pkcs1Public [0x30, 0x07, 0x02, 0x02, 0x00, 0xc8, 0x02, 0x01, 0x03] = some found ∧
      found.facts.head? = some ("algorithm".toList, rsaText k) := by
  have hn : integer 200 = ⟨INTEGER, [0x00, 0xc8]⟩ := by simp [integer, integerBody]
  have he : integer 3 = ⟨INTEGER, [0x03]⟩ := by simp [integer, integerBody]
  have hfirst : Encodes ⟨INTEGER, [0x00, 0xc8]⟩ [0x02, 0x02, 0x00, 0xc8] :=
    ⟨[2], .short 2 (by decide), rfl⟩
  have hsecond : Encodes ⟨INTEGER, [0x03]⟩ [0x02, 0x01, 0x03] := ⟨[1], .short 1 (by decide), rfl⟩
  have houter : Encodes ⟨SEQUENCE, [0x02, 0x02, 0x00, 0xc8, 0x02, 0x01, 0x03]⟩
      [0x30, 0x07, 0x02, 0x02, 0x00, 0xc8, 0x02, 0x01, 0x03] := ⟨[7], .short 7 (by decide), rfl⟩
  have hpublic : RsaKey.IsPublic ⟨200, 3, 0, 0, 0, 0, 0, 0⟩
      [0x30, 0x07, 0x02, 0x02, 0x00, 0xc8, 0x02, 0x01, 0x03] := by
    refine ⟨_, ⟨rfl, ?_⟩, houter⟩
    rw [hn, he]
    exact .cons hfirst (.cons hsecond .nil)
  obtain ⟨k, hk, hroute, -⟩ := rsa_sizes_agree ⟨200, 3, 0, 0, 0, 0, 0, 0⟩
  obtain ⟨found, hfound, -, hfacts⟩ := hroute _ hpublic
  exact ⟨k, hk, found, hfound, hfacts⟩

end Krypto.Inspect
