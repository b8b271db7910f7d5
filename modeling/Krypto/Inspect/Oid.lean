import Krypto.Inspect.Der
import Krypto.Radix

/-! `oid_text` on the content of an OID: which contents it subtracts below zero
on, and that it gives every OID it has room for its own dotted text. -/

namespace Krypto.Inspect.Der
open Effect

def septet (b : UInt8) : ℕ := b.toNat % 128

def base128 (bytes : Bytes) : ℕ := Radix.value 128 (bytes.map septet)

theorem base128_concat (bytes : Bytes) (b : UInt8) :
    base128 (bytes ++ [b]) = base128 bytes * 128 + septet b := by
  rw [base128, List.map_append, List.map_singleton, Radix.value_concat, base128]

theorem ends_iff (b : UInt8) : b &&& 0x80 = 0 ↔ b.toNat < 128 := by
  have h : ∀ n : Fin 256, (UInt8.ofNat n.val &&& 0x80 = 0) ↔ n.val < 128 := by decide +kernel
  have hb := h ⟨b.toNat, b.toNat_lt⟩
  rwa [UInt8.ofNat_toNat] at hb

theorem septet_eq (b : UInt8) : (b &&& 0x7f).toNat = septet b := by
  rw [UInt8.toNat_and, show (0x7f : UInt8).toNat = 2 ^ 7 - 1 from rfl,
    Nat.and_two_pow_sub_one_eq_mod, septet]

namespace OidReader

theorem shifted_toNat (r : OidReader) (b : UInt8) :
    (r.shifted b).toNat = (r.value.toNat * 128 + septet b) % 2 ^ 64 := by
  have hlow : septet b < 2 ^ 7 := Nat.mod_lt _ (by decide)
  have hmod : r.value.toNat * 128 % 2 ^ 64 = 2 ^ 7 * (r.value.toNat % 2 ^ 57) := by omega
  rw [shifted, UInt64.toNat_or, UInt64.toNat_shiftLeft, UInt8.toNat_toUInt64, septet_eq,
    show (7 : UInt64).toNat % 64 = 7 from rfl, Nat.shiftLeft_eq, show (2 : ℕ) ^ 7 = 128 from rfl,
    hmod, ← Nat.two_pow_add_eq_or_of_lt hlow]
  omega

theorem firstArc_zero {value : UInt64} (h : value.toNat < 80) :
    (firstArc 0 value).toNat = value.toNat / 40 := by
  have hlt : value < 80 := h
  rw [firstArc, if_pos ⟨rfl, hlt⟩, UInt64.toNat_div]
  rfl

theorem firstArc_of_not {i : ℕ} {value : UInt64} (h : ¬(i = 0 ∧ value.toNat < 80)) :
    firstArc i value = 2 := if_neg h

theorem feed_high (r : OidReader) (i : ℕ) {b : UInt8} (h : b &&& 0x80 ≠ 0) :
    r.feed i b = { r with value := r.shifted b } := by
  simp only [feed, if_neg h]

/-- The turn that ends the first subidentifier would subtract below zero. -/
def Underflows (r : OidReader) (i : ℕ) (b : UInt8) : Prop :=
  b &&& 0x80 = 0 ∧ r.parts = [] ∧ r.shifted b < firstArc i (r.shifted b) * 40

theorem feed_parts_ne_nil (r : OidReader) (i : ℕ) (b : UInt8) (h : b &&& 0x80 = 0 ∨ r.parts ≠ []) :
    (r.feed i b).parts ≠ [] := by
  by_cases hend : b &&& 0x80 = 0
  · by_cases hparts : r.parts = [] <;> simp [feed, hend, hparts]
  · rw [feed_high r i hend]
    exact h.resolve_left hend

end OidReader

theorem oidFrom_parts_ne_nil {i : ℕ} {r : OidReader} (body : Bytes) (h : r.parts ≠ []) :
    (oidFrom i r body).parts ≠ [] := by
  induction body generalizing i r with
  | nil => exact h
  | cons b body ih => exact ih (r.feed_parts_ne_nil i b (Or.inr h))

theorem oidFrom_append (i : ℕ) (r : OidReader) (front back : Bytes) :
    oidFrom i r (front ++ back) = oidFrom (i + front.length) (oidFrom i r front) back := by
  induction front generalizing i r with
  | nil => rfl
  | cons b front ih =>
    rw [List.cons_append, oidFrom, ih, oidFrom, List.length_cons, Nat.add_right_comm, Nat.add_assoc]

/-- As long as no part has been read, every byte continued the first subidentifier. -/
theorem continues_of_parts_nil {i : ℕ} {r : OidReader} {body : Bytes}
    (h : (oidFrom i r body).parts = []) : ∀ b ∈ body, b &&& 0x80 ≠ 0 := by
  induction body generalizing i r with
  | nil => simp
  | cons b body ih =>
    have hb : b &&& 0x80 ≠ 0 := by
      intro hend
      exact oidFrom_parts_ne_nil body (r.feed_parts_ne_nil i b (Or.inl hend)) h
    exact List.forall_mem_cons.mpr ⟨hb, ih h⟩

theorem oidFrom_continues (i : ℕ) (r : OidReader) (hvalue : r.value = 0) {bytes : Bytes}
    (h : ∀ b ∈ bytes, b &&& 0x80 ≠ 0) :
    (oidFrom i r bytes).parts = r.parts ∧
      (oidFrom i r bytes).value.toNat = base128 bytes % 2 ^ 64 := by
  induction bytes using List.reverseRecOn with
  | nil => simp [oidFrom, hvalue, base128]
  | append_singleton bytes b ih =>
    obtain ⟨hparts, hregister⟩ := ih fun x hx => h x (by simp [hx])
    rw [oidFrom_append, oidFrom, oidFrom, OidReader.feed_high _ _ (h b (by simp))]
    refine ⟨hparts, ?_⟩
    rw [OidReader.shifted_toNat, hregister, base128_concat]
    omega

def NeverUnderflows (body : Bytes) : Prop :=
  ∀ before b after, body = before ++ b :: after →
    ¬(oidFrom 0 .start before).Underflows before.length b

/-- The first subidentifier, with the byte that ends it. -/
def firstSubidentifier : Bytes → Option Bytes
  | [] => none
  | b :: body => if b &&& 0x80 = 0 then some [b] else (firstSubidentifier body).map (b :: ·)

/-- The first subidentifier is one byte, or what the register keeps of it is at least 80. -/
def FirstFits (body : Bytes) : Prop :=
  ∀ first, firstSubidentifier body = some first → first.length = 1 ∨ 80 ≤ base128 first % 2 ^ 64

theorem firstSubidentifier_append {before : Bytes} {b : UInt8} (after : Bytes)
    (hbefore : ∀ x ∈ before, x &&& 0x80 ≠ 0) (hb : b &&& 0x80 = 0) :
    firstSubidentifier (before ++ b :: after) = some (before ++ [b]) := by
  induction before with
  | nil => simp [firstSubidentifier, hb]
  | cons x before ih =>
    obtain ⟨hx, hrest⟩ := List.forall_mem_cons.mp hbefore
    rw [List.cons_append, firstSubidentifier, if_neg hx, ih hrest]
    rfl

theorem firstSubidentifier_split {body first : Bytes} (h : firstSubidentifier body = some first) :
    ∃ before b after, body = before ++ b :: after ∧ first = before ++ [b] ∧
      (∀ x ∈ before, x &&& 0x80 ≠ 0) ∧ b &&& 0x80 = 0 := by
  induction body generalizing first with
  | nil => simp [firstSubidentifier] at h
  | cons x body ih =>
    rw [firstSubidentifier] at h
    split at h
    next hx =>
      obtain rfl := Option.some.inj h
      exact ⟨[], x, body, rfl, rfl, by simp, hx⟩
    next hx =>
      obtain ⟨rest, hrest, rfl⟩ := Option.map_eq_some_iff.mp h
      obtain ⟨before, b, after, rfl, rfl, hbefore, hb⟩ := ih hrest
      exact ⟨x :: before, b, after, rfl, rfl, List.forall_mem_cons.mpr ⟨hx, hbefore⟩, hb⟩

theorem underflows_iff (before : Bytes) (b : UInt8) :
    (oidFrom 0 .start before).Underflows before.length b ↔
      (∀ x ∈ before, x &&& 0x80 ≠ 0) ∧ b &&& 0x80 = 0 ∧ before ≠ [] ∧
        base128 (before ++ [b]) % 2 ^ 64 < 80 := by
  have hshifted (h : ∀ x ∈ before, x &&& 0x80 ≠ 0) :
      ((oidFrom 0 .start before).shifted b).toNat = base128 (before ++ [b]) % 2 ^ 64 := by
    rw [OidReader.shifted_toNat, (oidFrom_continues 0 .start rfl h).2, base128_concat]
    omega
  constructor
  · rintro ⟨hend, hparts, hlt⟩
    have hbefore := continues_of_parts_nil hparts
    have hnat := hshifted hbefore
    refine ⟨hbefore, hend, ?_, ?_⟩
    · -- one byte is below 128: its own multiple of forty, or two of them, fit in it
      rintro rfl
      by_cases hsmall : ((oidFrom 0 .start []).shifted b).toNat < 80
      · rw [UInt64.lt_iff_toNat_lt, UInt64.toNat_mul, List.length_nil,
          OidReader.firstArc_zero hsmall, show (40 : UInt64).toNat = 40 from rfl] at hlt
        omega
      · rw [OidReader.firstArc_of_not (by simp_all), UInt64.lt_iff_toNat_lt] at hlt
        exact hsmall hlt
    · by_cases hsmall : base128 (before ++ [b]) % 2 ^ 64 < 80
      · exact hsmall
      · rw [OidReader.firstArc_of_not (by rw [hnat]; exact fun h => hsmall h.2),
          UInt64.lt_iff_toNat_lt, hnat] at hlt
        exact hlt
  · rintro ⟨hbefore, hend, hne, hlt⟩
    have hi : before.length ≠ 0 := by simpa using hne
    refine ⟨hend, (oidFrom_continues 0 .start rfl hbefore).1, ?_⟩
    rw [OidReader.firstArc_of_not fun h => hi h.1, UInt64.lt_iff_toNat_lt, hshifted hbefore]
    exact hlt

theorem neverUnderflows_iff (body : Bytes) : NeverUnderflows body ↔ FirstFits body := by
  constructor
  · intro h first hfirst
    obtain ⟨before, b, after, rfl, rfl, hbefore, hb⟩ := firstSubidentifier_split hfirst
    by_cases hne : before = []
    · exact Or.inl (by simp [hne])
    · refine Or.inr (Nat.le_of_not_lt fun hlt => ?_)
      exact h before b after rfl ((underflows_iff before b).mpr ⟨hbefore, hb, hne, hlt⟩)
  · rintro h before b after rfl hunder
    obtain ⟨hbefore, hb, hne, hlt⟩ := (underflows_iff before b).mp hunder
    obtain hone | hbig := h _ (firstSubidentifier_append after hbefore hb)
    · exact hne (by simpa using hone)
    · exact absurd hlt (Nat.not_lt.mpr hbig)

/-! ### The OIDs that fit -/

/-- A number in base 128, as short as it can be, every byte but the last with its top bit set. -/
def subidentifier (n : ℕ) : Bytes :=
  (Nat.digits 128 (n / 128)).reverse.map (fun d => UInt8.ofNat (128 + d)) ++ [UInt8.ofNat (n % 128)]

structure Oid where
  root : ℕ
  second : ℕ
  arcs : List ℕ
  root_le : root ≤ 2
  second_lt : root < 2 → second < 40
  fits : ∀ n ∈ (40 * root + second) :: arcs, n < 2 ^ 64
  deriving DecidableEq

namespace Oid

def der (o : Oid) : Bytes := ((40 * o.root + o.second) :: o.arcs).flatMap subidentifier

def dotted (o : Oid) : Str := Str.join "." ((o.root :: o.second :: o.arcs).map Str.decimal)

end Oid

theorem continues_of_lt {d : ℕ} (h : d < 128) : UInt8.ofNat (128 + d) &&& 0x80 ≠ 0 := by
  rw [Ne, ends_iff, UInt8.toNat_ofNat']
  omega

theorem septet_of_lt {d : ℕ} (h : d < 128) : septet (UInt8.ofNat (128 + d)) = d := by
  rw [septet, UInt8.toNat_ofNat']
  omega

def leading (n : ℕ) : Bytes :=
  (Nat.digits 128 (n / 128)).reverse.map fun d => UInt8.ofNat (128 + d)

theorem subidentifier_eq (n : ℕ) : subidentifier n = leading n ++ [UInt8.ofNat (n % 128)] := rfl

theorem digit_lt {n d : ℕ} (h : d ∈ (Nat.digits 128 n).reverse) : d < 128 :=
  Nat.digits_lt_base (by decide) (List.mem_reverse.mp h)

theorem leading_continues (n : ℕ) : ∀ b ∈ leading n, b &&& 0x80 ≠ 0 := by
  intro b hb
  obtain ⟨d, hd, rfl⟩ := List.mem_map.mp hb
  exact continues_of_lt (digit_lt hd)

theorem base128_leading (n : ℕ) : base128 (leading n) = n / 128 := by
  have hdigits : (leading n).map septet = (Nat.digits 128 (n / 128)).reverse := by
    rw [leading, List.map_map]
    exact (List.map_congr_left fun d hd => septet_of_lt (digit_lt hd)).trans (List.map_id _)
  rw [base128, hdigits, Radix.value, List.reverse_reverse, Nat.ofDigits_digits]

theorem leading_eq_nil {n : ℕ} : leading n = [] ↔ n < 128 := by
  rw [leading, List.map_eq_nil_iff, List.reverse_eq_nil_iff, Nat.digits_eq_nil_iff_eq_zero]
  omega

theorem last_ends (n : ℕ) : UInt8.ofNat (n % 128) &&& 0x80 = 0 := by
  rw [ends_iff, UInt8.toNat_ofNat']
  omega

theorem septet_last (n : ℕ) : septet (UInt8.ofNat (n % 128)) = n % 128 := by
  rw [septet, UInt8.toNat_ofNat']
  omega

/-- A whole subidentifier is in the register when its last byte is fed. -/
theorem shifted_last (i : ℕ) {r : OidReader} (hvalue : r.value = 0) (n : ℕ) :
    (oidFrom i r (leading n)).shifted (UInt8.ofNat (n % 128)) = UInt64.ofNat n := by
  have hregister := (oidFrom_continues i r hvalue (leading_continues n)).2
  apply UInt64.toNat_inj.mp
  rw [OidReader.shifted_toNat, hregister, base128_leading, septet_last, UInt64.toNat_ofNat']
  omega

theorem oidFrom_first (n : ℕ) :
    oidFrom 0 .start (subidentifier n) =
      { parts := [OidReader.firstArc (leading n).length (UInt64.ofNat n),
          UInt64.ofNat n - OidReader.firstArc (leading n).length (UInt64.ofNat n) * 40],
        value := 0 } := by
  have hparts : (oidFrom 0 .start (leading n)).parts = [] :=
    (oidFrom_continues 0 .start rfl (leading_continues n)).1
  have hshifted := shifted_last 0 (r := .start) rfl n
  rw [subidentifier_eq, oidFrom_append, oidFrom, oidFrom]
  simp only [OidReader.feed, hshifted, last_ends, if_true, hparts, Nat.zero_add]

theorem oidFrom_next (i : ℕ) {parts : List UInt64} (hne : parts ≠ []) (n : ℕ) :
    oidFrom i { parts, value := 0 } (subidentifier n) =
      { parts := parts ++ [UInt64.ofNat n], value := 0 } := by
  have hparts := (oidFrom_continues i { parts, value := 0 } rfl (leading_continues n)).1
  have hshifted := shifted_last i (r := { parts, value := 0 }) rfl n
  rw [subidentifier_eq, oidFrom_append, oidFrom, oidFrom]
  simp only [OidReader.feed, hshifted, last_ends, if_true, hparts, if_neg hne]

theorem oidFrom_arcs (i : ℕ) {parts : List UInt64} (hne : parts ≠ []) (arcs : List ℕ) :
    oidFrom i { parts, value := 0 } (arcs.flatMap subidentifier) =
      { parts := parts ++ arcs.map UInt64.ofNat, value := 0 } := by
  induction arcs generalizing i parts with
  | nil => simp [oidFrom]
  | cons n arcs ih =>
    rw [List.flatMap_cons, oidFrom_append, oidFrom_next i hne n, ih _ (by simp)]
    simp

namespace Oid

variable (o : Oid)

theorem firstArc_eq :
    OidReader.firstArc (leading (40 * o.root + o.second)).length
      (UInt64.ofNat (40 * o.root + o.second)) = UInt64.ofNat o.root := by
  have hroot := o.root_le
  have hsecond := o.second_lt
  have hfits := o.fits (40 * o.root + o.second) (by simp)
  have hnat : (UInt64.ofNat (40 * o.root + o.second)).toNat = 40 * o.root + o.second := by
    rw [UInt64.toNat_ofNat', Nat.mod_eq_of_lt hfits]
  by_cases hsmall : 40 * o.root + o.second < 80
  · have hnil : leading (40 * o.root + o.second) = [] := leading_eq_nil.mpr (by omega)
    apply UInt64.toNat_inj.mp
    rw [hnil, List.length_nil, OidReader.firstArc_zero (by omega), hnat, UInt64.toNat_ofNat']
    omega
  · have htwo : o.root = 2 := by omega
    rw [OidReader.firstArc_of_not (fun h => hsmall (hnat ▸ h.2)), htwo]
    rfl

theorem second_eq :
    UInt64.ofNat (40 * o.root + o.second) - UInt64.ofNat o.root * 40 = UInt64.ofNat o.second := by
  rw [UInt64.ofNat_add, UInt64.ofNat_mul, UInt64.add_comm, UInt64.mul_comm]
  exact UInt64.add_sub_cancel _ _

theorem oidFrom_der :
    oidFrom 0 .start o.der =
      { parts := (o.root :: o.second :: o.arcs).map UInt64.ofNat, value := 0 } := by
  rw [der, List.flatMap_cons, oidFrom_append, oidFrom_first, firstArc_eq, second_eq,
    oidFrom_arcs _ (by simp)]
  simp

theorem oidText_der : oidText o.der = o.dotted := by
  have hroot := o.root_le
  obtain ⟨hfirst, hrest⟩ := List.forall_mem_cons.mp o.fits
  have harcs : ∀ n ∈ o.root :: o.second :: o.arcs, n < 2 ^ 64 := by
    refine List.forall_mem_cons.mpr ⟨by omega, List.forall_mem_cons.mpr ⟨by omega, hrest⟩⟩
  have hdecimal : ((o.root :: o.second :: o.arcs).map UInt64.ofNat).map
      (fun n => Str.decimal n.toNat) = (o.root :: o.second :: o.arcs).map Str.decimal := by
    rw [List.map_map]
    refine List.map_congr_left fun n hn => ?_
    rw [Function.comp_apply, UInt64.toNat_ofNat', Nat.mod_eq_of_lt (harcs n hn)]
  rw [oidText, oidFrom_der, hdecimal, dotted]

/-- The whole encoding is read without a subtraction below zero. -/
theorem neverUnderflows_der : NeverUnderflows o.der := by
  rw [neverUnderflows_iff]
  intro first hfirst
  have hfits := o.fits (40 * o.root + o.second) (by simp)
  have heq : o.der = leading (40 * o.root + o.second) ++
      UInt8.ofNat ((40 * o.root + o.second) % 128) :: o.arcs.flatMap subidentifier := by
    rw [der, List.flatMap_cons, subidentifier_eq, List.append_assoc, List.singleton_append]
  rw [heq, firstSubidentifier_append _ (leading_continues _) (last_ends _)] at hfirst
  obtain rfl := Option.some.inj hfirst
  by_cases hsmall : 40 * o.root + o.second < 128
  · exact Or.inl (by simp [leading_eq_nil.mpr hsmall])
  · refine Or.inr ?_
    rw [base128_concat, base128_leading, septet_last]
    omega

variable {o} {o' : Oid}

theorem dotted_injective (h : o.dotted = o'.dotted) : o = o' := by
  have hdot (arcs : List ℕ) : ∀ s ∈ arcs.map Str.decimal, '.' ∉ s := by
    intro s hs hmem
    obtain ⟨n, -, rfl⟩ := List.mem_map.mp hs
    exact absurd (Str.isDigit_of_mem_decimal hmem) (by decide)
  have hsplit := congrArg (List.splitOn '.') h
  rw [dotted, dotted, show "." = String.singleton '.' from rfl,
    Str.splitOn_join (by simp) (hdot _), Str.splitOn_join (by simp) (hdot _)] at hsplit
  have harcs := List.map_injective_iff.mpr Str.decimal_injective hsplit
  cases o
  cases o'
  simpa using harcs

theorem mem_dotted {c : Char} (h : c ∈ o.dotted) : c.isDigit ∨ c = '.' := by
  rw [dotted] at h
  obtain hsep | ⟨s, hs, hc⟩ := Str.mem_of_mem_join h
  · exact Or.inr (by simpa using hsep)
  · obtain ⟨n, -, rfl⟩ := List.mem_map.mp hs
    exact Or.inl (Str.isDigit_of_mem_decimal hc)

end Oid

theorem names_nodup : (oidNames.map Prod.snd).Nodup := by decide +kernel

theorem names_spelled : ∀ e ∈ oidNames, ∃ c ∈ e.2.toList, ¬c.isDigit ∧ c ≠ '.' := by
  have h : oidNames.all fun e => e.2.toList.any fun c => !c.isDigit && c != '.' := by
    decide +kernel
  simpa using h

theorem oidName_eq_some {dotted name : Str} (h : oidName dotted = some name) :
    ∃ e ∈ oidNames, e.1.toList = dotted ∧ e.2.toList = name := by
  obtain ⟨e, hfind, rfl⟩ := Option.map_eq_some_iff.mp h
  exact ⟨e, List.mem_of_find?_eq_some hfind, by simpa using List.find?_some hfind, rfl⟩

theorem oidName_injective {dotted dotted' name : Str} (h : oidName dotted = some name)
    (h' : oidName dotted' = some name) : dotted = dotted' := by
  obtain ⟨e, he, rfl, hname⟩ := oidName_eq_some h
  obtain ⟨e', he', rfl, hname'⟩ := oidName_eq_some h'
  have heq : e = e' := List.inj_on_of_nodup_map names_nodup he he'
    (String.toList_injective (hname.trans hname'.symm))
  rw [heq]

/-- No known name can be taken for the dotted text of an OID. -/
theorem oidName_ne_dotted {dotted name : Str} (h : oidName dotted = some name) (o : Oid) :
    name ≠ o.dotted := by
  rintro rfl
  obtain ⟨e, he, -, hname⟩ := oidName_eq_some h
  obtain ⟨c, hc, hdigit, hdot⟩ := names_spelled e he
  obtain h | h := Oid.mem_dotted (hname ▸ hc)
  · exact hdigit h
  · exact hdot h

/-- What is shown for an OID, its known name or its dotted text, is shown for no other. -/
theorem nameOf_injective {o o' : Oid} {tag tag' : UInt8}
    (h : nameOf ⟨tag, o.der⟩ = nameOf ⟨tag', o'.der⟩) : o = o' := by
  simp only [nameOf, Oid.oidText_der] at h
  apply Oid.dotted_injective
  cases hname : oidName o.dotted with
  | none =>
    cases hname' : oidName o'.dotted with
    | none => simpa [hname, hname'] using h
    | some name' =>
      rw [hname, hname', Option.getD_none, Option.getD_some] at h
      exact absurd h.symm (oidName_ne_dotted hname' o)
  | some name =>
    cases hname' : oidName o'.dotted with
    | none =>
      rw [hname, hname', Option.getD_none, Option.getD_some] at h
      exact absurd h (oidName_ne_dotted hname o')
    | some name' =>
      rw [hname, hname', Option.getD_some, Option.getD_some] at h
      exact oidName_injective hname (h ▸ hname')

/-- `oid_text` subtracts below zero on a content exactly when its first subidentifier takes more
than one byte and is below 80 in the register. Every OID that has room in the register is read
without that, as its own dotted text, which no other OID has, and a known name is given to the one
OID the table names. -/
theorem oid_text_decodes (body : Bytes) :
    (NeverUnderflows body ↔ FirstFits body) ∧
      ∀ o : Oid, NeverUnderflows o.der ∧ oidText o.der = o.dotted ∧
        (∀ o' : Oid, oidText o'.der = oidText o.der → o' = o) ∧
        (∀ name, oidName (oidText o.der) = some name →
          ∃ e ∈ oidNames, e.1.toList = o.dotted ∧ e.2.toList = name) ∧
        ∀ (tag tag' : UInt8) (o' : Oid),
          nameOf ⟨tag', o'.der⟩ = nameOf ⟨tag, o.der⟩ → o' = o := by
  refine ⟨neverUnderflows_iff body, fun o => ⟨o.neverUnderflows_der, o.oidText_der, ?_, ?_, ?_⟩⟩
  · intro o' h
    rw [o.oidText_der, o'.oidText_der] at h
    exact Oid.dotted_injective h
  · intro name h
    rw [o.oidText_der] at h
    exact oidName_eq_some h
  · intro tag tag' o' h
    exact nameOf_injective h

/-- A first subidentifier of two bytes with the value 1. -/
theorem oid_text_underflows : ¬NeverUnderflows [0x80, 0x01] := by
  intro h
  have hstep := h [0x80] 0x01 [] rfl
  exact hstep ⟨by decide, rfl, by decide +kernel⟩

end Krypto.Inspect.Der
