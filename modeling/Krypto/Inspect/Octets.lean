import Krypto.Inspect.Finding
import Mathlib.Data.Nat.Digits.Defs
import Mathlib.Data.Nat.Digits.Lemmas
import Mathlib.Tactic.Ring

/-! Numbers as octets, most significant first. -/

namespace Krypto.Inspect
open Effect

theorem be_concat (digits : Bytes) (b : UInt8) : be (digits ++ [b]) = be digits * 256 + b.toNat := by
  rw [be, List.foldl_append]
  rfl

theorem be_cons (b : UInt8) (rest : Bytes) : be (b :: rest) = b.toNat * 256 ^ rest.length + be rest := by
  induction rest using List.reverseRecOn with
  | nil => simp [be]
  | append_singleton rest c ih =>
    rw [← List.cons_append, be_concat, be_concat, ih, List.length_append, List.length_singleton,
      Nat.pow_succ]
    ring

theorem be_lt (bytes : Bytes) : be bytes < 256 ^ bytes.length := by
  induction bytes with
  | nil => decide
  | cons b rest ih =>
    have hb : b.toNat + 1 ≤ 256 := b.toNat_lt
    rw [be_cons, List.length_cons, Nat.pow_succ']
    calc b.toNat * 256 ^ rest.length + be rest < b.toNat * 256 ^ rest.length + 256 ^ rest.length :=
          Nat.add_lt_add_left ih _
      _ = (b.toNat + 1) * 256 ^ rest.length := (Nat.succ_mul _ _).symm
      _ ≤ 256 * 256 ^ rest.length := Nat.mul_le_mul_right _ hb

theorem be_digits {l : List ℕ} (h : ∀ d ∈ l, d < 256) :
    be (l.reverse.map UInt8.ofNat) = Nat.ofDigits 256 l := by
  induction l with
  | nil => rfl
  | cons d l ih =>
    obtain ⟨hd, hl⟩ := List.forall_mem_cons.mp h
    rw [List.reverse_cons, List.map_append, List.map_singleton, be_concat, ih hl,
      Nat.ofDigits_cons, UInt8.toNat_ofNat_of_lt' hd]
    ring

theorem exists_digits {k n : ℕ} (h : n < 256 ^ k) : ∃ digits : Bytes, digits.length = k ∧ be digits = n := by
  induction k generalizing n with
  | zero =>
    obtain rfl : n = 0 := Nat.lt_one_iff.mp h
    exact ⟨[], rfl, rfl⟩
  | succ k ih =>
    have hlt : n / 256 < 256 ^ k := Nat.div_lt_of_lt_mul (by rwa [← Nat.pow_succ'])
    obtain ⟨digits, hlength, hbe⟩ := ih hlt
    have hlow : n % 256 < 256 := Nat.mod_lt n (by decide)
    refine ⟨digits ++ [UInt8.ofNat (n % 256)], by rw [List.length_append, hlength]; rfl, ?_⟩
    rw [be_concat, hbe, UInt8.toNat_ofNat_of_lt' hlow]
    omega

def octets (n : ℕ) : Bytes := (Nat.digits 256 n).reverse.map UInt8.ofNat

theorem be_octets (n : ℕ) : be (octets n) = n := by
  have hdigits := be_digits fun d hd => Nat.digits_lt_base (by decide) hd (m := n)
  rwa [Nat.ofDigits_digits] at hdigits

theorem length_octets_le {n k : ℕ} (h : n < 256 ^ k) : (octets n).length ≤ k := by
  rw [octets, List.length_map, List.length_reverse]
  exact (Nat.digits_length_le_iff (by decide) n).mpr h

theorem octets_ne_nil {n : ℕ} (h : n ≠ 0) : octets n ≠ [] := by
  intro hnil
  have hbe := be_octets n
  rw [hnil] at hbe
  exact h hbe.symm

end Krypto.Inspect
