import Mathlib.Data.Nat.Digits.Lemmas

/-! Numbers written in a base, most significant digit first. Two strings of
digits in different bases that spell the same number determine each other, so
a change of base is one-to-one. -/

namespace Krypto.Radix

def value (base : ℕ) (digits : List ℕ) : ℕ := Nat.ofDigits base digits.reverse

variable (base : ℕ)

@[simp] theorem value_nil : value base [] = 0 := rfl

theorem value_append (front back : List ℕ) :
    value base (front ++ back) = value base front * base ^ back.length + value base back := by
  rw [value, List.reverse_append, Nat.ofDigits_append, List.length_reverse, Nat.add_comm,
    Nat.mul_comm, value, value]

@[simp] theorem value_singleton (d : ℕ) : value base [d] = d := by simp [value]

theorem value_cons (d : ℕ) (digits : List ℕ) :
    value base (d :: digits) = d * base ^ digits.length + value base digits := by
  simpa using value_append base [d] digits

theorem value_concat (digits : List ℕ) (d : ℕ) :
    value base (digits ++ [d]) = value base digits * base + d := by
  simpa using value_append base digits [d]

variable {base}

theorem value_inj (hbase : 1 < base) {xs ys : List ℕ} (hlen : xs.length = ys.length)
    (hx : ∀ d ∈ xs, d < base) (hy : ∀ d ∈ ys, d < base)
    (h : value base xs = value base ys) : xs = ys := by
  have hrev : xs.reverse = ys.reverse := Nat.ofDigits_inj_of_len_eq hbase
    (by simpa using hlen) (by simpa using hx) (by simpa using hy) h
  exact List.reverse_inj.mp hrev

end Krypto.Radix
