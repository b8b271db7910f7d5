import Krypto.Effect.Disk
import Krypto.Effect.Program
import Mathlib.Data.List.Basic

/-! Byte slices and strings as Rust has them: an index out of range is a panic,
a string is its characters and has its UTF-8 bytes. -/

namespace Krypto
open Effect

-- A quantifier over the members of a list is decided along the list, also where the type is finite.
instance (priority := high) decidableForallMem {α : Type} (p : α → Prop) [DecidablePred p]
    (l : List α) : Decidable (∀ x ∈ l, p x) := List.decidableBAll p l

instance (priority := high) decidableExistsMem {α : Type} (p : α → Prop) [DecidablePred p]
    (l : List α) : Decidable (∃ x ∈ l, p x) := List.decidableBEx p l

-- A fact about one byte is checked for all 256.
theorem forall_octet {P : UInt8 → Prop} (h : ∀ n : Fin 256, P (UInt8.ofNat n.val)) (b : UInt8) : P b := by
  have hb := h ⟨b.toNat, b.toNat_lt⟩
  rwa [UInt8.ofNat_toNat] at hb

/-- `&[u8]`: no object is longer than `isize::MAX`. -/
structure Slice where
  bytes : Bytes
  length_lt : bytes.length < 2 ^ 63

section Slices
variable {ε : Type}

def usizeAdd (a b : Nat) : Outcome ε Nat := if a + b < 2 ^ 64 then .ok (a + b) else .panic

def usizeSub (a b : Nat) : Outcome ε Nat := if b ≤ a then .ok (a - b) else .panic

def checkedAdd (a b : Nat) : Option Nat := if a + b < 2 ^ 64 then some (a + b) else none

def index (data : Bytes) (i : Nat) : Outcome ε UInt8 :=
  match data[i]? with
  | some b => .ok b
  | none => .panic

def slice (data : Bytes) (i j : Nat) : Outcome ε Bytes :=
  if i ≤ j ∧ j ≤ data.length then .ok ((data.drop i).take (j - i)) else .panic

def splitAt (data : Bytes) (i : Nat) : Outcome ε (Bytes × Bytes) :=
  if i ≤ data.length then .ok (data.take i, data.drop i) else .panic

theorem usizeAdd_of_lt {a b : Nat} (h : a + b < 2 ^ 64) :
    (usizeAdd a b : Outcome ε Nat) = .ok (a + b) := if_pos h

theorem usizeSub_of_le {a b : Nat} (h : b ≤ a) : (usizeSub a b : Outcome ε Nat) = .ok (a - b) := if_pos h

theorem index_append (front back : Bytes) (i : Nat) :
    (index (front ++ back) (front.length + i) : Outcome ε UInt8) = index back i := by
  rw [index, List.getElem?_append_right (Nat.le_add_right _ _), Nat.add_sub_cancel_left, index]

theorem slice_append (front back : Bytes) (i j : Nat) :
    (slice (front ++ back) (front.length + i) (front.length + j) : Outcome ε Bytes) =
      slice back i j := by
  have hdrop : (front ++ back).drop (front.length + i) = back.drop i := by
    rw [List.drop_append, List.drop_of_length_le (Nat.le_add_right _ _), Nat.add_sub_cancel_left,
      List.nil_append]
  simp only [slice, hdrop, List.length_append, Nat.add_le_add_iff_left, Nat.add_sub_add_left]

theorem index_of_lt {data : Bytes} {i : Nat} (h : i < data.length) :
    (index data i : Outcome ε UInt8) = .ok data[i] := by
  simp [index, h]

theorem slice_of_le {data : Bytes} {i j : Nat} (h : i ≤ j) (hj : j ≤ data.length) :
    (slice data i j : Outcome ε Bytes) = .ok ((data.drop i).take (j - i)) := if_pos ⟨h, hj⟩

theorem slice_front {data : Bytes} {n : Nat} (h : n ≤ data.length) :
    (slice data 0 n : Outcome ε Bytes) = .ok (data.take n) := by
  rw [slice_of_le (Nat.zero_le n) h, List.drop_zero, Nat.sub_zero]

theorem slice_back {data : Bytes} {n : Nat} (h : n ≤ data.length) :
    (slice data n data.length : Outcome ε Bytes) = .ok (data.drop n) := by
  rw [slice_of_le h (Nat.le_refl _), List.take_of_length_le (List.length_drop ▸ Nat.le_refl _)]

theorem splitAt_of_le {data : Bytes} {i : Nat} (h : i ≤ data.length) :
    (splitAt data i : Outcome ε (Bytes × Bytes)) = .ok (data.take i, data.drop i) := if_pos h

end Slices

/-- `&str` and `String`: the characters. -/
abbrev Str := List Char

instance : @LawfulBEq Str List.instBEq := inferInstance

namespace Str

def asBytes (s : Str) : Bytes := s.flatMap String.utf8EncodeChar

def fromUtf8 (data : Bytes) : Option Str := data.toByteArray.utf8Decode?.map Array.toList

def Printable (c : Char) : Prop := ' ' ≤ c ∧ c ≤ '~'

instance : DecidablePred Printable := fun c => inferInstanceAs (Decidable (' ' ≤ c ∧ c ≤ '~'))

theorem fromUtf8_asBytes (s : Str) : fromUtf8 s.asBytes = some s := by
  have h := List.utf8Decode?_utf8Encode (l := s)
  rw [List.utf8Encode] at h
  rw [fromUtf8, asBytes, h]
  simp

theorem asBytes_of_fromUtf8 {data : Bytes} {s : Str} (h : fromUtf8 data = some s) :
    s.asBytes = data := by
  obtain ⟨cs, hcs, rfl⟩ := Option.map_eq_some_iff.mp h
  have hsome : data.toByteArray.utf8Decode?.isSome := by rw [hcs]; rfl
  have henc := ByteArray.utf8Encode_get_utf8Decode? (b := data.toByteArray) (h := hsome)
  have hget : data.toByteArray.utf8Decode?.get hsome = cs := Option.get_of_eq_some _ hcs
  rw [hget, List.utf8Encode] at henc
  simpa [asBytes] using congrArg (fun b => b.data.toList) henc

theorem fromUtf8_eq_some {data : Bytes} {s : Str} : fromUtf8 data = some s ↔ data = s.asBytes :=
  ⟨fun h => (asBytes_of_fromUtf8 h).symm, fun h => h ▸ fromUtf8_asBytes s⟩

theorem asBytes_injective : Function.Injective asBytes := by
  intro s t h
  have hs := fromUtf8_asBytes s
  rw [h, fromUtf8_asBytes] at hs
  exact (Option.some.inj hs).symm

end Str
end Krypto
