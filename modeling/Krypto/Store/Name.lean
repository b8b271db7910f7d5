import Krypto.Error
import Krypto.Text
import Mathlib.Data.List.AList
import Mathlib.Data.List.Lex
import Mathlib.Data.List.Sort

/-! `store.rs`: key names, which ones are allowed, and the order they are listed
and written in, that of their bytes. -/

namespace Krypto
open Effect

namespace Str

def order (s : Str) : List Nat := s.asBytes.map UInt8.toNat

theorem order_injective : Function.Injective order := by
  intro s t h
  have hinj : Function.Injective (List.map UInt8.toNat) :=
    List.map_injective_iff.mpr fun a b hab => UInt8.toNat_inj.mp hab
  exact asBytes_injective (hinj h)

def Le (s t : Str) : Prop := s.order ≤ t.order

def Lt (s t : Str) : Prop := s.order < t.order

instance : DecidableRel Le := fun s t => inferInstanceAs (Decidable (s.order ≤ t.order))

instance : DecidableRel Lt := fun s t => inferInstanceAs (Decidable (s.order < t.order))

instance : IsTrans Str Le := ⟨fun _ _ _ => le_trans⟩

instance : Std.Total Le := ⟨fun s t => le_total s.order t.order⟩

instance : Std.Antisymm Le := ⟨fun _ _ h h' => order_injective (le_antisymm h h')⟩

theorem lt_iff {s t : Str} : Lt s t ↔ Le s t ∧ s ≠ t := by
  rw [Lt, Le, lt_iff_le_and_ne, order_injective.ne_iff]

def sort (names : List Str) : List Str := names.insertionSort Le

theorem perm_sort (names : List Str) : (sort names).Perm names := List.perm_insertionSort Le names

theorem mem_sort {names : List Str} {n : Str} : n ∈ sort names ↔ n ∈ names :=
  (perm_sort names).mem_iff

theorem sort_pairwise (names : List Str) : (sort names).Pairwise Le :=
  List.pairwise_insertionSort Le names

theorem sort_ascending {names : List Str} (h : names.Nodup) : (sort names).Pairwise Lt := by
  have hnodup : (sort names).Nodup := (perm_sort names).nodup_iff.mpr h
  refine (sort_pairwise names).imp₂ (fun a b hle hne => ?_) hnodup
  exact lt_iff.mpr ⟨hle, hne⟩

theorem sort_eq {names sorted : List Str} (hs : sorted.Pairwise Lt) (hp : sorted.Perm names) :
    sort names = sorted := by
  have hle : sorted.Pairwise Le := hs.imp fun h => (lt_iff.mp h).1
  exact ((perm_sort names).trans hp.symm).eq_of_pairwise' (sort_pairwise names) hle

theorem sort_congr {names names' : List Str} (h : names.Perm names') : sort names = sort names' :=
  ((perm_sort names).trans (h.trans (perm_sort names').symm)).eq_of_pairwise'
    (sort_pairwise names) (sort_pairwise names')

theorem encode_of_printable {c : Char} (h : Printable c) :
    String.utf8EncodeChar c = [UInt8.ofNat c.toNat] := by
  have hle : c.toNat ≤ 126 := UInt32.le_iff_toNat_le.mp h.2
  have hle' : c.toNat ≤ 127 := Nat.le_succ_of_le hle
  simp [String.utf8EncodeChar, hle']

theorem asBytes_of_printable {s : Str} (h : ∀ c ∈ s, Printable c) :
    s.asBytes = s.map fun c => UInt8.ofNat c.toNat := by
  induction s with
  | nil => rfl
  | cons c s ih =>
    have hc := encode_of_printable (h c List.mem_cons_self)
    have hs := ih fun d hd => h d (List.mem_cons_of_mem _ hd)
    rw [asBytes] at hs
    rw [asBytes, List.flatMap_cons, hc, hs]
    rfl

theorem asBytes_length_of_printable {s : Str} (h : ∀ c ∈ s, Printable c) :
    s.asBytes.length = s.length := by
  rw [asBytes_of_printable h, List.length_map]

end Str

namespace Store

def maxNameLen : Nat := 512

def validateName (name : Str) : Outcome Error Unit :=
  if name.isEmpty then
    .err (.format "key name is empty")
  else if maxNameLen < name.asBytes.length then
    .err (.format s!"key name is {name.asBytes.length} bytes — max {maxNameLen}")
  else
    match name.find? (fun c => !decide (Str.Printable c)) with
    | some c =>
      .err (.format (.quoting "key name contains the illegal character " c
        (" — printable ASCII only, because names are listed out and may end up in a log")))
    | none => .ok ()

structure ValidName (name : Str) : Prop where
  ne_nil : name ≠ []
  length_le : name.length ≤ maxNameLen
  printable : ∀ c ∈ name, Str.Printable c

theorem ValidName.asBytes_length {name : Str} (h : ValidName name) :
    name.asBytes.length = name.length := Str.asBytes_length_of_printable h.printable

theorem validateName_eq_ok {name : Str} : validateName name = .ok () ↔ ValidName name := by
  constructor
  · intro h
    unfold validateName at h
    split_ifs at h with h0 hlen
    split at h
    · cases h
    · rename_i hfind
      have hprint : ∀ c ∈ name, Str.Printable c := by
        simpa using List.find?_eq_none.mp hfind
      refine ⟨by simpa using h0, ?_, hprint⟩
      rw [← Str.asBytes_length_of_printable hprint]
      exact Nat.le_of_not_lt hlen
  · intro h
    have h0 : name.isEmpty = false := by simpa using h.ne_nil
    have hlen : ¬maxNameLen < name.asBytes.length := by
      rw [h.asBytes_length]
      exact Nat.not_lt.mpr h.length_le
    have hfind : name.find? (fun c => !decide (Str.Printable c)) = none := by
      simpa using h.printable
    simp [validateName, h0, hlen, hfind]

theorem validateName_cases (name : Str) :
    validateName name = .ok () ∨ ∃ m, validateName name = .err (.format m) := by
  unfold validateName
  split_ifs
  · exact Or.inr ⟨_, rfl⟩
  · exact Or.inr ⟨_, rfl⟩
  · split
    · exact Or.inr ⟨_, rfl⟩
    · exact Or.inl rfl

theorem isFormat_of_validateName {name : Str} {e : Error} (h : validateName name = .err e) :
    e.IsFormat := by
  rcases validateName_cases name with hok | ⟨m, hm⟩
  · rw [hok] at h
    cases h
  · obtain rfl := Outcome.err.inj (hm.symm.trans h)
    exact trivial

end Store
end Krypto
