import Krypto.Store.Image
import Mathlib.Algebra.GroupWithZero.Nat
import Mathlib.Algebra.Order.BigOperators.Group.List
import Mathlib.Algebra.Order.Group.Nat

/-! How many bytes an image takes, by the lengths of its names and blobs alone. -/

namespace Krypto.Store
open Effect

def entrySize (n : Str) : Option Bytes → Nat
  | none => 0
  | some blob => (entryOf (n, blob)).length

def size (entries : Entries) : Nat :=
  (entries.keys.map fun n => entrySize n (entries.lookup n)).sum

theorem entryOf_length (n : Str) (blob : Bytes) :
    (entryOf (n, blob)).length = 6 + n.asBytes.length + blob.length := by
  simp only [entryOf, nameBytes, blobBytes, le16, le32, List.length_append, List.length_cons,
    List.length_nil]
  omega

theorem size_congr {a b : Entries}
    (h : ∀ n, (a.lookup n).map List.length = (b.lookup n).map List.length) : size a = size b := by
  have hmem (n : Str) : n ∈ a.keys ↔ n ∈ b.keys := by
    rw [← AList.mem_keys, ← AList.mem_keys, ← AList.lookup_isSome, ← AList.lookup_isSome,
      ← Option.isSome_map, h n, Option.isSome_map]
  have hkeys : a.keys.Perm b.keys :=
    (List.perm_ext_iff_of_nodup a.keys_nodup b.keys_nodup).mpr hmem
  have hsize (n : Str) : entrySize n (a.lookup n) = entrySize n (b.lookup n) := by
    have hn := h n
    cases ha : a.lookup n with
    | none =>
      rw [ha] at hn
      rw [Option.map_eq_none_iff.mp hn.symm]
    | some x =>
      rw [ha] at hn
      obtain ⟨y, hy, hlen⟩ := Option.map_eq_some_iff.mp hn.symm
      rw [hy, entrySize, entrySize, entryOf_length, entryOf_length, hlen]
  unfold size
  rw [(hkeys.map _).sum_eq]
  exact congrArg List.sum (List.map_congr_left fun n _ => hsize n)

theorem Same.size_eq {a b : Entries} (h : Same a b) : size a = size b :=
  size_congr fun n => congrArg _ (h n)

theorem size_erase_le (entries : Entries) (name : Str) : size (entries.erase name) ≤ size entries := by
  have hsub : (entries.erase name).keys.Sublist entries.keys :=
    (List.kerase_sublist name entries.entries).map _
  have hsize : ∀ n ∈ (entries.erase name).keys,
      entrySize n ((entries.erase name).lookup n) = entrySize n (entries.lookup n) := by
    intro n hn
    have hne : n ≠ name := (AList.mem_erase.mp (AList.mem_keys.mpr hn)).1
    rw [AList.lookup_erase_ne hne]
  unfold size
  rw [List.map_congr_left hsize]
  exact (hsub.map _).sum_le_sum fun _ _ => Nat.zero_le _

theorem length_le_size {entries : Entries} {n : Str} {blob : Bytes}
    (h : entries.lookup n = some blob) : blob.length ≤ size entries := by
  have hmem : n ∈ entries.keys := by
    rw [← AList.mem_keys, ← AList.lookup_isSome, h]
    rfl
  have hle : entrySize n (entries.lookup n) ≤ size entries :=
    List.single_le_sum (fun _ _ => Nat.zero_le _) _ (List.mem_map_of_mem hmem)
  rw [h, entrySize, entryOf_length] at hle
  omega

theorem flatMap_entryOf_length (entries : Entries) (names : List Str) :
    ((names.filterMap fun n => (entries.lookup n).map (Prod.mk n)).flatMap entryOf).length =
      (names.map fun n => entrySize n (entries.lookup n)).sum := by
  induction names with
  | nil => rfl
  | cons n names ih =>
    cases h : entries.lookup n with
    | none => simpa [h, entrySize] using ih
    | some blob => simpa [h, entrySize] using ih

/-- Entries that came one by one take what their bytes take. -/
theorem size_insertAll {es : List (Str × Bytes)} (h : (es.map Prod.fst).Nodup) :
    size (insertAll ∅ es) = (es.flatMap entryOf).length := by
  have hlookup (n : Str) (b : Bytes) : (insertAll ∅ es).lookup n = some b ↔ (n, b) ∈ es := by
    rw [lookup_insertAll (fresh_empty.mpr h), AList.lookup_empty]
    simp
  have hmem (n : Str) : n ∈ (insertAll ∅ es).keys ↔ n ∈ es.map Prod.fst := by
    rw [← AList.mem_keys, ← AList.lookup_isSome, Option.isSome_iff_exists, List.mem_map]
    constructor
    · rintro ⟨b, hb⟩
      exact ⟨(n, b), (hlookup n b).mp hb, rfl⟩
    · rintro ⟨⟨m, b⟩, he, rfl⟩
      exact ⟨b, (hlookup m b).mpr he⟩
  have hkeys : (insertAll ∅ es).keys.Perm (es.map Prod.fst) :=
    (List.perm_ext_iff_of_nodup (AList.keys_nodup _) h).mpr hmem
  have hsize : ∀ e ∈ es, entrySize e.1 ((insertAll ∅ es).lookup e.1) = (entryOf e).length := by
    intro e he
    rw [(hlookup e.1 e.2).mpr he]
    rfl
  rw [size, (hkeys.map _).sum_eq, List.map_map, List.length_flatMap]
  exact congrArg List.sum (List.map_congr_left hsize)

theorem image_length {c : Contents} {d : Bytes} (h : image c = .ok d) :
    d.length = HEADER_LEN + size c.entries := by
  obtain ⟨-, rfl⟩ := small_of_image h
  have hperm := (Str.perm_sort c.entries.keys).map fun n => entrySize n (c.entries.lookup n)
  rw [List.length_append, header_length, listing, flatMap_entryOf_length, hperm.sum_eq, size]

def Fits (c : Contents) : Prop := HEADER_LEN + size c.entries ≤ MAX_STORE_BYTES

theorem Fits.small {c : Contents} (h : Fits c) : Small c.entries := by
  intro n blob hb
  have hle := length_le_size hb
  have hmax : MAX_STORE_BYTES < 2 ^ 32 := by decide
  unfold Fits at h
  omega

theorem Fits.same {c c' : Contents} (h : Fits c) (hs : Same c'.entries c.entries) : Fits c' := by
  unfold Fits at h ⊢
  rwa [hs.size_eq]

theorem fits_empty (salt keyId : Fixed 16) : Fits ⟨salt, keyId, ∅⟩ := by
  show HEADER_LEN + 0 ≤ MAX_STORE_BYTES
  decide

theorem fits_of_load {d : Bytes} (hcap : d.length ≤ MAX_STORE_BYTES) {c : Contents}
    (h : load d = .ok c) : Fits c := by
  have hlt : d.length < 2 ^ 63 := Nat.lt_of_le_of_lt hcap (by decide)
  rcases load_cases hlt with ⟨m, hm⟩ | ⟨salt, keyId, es, rfl, hw, hn⟩
  · rw [hm] at h
    cases h
  · rw [load_entries hw hn hlt] at h
    cases h
    rw [List.length_append, header_length] at hcap
    rwa [Fits, size_insertAll hn]

/-- The size check is passed exactly by what fits. -/
theorem exists_checkedImage {c : Contents} : (∃ d, checkedImage c = .ok d) ↔ Fits c := by
  constructor
  · rintro ⟨d, hd⟩
    obtain ⟨himage, hlen⟩ := checkedImage_eq_ok.mp hd
    rwa [Fits, ← image_length himage]
  · intro h
    have himage := image_of_small h.small
    refine ⟨_, checkedImage_eq_ok.mpr ⟨himage, ?_⟩⟩
    rw [image_length himage]
    exact h

theorem checkedImage_of_fits {c : Contents} (h : Fits c) {e : Error} : checkedImage c ≠ .err e := by
  obtain ⟨d, hd⟩ := exists_checkedImage.mpr h
  rw [hd]
  exact fun h => nomatch h

theorem fits_of_checkedImage {c : Contents} {d : Bytes} (h : checkedImage c = .ok d) : Fits c :=
  exists_checkedImage.mp ⟨d, h⟩

end Krypto.Store
