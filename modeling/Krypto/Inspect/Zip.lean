import Krypto.Inspect.Entries
import Krypto.Inspect.Files
import Mathlib.Data.List.Infix

/-! Which AES strength `zip` reports: it looks for the bytes of the field's id
anywhere in the extra area, and so may find them in a field that comes before. -/

namespace Krypto.Inspect
open Effect Store

theorem leAt_le16 {front back : Bytes} {i n : ℕ} (hi : i = front.length) (hn : n < 2 ^ 16) :
    leAt (front ++ (le16 n ++ back)) i 2 = some n :=
  (leAt_cursor hi).mpr ⟨le16 n, back, rfl, rfl, be_le16 hn⟩

namespace Files

/-! ### An encrypted entry -/

section Entry

structure ExtraField where
  id : ℕ
  data : Bytes
  id_lt : id < 2 ^ 16
  length_lt : data.length < 2 ^ 16

def ExtraField.bytes (f : ExtraField) : Bytes := le16 f.id ++ (le16 f.data.length ++ f.data)

def area (fields : List ExtraField) : Bytes := fields.flatMap ExtraField.bytes

def aes (version vendor method : Fixed 2) (strength : UInt8) : Bytes :=
  le16 0x9901 ++ (le16 7 ++ (version.toList ++ (vendor.toList ++ (strength :: method.toList))))

/-- A local header with the encryption flag and method 99, up to the strength: what stands around
its one AES field. -/
structure Entry where
  needed : Fixed 2
  flags : ℕ
  flags_lt : flags < 2 ^ 16
  encrypted : flags % 2 = 1
  sizes : Fixed 16
  name : Bytes
  name_lt : name.length < 2 ^ 16
  front : List ExtraField
  version : Fixed 2
  vendor : Fixed 2
  method : Fixed 2
  back : List ExtraField
  others : ∀ f ∈ front ++ back, ¬(f.id = 0x9901 ∧ f.data.length = 7)
  extra_lt : (area front).length + 11 + (area back).length < 2 ^ 16
  rest : Bytes

namespace Entry
variable (e : Entry)

def extra (strength : UInt8) : Bytes :=
  area e.front ++ (aes e.version e.vendor e.method strength ++ area e.back)

def header (strength : UInt8) : Bytes :=
  ascii "PK" ++ [3, 4] ++ e.needed.toList ++ (le16 e.flags ++ (le16 99 ++ (e.sizes.toList ++
    (le16 e.name.length ++ (le16 (e.extra strength).length ++ (e.name ++ (e.extra strength ++ e.rest)))))))

theorem length_extra (strength : UInt8) :
    (e.extra strength).length = (area e.front).length + 11 + (area e.back).length := by
  simp [extra, aes, le16]
  omega

end Entry

def aesName (strength : Option UInt8) : String :=
  if strength = some 1 then "AES-128 (WinZip AE)"
  else if strength = some 2 then "AES-192 (WinZip AE)"
  else if strength = some 3 then "AES-256 (WinZip AE)"
  else "AES (WinZip AE)"

def aesReport (strength : Option UInt8) : Finding := (Finding.new "zip archive").fact "encrypted" (aesName strength)

theorem aesReport_inj {s t : UInt8} (hs : s ∈ [1, 2, 3]) (ht : t ∈ [1, 2, 3])
    (h : aesReport (some s) = aesReport (some t)) : s = t := by
  have hall : ∀ s ∈ ([1, 2, 3] : List UInt8), ∀ t ∈ ([1, 2, 3] : List UInt8),
      aesReport (some s) = aesReport (some t) → s = t := by decide
  exact hall s hs t ht h

/-- `zip` reads the header, and then the byte eight places after the first `01 99`. -/
theorem zip_header (e : Entry) (strength : UInt8) :
    zip (e.header strength) = aesReport ((aesField (e.extra strength)).bind fun pos =>
      (e.extra strength)[pos + 8]?) := by
  have hlen : (e.extra strength).length < 2 ^ 16 := by
    rw [e.length_extra]
    exact e.extra_lt
  have hmagic : (ascii "PK").length = 2 := by decide
  have hflags : leAt (e.header strength) 6 2 = some e.flags := by
    apply leAt_le16 _ e.flags_lt
    simp [hmagic]
  have hmethod : leAt (e.header strength) 8 2 = some 99 := by
    unfold Entry.header
    rw [← List.append_assoc]
    apply leAt_le16 _ (by decide)
    simp [hmagic, le16]
  have hname : leAt (e.header strength) 26 2 = some e.name.length := by
    unfold Entry.header
    rw [← List.append_assoc, ← List.append_assoc, ← List.append_assoc]
    apply leAt_le16 _ e.name_lt
    simp [hmagic, le16]
  have hextra : leAt (e.header strength) 28 2 = some (e.extra strength).length := by
    unfold Entry.header
    rw [← List.append_assoc, ← List.append_assoc, ← List.append_assoc, ← List.append_assoc]
    apply leAt_le16 _ hlen
    simp [hmagic, le16]
  -- the extra area starts behind the name, at the offset that `zip` computes
  have harea : range (e.header strength) (30 + e.name.length)
      (30 + e.name.length + (e.extra strength).length) = some (e.extra strength) := by
    unfold Entry.header
    rw [← List.append_assoc, ← List.append_assoc, ← List.append_assoc, ← List.append_assoc,
      ← List.append_assoc, ← List.append_assoc]
    apply (range_cursor _).mpr ⟨rfl, e.rest, rfl⟩
    simp [hmagic, le16]
    omega
  have hodd : ¬e.flags % 2 = 0 := by
    rw [e.encrypted]
    decide
  unfold zip
  simp only [hflags, hmethod, hname, hextra, harea, Option.getD_some, if_neg hodd, if_true]
  generalize (aesField (e.extra strength)).bind _ = found
  unfold aesReport aesName
  split_ifs <;> rfl

end Entry

/-! ### Where the id is found -/

section Pair

def pair : Bytes := [0x01, 0x99]

theorem aesField_cons (b : UInt8) (rest : Bytes) : aesField (b :: rest) =
    if pair <+: b :: rest then some 0 else (aesField rest).map (· + 1) := by
  have hhead : pair.isPrefixOf (b :: rest) = decide (pair <+: b :: rest) := by
    rw [Bool.eq_iff_iff, List.isPrefixOf_iff_prefix, decide_eq_true_iff]
  unfold aesField
  rw [List.tails_cons, List.findIdx?_cons]
  change (if pair.isPrefixOf (b :: rest) = true then _ else _) = _
  simp only [hhead, decide_eq_true_eq]

/-- No pair begins before an area that holds none, even where its last byte meets the next. -/
theorem aesField_after {front : Bytes} (h : ¬pair <:+: front) (back : Bytes) :
    aesField (front ++ (pair ++ back)) = some front.length := by
  induction front with
  | nil =>
    have hp : pair <+: 1 :: (0x99 :: back) := List.prefix_append pair back
    exact (aesField_cons 1 (0x99 :: back)).trans (if_pos hp)
  | cons b front ih =>
    have hrest : ¬pair <:+: front := fun hin => h (hin.trans (List.infix_cons (List.infix_refl _)))
    have hhead : ¬pair <+: b :: (front ++ (pair ++ back)) := by
      intro hp
      cases front with
      | nil =>
        -- the byte before the pair would have to be its first, and the pair's first its second
        obtain ⟨-, hp⟩ := List.cons_prefix_cons.mp hp
        exact absurd (List.cons_prefix_cons.mp hp).1 (by decide)
      | cons c front =>
        apply h
        obtain ⟨hb, hp⟩ := List.cons_prefix_cons.mp hp
        obtain ⟨hc, -⟩ := List.cons_prefix_cons.mp hp
        rw [← hb, ← hc]
        exact (List.prefix_append pair front).isInfix
    rw [List.cons_append, aesField_cons, if_neg hhead, ih hrest]
    rfl

theorem aesField_within {front : Bytes} (h : pair <:+: front) :
    ∃ p, p + 2 ≤ front.length ∧ ∀ back, aesField (front ++ back) = some p := by
  induction front with
  | nil => exact absurd (List.infix_nil.mp h) (by decide)
  | cons b front ih =>
    by_cases hp : pair <+: b :: front
    · apply Exists.intro 0
      apply And.intro
      · exact hp.length_le
      · intro back
        have hall : pair <+: b :: (front ++ back) := hp.trans (List.prefix_append (b :: front) back)
        rw [List.cons_append, aesField_cons, if_pos hall]
    · have hrest := (List.infix_cons_iff.mp h).resolve_left hp
      obtain ⟨p, hle, hfind⟩ := ih hrest
      apply Exists.intro (p + 1)
      apply And.intro
      · simp only [List.length_cons]
        omega
      · intro back
        have hhead : ¬pair <+: b :: (front ++ back) := by
          intro hin
          apply hp
          apply List.prefix_of_prefix_length_le hin (List.prefix_append (b :: front) back)
          have : 0 < front.length := by omega
          simp only [pair, List.length_cons, List.length_nil]
          omega
        rw [List.cons_append, aesField_cons, if_neg hhead, hfind]
        rfl

end Pair

/-! ### The byte that is reported -/

section Reported
variable (e : Entry)

theorem extra_eq : ∃ before after, before.length = (area e.front).length + 8 ∧
    ∀ strength, e.extra strength = before ++ strength :: after := by
  apply Exists.intro (area e.front ++ (le16 0x9901 ++ (le16 7 ++ (e.version.toList ++ e.vendor.toList))))
  apply Exists.intro (e.method.toList ++ area e.back)
  apply And.intro
  · simp [le16]
  · intro strength
    simp [Entry.extra, aes]

theorem extra_pair (strength : UInt8) :
    ∃ back, e.extra strength = area e.front ++ (pair ++ back) := by
  apply Exists.intro
  unfold Entry.extra aes
  rw [List.append_assoc]
  rfl

theorem other_at {i : ℕ} (hi : i ≠ (area e.front).length + 8) (s t : UInt8) :
    (e.extra s)[i]? = (e.extra t)[i]? := by
  obtain ⟨before, after, hlen, hextra⟩ := extra_eq e
  rw [← hlen] at hi
  rw [hextra, hextra]
  obtain hlt | hgt := Nat.lt_or_gt_of_ne hi
  · rw [List.getElem?_append_left hlt, List.getElem?_append_left hlt]
  · obtain ⟨k, rfl⟩ := Nat.exists_eq_add_of_lt hgt
    rw [List.getElem?_append_right (by omega), List.getElem?_append_right (by omega),
      show before.length + k + 1 - before.length = k + 1 by omega, List.getElem?_cons_succ,
      List.getElem?_cons_succ]

/-- The strength is reported when no `01 99` stands in the fields before the AES field, and only
then: behind one the same byte is reported for every strength. -/
theorem zip_aes_strength :
    ((∀ strength ∈ ([1, 2, 3] : List UInt8), zip (e.header strength) = aesReport (some strength)) ↔
      ¬pair <:+: area e.front) ∧
    (pair <:+: area e.front → ∃ p, p + 2 ≤ (area e.front).length ∧ ∀ strength,
      aesField (e.extra strength) = some p ∧
      zip (e.header strength) = aesReport (e.extra strength)[p + 8]?) := by
  have hbehind : pair <:+: area e.front → ∃ p, p + 2 ≤ (area e.front).length ∧ ∀ strength,
      aesField (e.extra strength) = some p ∧
      zip (e.header strength) = aesReport (e.extra strength)[p + 8]? := by
    intro hin
    obtain ⟨p, hle, hfind⟩ := aesField_within hin
    apply Exists.intro p
    apply And.intro hle
    intro strength
    have hfound : aesField (e.extra strength) = some p := hfind _
    apply And.intro hfound
    rw [zip_header, hfound, Option.bind_some]
  apply And.intro _ hbehind
  apply Iff.intro
  · intro hright hin
    obtain ⟨p, hle, hfound⟩ := hbehind hin
    have hsame : aesReport (some 1) = aesReport (some 2) := by
      rw [← hright 1 (by decide), ← hright 2 (by decide), (hfound 1).2, (hfound 2).2,
        other_at e (by omega) 1 2]
    exact absurd (aesReport_inj (by decide) (by decide) hsame) (by decide)
  · intro hnone strength _
    obtain ⟨before, after, hlen, hextra⟩ := extra_eq e
    obtain ⟨back, hpair⟩ := extra_pair e strength
    have hfound : aesField (e.extra strength) = some (area e.front).length := by
      rw [hpair, aesField_after hnone]
    rw [zip_header, hfound, Option.bind_some, ← hlen, hextra]
    simp

/-- A timestamp field whose time begins with the byte `99` hides the strength. -/
def stamped : Entry where
  needed := ⟨[0x33, 0], rfl⟩
  flags := 1
  flags_lt := by decide
  encrypted := rfl
  sizes := ⟨List.replicate 16 0, rfl⟩
  name := ascii "a.txt"
  name_lt := by decide
  front := [⟨0x5455, [0x01, 0x99, 0x40, 0x2a, 0x66], by decide, by decide⟩]
  version := ⟨[0x02, 0x00], rfl⟩
  vendor := ⟨ascii "AE", rfl⟩
  method := ⟨[0x08, 0x00], rfl⟩
  back := []
  others := by decide
  extra_lt := by decide
  rest := []

/-- Of an entry with AES-256 no strength is reported. -/
theorem stamped_unnamed :
    zip (stamped.header 3) = aesReport none ∧ zip (stamped.header 3) ≠ aesReport (some 3) := by
  decide

end Reported

end Files
end Krypto.Inspect
