import Krypto.Text
import Mathlib.Data.List.DropRight
import Mathlib.Data.List.Flatten

/-! Rust's methods on strings, on the list of the characters. -/

namespace Krypto
open Effect

instance : Coe String Str := ⟨String.toList⟩

namespace Str

def decimal (n : Nat) : Str := Nat.toDigits 10 n

def padded (width n : Nat) : Str :=
  List.replicate (width - (decimal n).length) '0' ++ decimal n

def stripPrefix (pat : String) (s : Str) : Option Str := pat.toList.isPrefixOf? s

def startsWith (pat : String) (s : Str) : Bool := pat.toList.isPrefixOf s

def splitOnce (pat : String) : Str → Option (Str × Str)
  | [] => (stripPrefix pat []).map fun rest => ([], rest)
  | c :: s =>
    match stripPrefix pat (c :: s) with
    | some rest => some ([], rest)
    | none => (splitOnce pat s).map fun (before, after) => (c :: before, after)

def contains (pat : String) (s : Str) : Bool := (splitOnce pat s).isSome

def firstPiece (pat : String) (s : Str) : Str := ((splitOnce pat s).map Prod.fst).getD s

def split (c : Char) (s : Str) : List Str := s.splitOn c

def isWhitespace (c : Char) : Bool :=
  let n := c.toNat
  (9 ≤ n && n ≤ 13) || n == 0x20 || n == 0x85 || n == 0xa0 || n == 0x1680 ||
    (0x2000 ≤ n && n ≤ 0x200a) || n == 0x2028 || n == 0x2029 || n == 0x202f || n == 0x205f ||
    n == 0x3000

def trimStart (s : Str) : Str := s.dropWhile isWhitespace

def trim (s : Str) : Str := (trimStart s).rdropWhile isWhitespace

def splitWhitespace (s : Str) : List Str := (s.splitOnP isWhitespace).filter (· ≠ [])

/-- A line that ended in `\n`, without the `\r` before it. -/
def chomp (line : Str) : Str := if line.getLast? = some '\r' then line.dropLast else line

/-- The lines of a text split at `\n`: after the last `\n` stands a line only if it is not empty. -/
def linesOf : List Str → List Str
  | [] => []
  | [rest] => if rest = [] then [] else [rest]
  | line :: more => chomp line :: linesOf more

def lines (s : Str) : List Str := linesOf (split '\n' s)

def isAsciiDigit (b : UInt8) : Bool := '0'.toUInt8 ≤ b && b ≤ '9'.toUInt8

def isAsciiHexdigit (b : UInt8) : Bool :=
  isAsciiDigit b || ('a'.toUInt8 ≤ b && b ≤ 'f'.toUInt8) || ('A'.toUInt8 ≤ b && b ≤ 'F'.toUInt8)

def toAsciiLowercase (s : Str) : Str :=
  s.map fun c => if 'A' ≤ c ∧ c ≤ 'Z' then Char.ofNat (c.toNat + 32) else c

def digitsValue (digits : Bytes) : Nat :=
  digits.foldl (fun n b => n * 10 + (b.toNat - '0'.toNat)) 0

def parseU32 (s : Str) : Option Nat :=
  let digits := asBytes (if s.head? = some '+' then s.tail else s)
  if digits ≠ [] ∧ digits.all isAsciiDigit ∧ digitsValue digits < 2 ^ 32 then
    some (digitsValue digits)
  else
    none

def join (sep : String) (parts : List Str) : Str := sep.toList.intercalate parts

/-- The character at the front, and how many of the bytes after the first it takes; where none is
well formed, `U+FFFD` for the bytes that could have begun one. -/
def lossyHead (b0 : UInt8) (rest : Bytes) : Char × Nat :=
  let cont (b : UInt8) : Bool := b &&& 0xc0 == 0x80
  let at' (i : Nat) : UInt8 := rest.getD i 0
  let low (b : UInt8) : Nat := b.toNat % 64
  let bad (taken : Nat) : Char × Nat := (Char.ofNat 0xfffd, taken)
  if b0 < 0x80 then
    (Char.ofNat b0.toNat, 0)
  else if 0xc2 ≤ b0 ∧ b0 ≤ 0xdf then
    if cont (at' 0) then (Char.ofNat (b0.toNat % 32 * 64 + low (at' 0)), 1) else bad 0
  else if 0xe0 ≤ b0 ∧ b0 ≤ 0xef then
    let second := at' 0
    if (b0 == 0xe0 && 0xa0 ≤ second && second ≤ 0xbf) ||
        (0xe1 ≤ b0 && b0 ≤ 0xec && 0x80 ≤ second && second ≤ 0xbf) ||
        (b0 == 0xed && 0x80 ≤ second && second ≤ 0x9f) ||
        (0xee ≤ b0 && 0x80 ≤ second && second ≤ 0xbf) then
      if cont (at' 1) then
        (Char.ofNat (b0.toNat % 16 * 4096 + low second * 64 + low (at' 1)), 2)
      else
        bad 1
    else
      bad 0
  else if 0xf0 ≤ b0 ∧ b0 ≤ 0xf4 then
    let second := at' 0
    if (b0 == 0xf0 && 0x90 ≤ second && second ≤ 0xbf) ||
        (0xf1 ≤ b0 && b0 ≤ 0xf3 && 0x80 ≤ second && second ≤ 0xbf) ||
        (b0 == 0xf4 && 0x80 ≤ second && second ≤ 0x8f) then
      if cont (at' 1) then
        if cont (at' 2) then
          (Char.ofNat (b0.toNat % 8 * 262144 + low second * 4096 + low (at' 1) * 64 + low (at' 2)), 3)
        else
          bad 2
      else
        bad 1
    else
      bad 0
  else
    bad 0

def lossyWith : Nat → Bytes → Str
  | _, [] => []
  | 0, _ :: _ => []
  | fuel + 1, b0 :: rest =>
    let (c, taken) := lossyHead b0 rest
    c :: lossyWith fuel (rest.drop taken)

def fromUtf8Lossy (data : Bytes) : Str := lossyWith data.length data

example : lines "a\r\nb\n\nc\r".toList = ["a".toList, "b".toList, [], "c\r".toList] := by
  decide +kernel

/-! ### Characters and their bytes -/

theorem toNat_ofNat_of_lt {n : ℕ} (h : n < 128) : (Char.ofNat n).toNat = n := by
  have hall : ∀ k : Fin 128, (Char.ofNat k.val).toNat = k.val := by decide +kernel
  exact hall ⟨n, h⟩

theorem encode_of_lt {c : Char} (h : c.toNat < 128) :
    String.utf8EncodeChar c = [UInt8.ofNat c.toNat] := by
  have hle : c.toNat ≤ 127 := Nat.le_of_lt_succ h
  simp [String.utf8EncodeChar, hle]

theorem asBytes_of_lt {s : Str} (h : ∀ c ∈ s, c.toNat < 128) :
    s.asBytes = s.map fun c => UInt8.ofNat c.toNat := by
  induction s with
  | nil => rfl
  | cons c s ih =>
    obtain ⟨hc, hs⟩ := List.forall_mem_cons.mp h
    have hrest := ih hs
    rw [asBytes] at hrest ⊢
    rw [List.flatMap_cons, encode_of_lt hc, hrest]
    rfl

theorem length_asBytes_lowercase (s : Str) :
    (asBytes (toAsciiLowercase s)).length = s.asBytes.length := by
  have hchar (c : Char) :
      (String.utf8EncodeChar (if 'A' ≤ c ∧ c ≤ 'Z' then Char.ofNat (c.toNat + 32) else c)).length =
        (String.utf8EncodeChar c).length := by
    split
    next hupper =>
      have hle : c.toNat ≤ 90 := UInt32.le_iff_toNat_le.mp hupper.2
      have hlower := toNat_ofNat_of_lt (n := c.toNat + 32) (by omega)
      rw [encode_of_lt (by omega), encode_of_lt (by omega)]
      rfl
    · rfl
  simp only [asBytes, toAsciiLowercase, List.flatMap_map, List.length_flatMap, hchar]

theorem eq_append_of_stripPrefix {pat : String} {s rest : Str} (h : stripPrefix pat s = some rest) :
    s = pat.toList ++ rest := (List.append_eq_of_isPrefixOf?_eq_some h).symm

theorem eq_append_of_splitOnce {pat : String} {s before after : Str}
    (h : splitOnce pat s = some (before, after)) : s = before ++ pat.toList ++ after := by
  induction s generalizing before with
  | nil =>
    obtain ⟨rest, hrest, heq⟩ := Option.map_eq_some_iff.mp h
    cases heq
    simpa using eq_append_of_stripPrefix hrest
  | cons c s ih =>
    rw [splitOnce] at h
    split at h
    next rest hrest =>
      cases h
      simpa using eq_append_of_stripPrefix hrest
    next hnone =>
      obtain ⟨⟨before, after⟩, hsplit, heq⟩ := Option.map_eq_some_iff.mp h
      cases heq
      rw [ih hsplit]
      simp

theorem firstPiece_prefix (pat : String) (s : Str) : firstPiece pat s <+: s := by
  rw [firstPiece]
  cases h : splitOnce pat s with
  | none => exact List.prefix_refl s
  | some pieces =>
    refine ⟨pat.toList ++ pieces.2, ?_⟩
    rw [← List.append_assoc]
    exact (eq_append_of_splitOnce h).symm

theorem stripPrefix_append {pat more both : String} (hboth : both.toList = pat.toList ++ more.toList)
    {s rest : Str} (h : stripPrefix pat s = some rest) (hmore : startsWith more rest) :
    ∃ rest', stripPrefix both s = some rest' := by
  obtain ⟨rest', rfl⟩ := List.isPrefixOf_iff_prefix.mp hmore
  refine ⟨rest', List.isPrefixOf?_eq_some_iff_append_eq.mpr ?_⟩
  rw [hboth, List.append_assoc, eq_append_of_stripPrefix h]

/-! ### What is taken from a text is part of it -/

open scoped List

theorem length_asBytes_le {s t : Str} (h : s <+ t) : s.asBytes.length ≤ t.asBytes.length :=
  (h.flatMap _).length_le

theorem trim_sublist (s : Str) : trim s <+ s :=
  (List.rdropWhile_prefix _ _).sublist.trans (List.dropWhile_sublist _)

theorem flatten_split_sublist (c : Char) (s : Str) : (split c s).flatten <+ s := by
  induction s with
  | nil => simp [split]
  | cons x s ih =>
    obtain ⟨piece, pieces, hsplit⟩ := List.exists_cons_of_ne_nil (List.splitOn_ne_nil c s)
    rw [split, hsplit] at ih
    rw [split, List.splitOn_cons_eq_if_modifyHead, hsplit]
    split
    · exact ih.trans (List.sublist_cons_self x s)
    · exact ih.cons_cons x

theorem chomp_sublist (line : Str) : chomp line <+ line := by
  rw [chomp]
  split
  · exact List.dropLast_sublist line
  · exact List.Sublist.refl line

theorem flatten_linesOf_sublist (parts : List Str) : (linesOf parts).flatten <+ parts.flatten := by
  induction parts using linesOf.induct with
  | case1 => simp [linesOf]
  | case2 => simp [linesOf]
  | case3 rest h => simp [linesOf, h]
  | case4 line more h ih =>
    rw [linesOf]
    · exact (chomp_sublist line).append ih
    · exact h

theorem flatten_lines_sublist (s : Str) : (lines s).flatten <+ s :=
  (flatten_linesOf_sublist _).trans (flatten_split_sublist '\n' s)

theorem flatten_map_trim_sublist (parts : List Str) : (parts.map trim).flatten <+ parts.flatten := by
  induction parts with
  | nil => exact List.Sublist.refl _
  | cons s parts ih => exact (trim_sublist s).append ih

theorem isDigit_of_mem_decimal {n : Nat} {c : Char} (h : c ∈ decimal n) : c.isDigit :=
  Nat.isDigit_of_mem_toDigits (by decide) (by decide) h

theorem decimal_injective : Function.Injective decimal := by
  intro m n h
  have hvalue := congrArg (fun digits => Nat.ofDigitChars 10 digits 0) h
  simpa [decimal] using hvalue

theorem mem_of_mem_join {sep : String} {c : Char} {parts : List Str} (h : c ∈ join sep parts) :
    c ∈ sep.toList ∨ ∃ s ∈ parts, c ∈ s := by
  induction parts with
  | nil => exact absurd h (by simp [join])
  | cons s parts ih =>
    by_cases hparts : parts = []
    · exact Or.inr ⟨s, by simp, by simpa [join, hparts] using h⟩
    · rw [join, List.intercalate_cons_of_ne_nil hparts, List.mem_append, List.mem_append] at h
      obtain (hs | hsep) | hrest := h
      · exact Or.inr ⟨s, by simp, hs⟩
      · exact Or.inl hsep
      · exact (ih hrest).imp_right fun ⟨t, ht, hc⟩ => ⟨t, by simp [ht], hc⟩

/-- One part of a joined list stands between texts that do not depend on it. -/
theorem join_append_cons (sep : String) (front back : List Str) :
    ∃ before after, ∀ s, join sep (front ++ s :: back) = before ++ s ++ after := by
  induction front with
  | nil =>
    by_cases hback : back = []
    · exact ⟨[], [], fun s => by simp [join, hback]⟩
    · refine ⟨[], sep.toList ++ join sep back, fun s => ?_⟩
      rw [List.nil_append, join, List.intercalate_cons_of_ne_nil hback, join]
      simp
  | cons t front ih =>
    obtain ⟨before, after, h⟩ := ih
    refine ⟨t ++ sep.toList ++ before, after, fun s => ?_⟩
    have hjoin := h s
    rw [join] at hjoin
    rw [List.cons_append, join, List.intercalate_cons_of_ne_nil (by simp), hjoin]
    simp

theorem join_append_cons_inj {sep : String} {front back : List Str} {s t : Str}
    (h : join sep (front ++ s :: back) = join sep (front ++ t :: back)) : s = t := by
  obtain ⟨before, after, hjoin⟩ := join_append_cons sep front back
  rw [hjoin, hjoin] at h
  exact List.append_cancel_left (List.append_cancel_right h)

theorem splitOn_join {c : Char} {parts : List Str} (hparts : parts ≠ []) (h : ∀ s ∈ parts, c ∉ s) :
    List.splitOn c (join (String.singleton c) parts) = parts := by
  rw [join, String.toList_singleton]
  exact List.splitOn_intercalate c h hparts

end Str
end Krypto
