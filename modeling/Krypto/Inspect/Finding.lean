import Krypto.Str
import Mathlib.Data.List.Infix

/-! What `inspect` reports: a name, and the facts about it. -/

namespace Krypto.Inspect
open Effect

/-- What the inspector takes from outside the crate: the hash behind a fingerprint, Unicode case
mapping, and whether the entropy of an input is above 7.5 bits a byte. -/
structure Lib where
  sha256 : Bytes → Bytes
  toLowercase : Str → Str
  toUppercase : Str → Str
  looksRandom : Bytes → Bool

/-- A library that is right about ASCII text and about inputs that are not hashed. -/
def asciiLib : Lib where
  sha256 := fun _ => []
  toLowercase := Str.toAsciiLowercase
  toUppercase := List.map Char.toUpper
  looksRandom := fun _ => false

structure Finding where
  what : Str
  facts : List (Str × Str)
  changed : Bool
  deriving DecidableEq

namespace Finding

def new (what : Str) : Finding := { what, facts := [], changed := false }

def fact (self : Finding) (name : String) (value : Str) : Finding :=
  { self with facts := self.facts ++ [(name.toList, value)] }

def first (self : Finding) (name : String) (value : Str) : Finding :=
  { self with facts := (name.toList, value) :: self.facts }

@[simp] theorem new_what (what : Str) : (new what).what = what := rfl

@[simp] theorem fact_what (self : Finding) (name : String) (value : Str) :
    (self.fact name value).what = self.what := rfl

/-- One line of the report: `\n  {name:<11} {value}`. -/
def line (name value : Str) : Str :=
  "\n  ".toList ++ name ++ List.replicate (11 - name.length) ' ' ++ [' '] ++ value

def report (self : Finding) : Str := self.what ++ self.facts.flatMap fun (name, value) => line name value

end Finding

def wrapped (inner : Finding) (how : String) : Finding := inner.first "wrapped in" how

def printable (bytes : Bytes) : Str :=
  bytes.map fun b => if 0x20 ≤ b ∧ b < 0x7f then Char.ofNat b.toNat else '?'

def range (input : Bytes) (i j : Nat) : Option Bytes :=
  if i ≤ j ∧ j ≤ input.length then some ((input.drop i).take (j - i)) else none

def ascii (s : String) : Bytes := Str.asBytes s.toList

/-- `input.windows(pattern.len()).any(|w| w == pattern)` -/
def has (input pattern : Bytes) : Bool := input.tails.any fun rest => pattern.isPrefixOf rest

theorem has_eq_true {input pattern : Bytes} : has input pattern = true ↔ pattern <:+: input := by
  rw [has, List.any_eq_true, List.infix_iff_prefix_suffix]
  constructor
  · rintro ⟨rest, hrest, hpattern⟩
    exact ⟨rest, List.isPrefixOf_iff_prefix.mp hpattern, (List.mem_tails _ _).mp hrest⟩
  · rintro ⟨rest, hpattern, hrest⟩
    exact ⟨rest, (List.mem_tails _ _).mpr hrest, List.isPrefixOf_iff_prefix.mpr hpattern⟩

def be (bytes : Bytes) : Nat := bytes.foldl (fun n b => n * 256 + b.toNat) 0

/-- `u16::from_be_bytes(input.get(i..i + 2)?)`, and `u32` with `n = 4` -/
def beAt (input : Bytes) (i n : Nat) : Option Nat := (range input i (i + n)).map be

def leAt (input : Bytes) (i n : Nat) : Option Nat := (range input i (i + n)).map fun b => be b.reverse

end Krypto.Inspect
