import Krypto.Error
import Krypto.Text
import Mathlib.Data.List.DropRight

/-! Canonical base64: one spelling out, strictly that spelling in. -/

namespace Krypto
open Effect

section Words
variable {ε : Type}

/-- `u32` arithmetic: past 32 bits, below zero, or shifted by more than the width, it panics. -/
def u32Add (a b : UInt32) : Outcome ε UInt32 :=
  if a.toNat + b.toNat < 2 ^ 32 then .ok (a + b) else .panic

def u32Sub (a b : UInt32) : Outcome ε UInt32 := if b ≤ a then .ok (a - b) else .panic

def u32Shl (a k : UInt32) : Outcome ε UInt32 := if k < 32 then .ok (a <<< k) else .panic

def u32Shr (a k : UInt32) : Outcome ε UInt32 := if k < 32 then .ok (a >>> k) else .panic

end Words

namespace Base64

def alphabet : List Char :=
  "ABCDEFGHIJKLMNOPQRSTUVWXYZabcdefghijklmnopqrstuvwxyz0123456789+/".toList

def letter (n : UInt32) : Char :=
  alphabet.get ⟨(n &&& 63).toNat, by
    rw [UInt32.toNat_and]
    exact Nat.lt_succ_of_le Nat.and_le_right⟩

def encodeChunk (b0 : UInt8) (b1 b2 : Option UInt8) : Str :=
  let n := (b0.toUInt32 <<< 16) ||| ((b1.getD 0).toUInt32 <<< 8) ||| (b2.getD 0).toUInt32
  [letter (n >>> 18), letter (n >>> 12),
    if b1.isSome then letter (n >>> 6) else '=', if b2.isSome then letter n else '=']

def encode : Bytes → Str
  | [] => []
  | [b0] => encodeChunk b0 none none
  | [b0, b1] => encodeChunk b0 (some b1) none
  | b0 :: b1 :: b2 :: rest => encodeChunk b0 (some b1) (some b2) ++ encode rest

/-- `while s.ends_with('=') { s.pop(); }`, which is also `s.trim_end_matches('=')` -/
def trimPad (s : Str) : Str := s.rdropWhile (· = '=')

def encodeNopad (bytes : Bytes) : Str := trimPad (encode bytes)

def sextet (c : UInt8) : Outcome Error UInt8 :=
  if 'A'.toUInt8 ≤ c ∧ c ≤ 'Z'.toUInt8 then .ok (c - 'A'.toUInt8)
  else if 'a'.toUInt8 ≤ c ∧ c ≤ 'z'.toUInt8 then .ok (c - 'a'.toUInt8 + 26)
  else if '0'.toUInt8 ≤ c ∧ c ≤ '9'.toUInt8 then .ok (c - '0'.toUInt8 + 52)
  else if c = '+'.toUInt8 then .ok 62
  else if c = '/'.toUInt8 then .ok 63
  -- whitespace too: canonical base64 has one spelling, unbroken
  else .err (.format (.quoting "invalid base64 character " (Char.ofNat c.toNat)
    " (STANDARD alphabet, no whitespace)"))

structure Reader where
  acc : UInt32
  nbits : UInt32
  out : Bytes

def Reader.start : Reader := { acc := 0, nbits := 0, out := [] }

def Reader.feed (r : Reader) (c : UInt8) : Outcome Error Reader := do
  let v ← sextet c
  let acc := (r.acc <<< 6) ||| v.toUInt32
  let nbits ← u32Add r.nbits 6
  if 8 ≤ nbits then
    let nbits ← u32Sub nbits 8
    let byte ← u32Shr acc nbits
    let mask ← u32Sub (← u32Shl 1 nbits) 1
    pure { acc := acc &&& mask, nbits, out := r.out ++ [byte.toUInt8] }
  else
    pure { r with acc, nbits }

def read (bytes : Bytes) : Outcome Error Reader := bytes.foldlM Reader.feed .start

def decodeBody (s : Str) : Outcome Error Bytes := do
  let r ← read s.asBytes
  if 0 < r.nbits ∧ r.acc ≠ 0 then
    .err (.format "non-canonical base64: trailing bits are not zero")
  else
    pure r.out

def decode (s : Str) : Outcome Error Bytes :=
  let len := s.asBytes.length
  if len % 4 ≠ 0 then
    .err (.format s!"base64 length {len} is not a multiple of 4 (padded form required)")
  else
    let stripped := trimPad s
    if 2 < len - stripped.asBytes.length then
      .err (.format "too much base64 padding")
    else
      decodeBody stripped

def decodeNopad (s : Str) : Outcome Error Bytes :=
  let len := s.asBytes.length
  if '=' ∈ s then
    .err (.format "unexpected '=' — decode_nopad takes the unpadded form")
  else if len % 4 = 1 then
    .err (.format s!"impossible base64 length {len} (mod 4 == 1)")
  else
    decodeBody s

end Base64
end Krypto
