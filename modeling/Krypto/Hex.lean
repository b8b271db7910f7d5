import Krypto.Error
import Krypto.Text

/-! Canonical hex: lowercase out, strictly lowercase in. -/

namespace Krypto.Hex
open Effect

def alphabet : List Char := "0123456789abcdef".toList

def letter (n : UInt8) : Char :=
  alphabet.get ⟨n.toNat % 16, Nat.mod_lt _ (by decide)⟩

def encode (bytes : Bytes) : Str := bytes.flatMap fun (b : UInt8) => [letter (b >>> 4), letter (b &&& 0x0f)]

theorem length_encode (bytes : Bytes) : (encode bytes).length = 2 * bytes.length := by
  rw [encode, List.length_flatMap]
  simp [Nat.mul_comm]

def nibble (c : UInt8) : Outcome Error UInt8 :=
  if '0'.toUInt8 ≤ c ∧ c ≤ '9'.toUInt8 then .ok (c - '0'.toUInt8)
  else if 'a'.toUInt8 ≤ c ∧ c ≤ 'f'.toUInt8 then .ok (c - 'a'.toUInt8 + 10)
  -- uppercase is rejected on purpose: canonical hex has one spelling
  else .err (.format (.quoting "invalid hex character " (Char.ofNat c.toNat)
    " — canonical hex is lowercase [0-9a-f]"))

def decodePairs : Bytes → Outcome Error Bytes
  | c0 :: c1 :: rest => do
    let hi ← nibble c0
    let lo ← nibble c1
    let more ← decodePairs rest
    pure (((hi <<< 4) ||| lo) :: more)
  | _ => pure []

def decode (s : Str) : Outcome Error Bytes :=
  let len := s.asBytes.length
  if len % 2 ≠ 0 then
    .err (.format s!"hex string has odd length {len}")
  else
    decodePairs s.asBytes

theorem nibble_ne_panic (c : UInt8) : nibble c ≠ .panic := by
  unfold nibble
  split_ifs
  all_goals exact fun h => nomatch h

theorem decodePairs_ne_panic (b : Bytes) : decodePairs b ≠ .panic := by
  induction b using decodePairs.induct with
  | case1 c0 c1 rest ih =>
    rw [decodePairs]
    cases hhi : nibble c0 with
    | err e => exact fun h => nomatch h
    | panic => exact absurd hhi (nibble_ne_panic c0)
    | ok hi =>
      cases hlo : nibble c1 with
      | err e => exact fun h => nomatch h
      | panic => exact absurd hlo (nibble_ne_panic c1)
      | ok lo =>
        cases hmore : decodePairs rest with
        | ok more => exact fun h => nomatch h
        | err e => exact fun h => nomatch h
        | panic => exact absurd hmore ih
  | case2 b hb =>
    rw [decodePairs]
    · exact fun h => nomatch h
    · exact hb

theorem decode_ne_panic (s : Str) : decode s ≠ .panic := by
  unfold decode
  dsimp only
  split_ifs
  · exact fun h => nomatch h
  · exact decodePairs_ne_panic _

end Krypto.Hex
