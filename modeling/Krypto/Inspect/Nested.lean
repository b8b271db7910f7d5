import Krypto.Base64.Canonical
import Krypto.Inspect

/-! What `inspect` unwraps is shorter than what it stands in, so the layers
come to an end: `inspectAt` is `inspect_at` as the source has it. -/

namespace Krypto
open Effect

namespace Hex

theorem length_decodePairs {text bytes : Bytes} (h : decodePairs text = .ok bytes) :
    2 * bytes.length ≤ text.length := by
  induction text using decodePairs.induct generalizing bytes with
  | case1 c0 c1 rest ih =>
    rw [decodePairs] at h
    obtain ⟨hi, -, h⟩ := Outcome.bind_eq_ok.mp h
    obtain ⟨lo, -, h⟩ := Outcome.bind_eq_ok.mp h
    obtain ⟨more, hmore, h⟩ := Outcome.bind_eq_ok.mp h
    have hlen := ih hmore
    cases h
    simp only [List.length_cons]
    omega
  | case2 text hshort =>
    rw [decodePairs] at h
    · cases h
      simp
    · exact hshort

theorem length_decode {s : Str} {bytes : Bytes} (h : decode s = .ok bytes) :
    2 * bytes.length ≤ s.asBytes.length := by
  simp only [decode] at h
  split at h
  · cases h
  · exact length_decodePairs h

end Hex

theorem Base64.length_decode {s : Str} {bytes : Bytes} (h : decode s = .ok bytes) :
    4 * bytes.length ≤ 3 * s.asBytes.length := by
  have hlen := length_digits bytes
  rw [canonical_padded.only s bytes h, encode_eq, length_asBytes_pad,
    length_letters (digits_lt bytes)]
  omega

namespace Inspect

theorem length_decoded {s : Str} {bytes : Bytes} (h : Ssh.decoded s = some bytes) :
    4 * bytes.length ≤ 3 * s.asBytes.length := by
  rw [Ssh.decoded] at h
  split at h
  next b hb =>
    obtain rfl := Option.some.inj h
    exact Base64.length_decode hb
  · cases h

theorem pemBody_sublist (text : Str) : (pemBody text).Sublist text := by
  have hlines := Str.flatten_lines_sublist text
  have htaken : ((((Str.lines text).tail.takeWhile fun l => ¬Str.startsWith "-----END" l).filter
      fun l => ':' ∉ l)).Sublist (Str.lines text) :=
    List.filter_sublist.trans ((List.takeWhile_sublist _).trans (List.tail_sublist _))
  exact (Str.flatten_map_trim_sublist _).trans (htaken.flatten.trans hlines)

section Shorter
variable {lib : Lib} {inner inner' : Bytes → Nat → Finding} {text : Str}
  (h : ∀ b d, b.length < text.asBytes.length → inner b d = inner' b d)
include h

theorem pem_congr (depth : ℕ) : pem lib inner text depth = pem lib inner' text depth := by
  simp only [pem]
  cases hstart : Str.stripPrefix "-----BEGIN " text with
  | none => rfl
  | some rest =>
    have hpos : 0 < text.asBytes.length := by
      rw [Str.eq_append_of_stripPrefix hstart, Str.asBytes, List.flatMap_append,
        List.length_append]
      exact Nat.add_pos_left (by decide) _
    have hinner : (Ssh.decoded (pemBody text)).bind (pemInner inner (Str.firstPiece "-----" rest) depth) =
        (Ssh.decoded (pemBody text)).bind (pemInner inner' (Str.firstPiece "-----" rest) depth) := by
      cases hdecoded : Ssh.decoded (pemBody text) with
      | none => rfl
      | some b =>
        have hb := length_decoded hdecoded
        have hbody := Str.length_asBytes_le (pemBody_sublist text)
        rw [Option.bind_some, Option.bind_some, pemInner, pemInner, h b _ (by omega)]
    simp only [Option.bind_eq_bind, Option.bind_some, hinner]

theorem unwrapped_congr (depth : ℕ) : unwrapped inner text depth = unwrapped inner' text depth := by
  have hhex {bytes : Bytes} (hlen : 2 ≤ text.asBytes.length)
      (hbytes : Hex.decode (Str.toAsciiLowercase text) = .ok bytes) :
      inner bytes (depth + 1) = inner' bytes (depth + 1) := by
    have hshort := Hex.length_decode hbytes
    rw [Str.length_asBytes_lowercase] at hshort
    exact h bytes _ (by omega)
  have hbase64 {bytes : Bytes} (hlen : 8 ≤ text.asBytes.length)
      (hbytes : Ssh.decoded text = some bytes) :
      inner bytes (depth + 1) = inner' bytes (depth + 1) := by
    have hshort := length_decoded hbytes
    exact h bytes _ (by omega)
  rw [unwrapped, unwrapped]
  congr 1
  · split
    next hguard =>
      cases hbytes : Hex.decode (Str.toAsciiLowercase text) with
      | ok bytes => simp only [hhex hguard.1 hbytes]
      | err e => rfl
      | panic => rfl
    · rfl
  · split
    next hguard =>
      cases hbytes : Ssh.decoded text with
      | some bytes => simp only [Option.bind_some, hbase64 hguard hbytes]
      | none => rfl
    · rfl

theorem fromString_congr (depth : ℕ) :
    fromString lib inner text depth = fromString lib inner' text depth := by
  rw [fromString, fromString, pem_congr h, unwrapped_congr h]

end Shorter

theorem inspectOne_congr {lib : Lib} {inner inner' : Bytes → Nat → Finding} {input : Bytes}
    (h : ∀ b d, b.length < input.length → inner b d = inner' b d) (depth : ℕ) :
    inspectOne lib inner input depth = inspectOne lib inner' input depth := by
  have htext : ((Str.fromUtf8 input).map Str.trim).bind
        (fun text => fromString lib inner text depth) =
      ((Str.fromUtf8 input).map Str.trim).bind (fun text => fromString lib inner' text depth) := by
    cases hutf : Str.fromUtf8 input with
    | none => rfl
    | some s =>
      have hlen := Str.length_asBytes_le (Str.trim_sublist s)
      rw [Str.asBytes_of_fromUtf8 hutf] at hlen
      exact fromString_congr (fun b d hb => h b d (by omega)) depth
  rw [inspectOne, inspectOne, htext]

/-- Fuel for more layers than there are bytes is not used. -/
theorem inspectWith_eq (lib : Lib) {m n : ℕ} {input : Bytes} (hm : input.length < m)
    (hn : input.length < n) (depth : ℕ) :
    inspectWith lib m input depth = inspectWith lib n input depth := by
  induction m generalizing n input depth with
  | zero => omega
  | succ m ih =>
    obtain ⟨n, rfl⟩ := Nat.exists_eq_succ_of_ne_zero (by omega : n ≠ 0)
    refine inspectOne_congr (fun b d hb => ?_) depth
    exact ih (by omega) (by omega) d

/-- `inspect_at` calls itself on what the input wraps. -/
theorem inspectAt_eq (lib : Lib) (input : Bytes) (depth : ℕ) :
    inspectAt lib input depth = inspectOne lib (inspectAt lib) input depth := by
  refine inspectOne_congr (fun b d hb => ?_) depth
  exact inspectWith_eq lib hb (Nat.lt_succ_self _) d

end Inspect
end Krypto
