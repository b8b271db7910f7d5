import Krypto.Inspect.Blind
import Krypto.Inspect.Encoding
import Krypto.Inspect.HexText

/-! krypto's own formats inside base64. The text of a blob or of a store file is
unwrapped, but for one that says `ustar` where a tar archive does. -/

namespace Krypto
open Effect

namespace Base64

def chars : List Char := '=' :: alphabet

theorem mem_encode {bytes : Bytes} {c : Char} (h : c ∈ encode bytes) : c ∈ chars := by
  rw [encode_eq] at h
  rcases List.mem_append.mp h with hletter | hpad
  · obtain ⟨d, -, rfl⟩ := List.mem_map.mp hletter
    exact List.mem_cons_of_mem _ (List.get_mem _ _)
  · rw [List.eq_of_mem_replicate hpad]
    exact List.mem_cons_self ..

/-- They are ASCII, unbroken and no dash, and only `u` is a `u`. -/
theorem chars_told : ∀ c ∈ chars, c.toNat < 128 ∧
    (Str.isWhitespace c = false ∧ c ∉ Inspect.separators) ∧ UInt8.ofNat c.toNat ≠ '-'.toUInt8 ∧
      (UInt8.ofNat c.toNat = 0x75 → c = 'u') := by
  decide

theorem asBytes_encode (bytes : Bytes) :
    (encode bytes).asBytes = (encode bytes).map fun c => UInt8.ofNat c.toNat :=
  Str.asBytes_of_lt fun c hc => (chars_told c (mem_encode hc)).1

theorem length_encode (bytes : Bytes) : (encode bytes).length = (bytes.length + 2) / 3 * 4 := by
  have hdigits := length_digits bytes
  rw [spare] at hdigits
  rw [encode_eq, List.length_append, List.length_map, List.length_replicate]
  have hthree : bytes.length % 3 = 0 ∨ bytes.length % 3 = 1 ∨ bytes.length % 3 = 2 := by omega
  rcases hthree with h | h | h <;> rw [h] at hdigits ⊢ <;> omega

theorem second_digit {bytes : Bytes} (h : ∀ x ∈ bytes, x.toNat < 128) (k : ℕ) {d : ℕ}
    (hd : (digits bytes)[4 * k + 1]? = some d) : d % 16 < 8 := by
  induction bytes using digits.induct generalizing k with
  | case1 => cases hd
  | case2 b0 =>
    cases k with
    | zero =>
      obtain rfl : b0.toNat % 4 * 16 = d := by simpa [digits] using hd
      omega
    | succ k => simp [digits, Nat.mul_succ] at hd
  | case3 b0 b1 =>
    have hb1 := h b1 (by simp)
    cases k with
    | zero =>
      obtain rfl : b0.toNat % 4 * 16 + b1.toNat / 16 = d := by simpa [digits] using hd
      omega
    | succ k => simp [digits, Nat.mul_succ] at hd
  | case4 b0 b1 b2 rest ih =>
    have hb1 := h b1 (by simp)
    cases k with
    | zero =>
      obtain rfl : b0.toNat % 4 * 16 + b1.toNat / 16 = d := by simpa [digits] using hd
      omega
    | succ k =>
      have hrest : (digits rest)[4 * k + 1]? = some d := by
        have hindex : 4 * (k + 1) + 1 = 4 * k + 1 + 4 := by omega
        rw [hindex, digits] at hd
        simpa using hd
      exact ih (fun x hx => h x (by simp [hx])) k hrest

/-- Padding apart, a character stands for a digit. -/
theorem digit_of_letter {bytes : Bytes} {i : ℕ} {c : Char} (h : (encode bytes)[i]? = some c)
    (hc : c ≠ '=') : ∃ d, (digits bytes)[i]? = some d ∧ letterOf d = c := by
  rw [encode_eq, List.getElem?_append] at h
  split at h
  · rw [List.getElem?_map] at h
    exact Option.map_eq_some_iff.mp h
  · exact absurd (List.eq_of_mem_replicate (List.mem_of_getElem? h)) hc

end Base64

namespace Inspect

/-- What the base64 of krypto's formats and the base64 of their hex start with. -/
def leads : List Char := ['R', 'N']

theorem patterns_lead : ∀ pat ∈ patterns, pat.toList ≠ [] ∧ ∀ c ∈ leads, pat.toList.head? ≠ some c := by
  decide

theorem magics_lead : ∀ pat ∈ magics, pat ≠ [] ∧
    ∀ c ∈ leads, pat.head? ≠ some (UInt8.ofNat c.toNat) := by
  decide

theorem leads_plain : ∀ c ∈ leads, UInt8.ofNat c.toNat ≠ Der.SEQUENCE ∧
    UInt8.ofNat c.toNat &&& 0x80 = 0 ∧ Str.isAsciiHexdigit (UInt8.ofNat c.toNat) = false := by
  decide

section Lead
variable {x : UInt8} {more : Bytes}

theorem fromDer_lead (h : x ≠ Der.SEQUENCE) : Pkix.fromDer (x :: more) = none := by
  have houter : (Der.whole (x :: more)).filter (fun t => t.tag = Der.SEQUENCE) = none := by
    rw [Option.filter_eq_none_iff]
    intro t ht htag
    obtain ⟨octets, -, hencodes⟩ := Der.whole_eq_some.mp ht
    exact h ((List.cons.inj hencodes).1.trans (of_decide_eq_true htag))
  rw [Pkix.fromDer, houter]
  rfl

theorem fromBinary_lead (h : x &&& 0x80 = 0) : Pgp.fromBinary (x :: more) = none := by
  have hpackets : Pgp.packets (x :: more) = none := by
    rw [Pgp.packets, List.length_cons, Pgp.packetsWith, Pgp.header, if_pos h]
    rfl
  rw [Pgp.fromBinary, hpackets]
  rfl

theorem pkcs8P256_lead (h : x ≠ Der.SEQUENCE) : pkcs8P256 (x :: more) = none := by
  rw [pkcs8P256, if_neg]
  rintro ⟨⟨-, hhead, -⟩, -⟩
  exact h (Option.some.inj hhead)

theorem derEcdsaSignature_lead (h : x ≠ Der.SEQUENCE) : derEcdsaSignature (x :: more) = none := by
  unfold derEcdsaSignature
  split
  next heq => exact absurd (List.cons.inj heq).1 h
  next => rfl

end Lead

theorem not_prefix_of_head {α : Type} {pat rest : List α} {a : α} (hne : pat ≠ [])
    (h : pat.head? ≠ some a) : ¬pat <+: a :: rest := by
  intro hpre
  cases pat with
  | nil => exact hne rfl
  | cons x pat =>
    obtain ⟨rfl, -⟩ := List.cons_prefix_cons.mp hpre
    exact h rfl

theorem getElem?_of_range {input bytes : Bytes} {i j k : ℕ} (h : range input i j = some bytes)
    (hk : k < bytes.length) : input[i + k]? = bytes[k]? := by
  unfold range at h
  split at h
  · obtain rfl := Option.some.inj h
    rw [List.length_take] at hk
    rw [List.getElem?_take_of_lt (by omega), List.getElem?_drop]
  · cases h

section Text
variable {b : Bytes} {c : Char} {rest : Str} (hc : c ∈ leads) (htext : Base64.encode b = c :: rest)
include hc htext

theorem plain_base64 : Plain (Base64.encode b) := by
  refine ⟨by simp [htext], fun pat hpat => ?_, fun c hc => (Base64.chars_told c (Base64.mem_encode hc)).2.1⟩
  obtain ⟨hne, hhead⟩ := patterns_lead pat hpat
  rw [htext]
  exact not_prefix_of_head hne (hhead c hc)

omit hc in
theorem cons_bytes : ∃ more, (Base64.encode b).asBytes = UInt8.ofNat c.toNat :: more :=
  ⟨rest.map fun c => UInt8.ofNat c.toNat, by rw [Base64.asBytes_encode, htext, List.map_cons]⟩

/-- A tar archive is all that the bytes of the text are ever taken for. -/
theorem recognizers_base64 :
    recognizers.findSome? (fun f => f (Base64.encode b).asBytes) =
      Files.tar (Base64.encode b).asBytes := by
  have hbitlocker : Files.bitlocker (Base64.encode b).asBytes = none := by
    rw [Files.bitlocker, if_neg]
    intro hat
    have hmem : '-'.toUInt8 ∈ (Base64.encode b).asBytes := subset_of_range hat (by decide)
    rw [Base64.asBytes_encode] at hmem
    obtain ⟨c, hc, heq⟩ := List.mem_map.mp hmem
    exact (Base64.chars_told c (Base64.mem_encode hc)).2.2.1 heq
  obtain ⟨more, hmore⟩ := cons_bytes htext
  obtain ⟨hsequence, hpacket, -⟩ := leads_plain c hc
  have hstarts : ∀ pat ∈ magics, ¬pat <+: (Base64.encode b).asBytes := by
    intro pat hpat
    obtain ⟨hne, hhead⟩ := magics_lead pat hpat
    rw [hmore]
    exact not_prefix_of_head hne (hhead c hc)
  rw [recognizers, List.findSome?_cons, blob_none hstarts, List.findSome?_cons, store_none hstarts]
  dsimp only
  simp only [List.findSome?_cons, fromMagic_eq hstarts hbitlocker]
  rw [hmore, pkcs8P256_lead hsequence, derEcdsaSignature_lead hsequence, fromDer_lead hsequence,
    fromBinary_lead hpacket]
  dsimp only
  cases Files.tar (UInt8.ofNat c.toNat :: more) with
  | none => rfl
  | some found => rfl

variable (lib : Lib) {depth : ℕ}

/-- Where it does not say `ustar`, the text is told as what it wraps, when that is told at all. -/
theorem inspectAt_base64 (hlen : 4 ≤ b.length) (hdepth : depth < 2)
    (htar : range (Base64.encode b).asBytes 257 262 ≠ some (ascii "ustar"))
    (hknown : (inspectAt lib b (depth + 1)).what ≠ NOT_RECOGNIZED) :
    inspectAt lib (Base64.encode b).asBytes depth =
      wrapped (inspectAt lib b (depth + 1)) "base64" := by
  have hbytes : recognizers.findSome? (fun f => f (Base64.encode b).asBytes) = none := by
    rw [recognizers_base64 hc htext, Files.tar, if_neg htar]
  have hlong : 8 ≤ (Base64.encode b).asBytes.length := by
    rw [Base64.asBytes_encode, List.length_map, Base64.length_encode]
    omega
  have hhex : ¬(2 ≤ (Base64.encode b).asBytes.length ∧
      (Base64.encode b).asBytes.all Str.isAsciiHexdigit) := by
    rintro ⟨-, hall⟩
    obtain ⟨more, hmore⟩ := cons_bytes htext
    rw [hmore, List.all_cons, (leads_plain c hc).2.2] at hall
    exact absurd hall Bool.false_ne_true
  have hdecoded : Ssh.decoded (Base64.encode b) = some b := by
    rw [Ssh.decoded, Base64.canonical_padded.round]
  apply inspectAt_plain (plain_base64 hc htext) lib hbytes hdepth
  rw [unwrapped, if_neg hhex, if_pos hlong, hdecoded, Option.bind_some]
  dsimp only
  rw [if_pos hknown]
  rfl

theorem inspectAt_ustar (htar : range (Base64.encode b).asBytes 257 262 = some (ascii "ustar")) :
    inspectAt lib (Base64.encode b).asBytes depth =
      (Finding.new "tar archive").fact "encrypted" "no" := by
  rw [inspectAt_eq, inspectOne, recognizers_base64 hc htext, Files.tar, if_pos htar]
  rfl

end Text

/-! ### krypto's own formats -/

structure Wraps (layers : List String) (found inner : Finding) : Prop where
  what : found.what = inner.what
  facts : found.facts = layers.map (fun how => ("wrapped in".toList, how.toList)) ++ inner.facts
  changed : found.changed = inner.changed

theorem wraps_wrapped {layers : List String} {found inner : Finding} (h : Wraps layers found inner)
    (how : String) : Wraps (how :: layers) (wrapped found how) inner :=
  ⟨h.what, by rw [List.map_cons, List.cons_append, ← h.facts]; rfl, h.changed⟩

/-- The bytes of a blob, changed or not, or of a store file. -/
def Ours (b : Bytes) : Prop := ascii "FAFN" <+: b ∨ ascii "FST1" <+: b

theorem store_what {d : Bytes} {found : Finding} (h : store d = some found) :
    found.what = "krypto store file (krypto::SecretStore)".toList := by
  unfold store at h
  dsimp only at h
  split at h
  · cases h
  · split at h
    · rw [← Option.some.inj h]
      rfl
    · split at h
      · rw [← Option.some.inj h]
        split <;> rfl
      · rw [← Option.some.inj h]
        split <;> rfl

theorem encode_lead {x : UInt8} {c : Char} (h : Base64.letterOf (x.toNat / 4) = c) (y z : UInt8)
    (more : Bytes) : ∃ rest, Base64.encode (x :: y :: z :: more) = c :: rest := by
  rw [Base64.encode_eq, Base64.digits, List.map_cons, List.cons_append, h]
  exact ⟨_, rfl⟩

theorem encode_hex_lead {x y u v w t : UInt8} {c : Char} (hhex : (Hex.encode [x, y]).asBytes = [u, v, w, t])
    (h : Base64.letterOf (u.toNat / 4) = c) (more : Bytes) :
    ∃ rest, Base64.encode (Hex.encode (x :: y :: more)).asBytes = c :: rest := by
  have hsplit : (Hex.encode (x :: y :: more)).asBytes =
      (Hex.encode [x, y]).asBytes ++ (Hex.encode more).asBytes := by
    simp [Hex.encode, Str.asBytes]
  rw [hsplit, hhex]
  exact encode_lead h _ _ _

theorem letters_lead : Base64.letterOf ((0x46 : UInt8).toNat / 4) = 'R' ∧
    Base64.letterOf ((0x34 : UInt8).toNat / 4) = 'N' := ⟨rfl, rfl⟩

section Ours
variable {b : Bytes} (h : Ours b)
include h

theorem ours_told : ∃ found : Finding, (∀ lib depth, inspectAt lib b depth = found) ∧
    (found.what = "krypto blob (krypto::seal)".toList ∨
      found.what = "krypto store file (krypto::SecretStore)".toList) := by
  rcases h with hblob | hstore
  · have hfound := blob_eq hblob
    refine ⟨_, fun lib depth => inspectAt_blob lib depth hfound, .inl ?_⟩
    cases Aead.verdict b <;> rfl
  · obtain ⟨found, hfound⟩ := store_isSome hstore
    exact ⟨found, fun lib depth => inspectAt_store lib depth hstore hfound, .inr (store_what hfound)⟩

theorem ours_lead : 4 ≤ b.length ∧ (∃ rest, Base64.encode b = 'R' :: rest) ∧
    ∃ rest, Base64.encode (Hex.encode b).asBytes = 'N' :: rest := by
  refine ⟨?_, ?_, ?_⟩
  · rcases h with hblob | hstore
    · exact hblob.length_le
    · exact hstore.length_le
  · rcases h with ⟨more, rfl⟩ | ⟨more, rfl⟩
    · exact encode_lead letters_lead.1 _ _ _
    · exact encode_lead letters_lead.1 _ _ _
  · rcases h with ⟨more, rfl⟩ | ⟨more, rfl⟩
    · have hhex : (Hex.encode [0x46, 0x41]).asBytes = [0x34, 0x36, 0x34, 0x31] := rfl
      exact encode_hex_lead hhex letters_lead.2 _
    · have hhex : (Hex.encode [0x46, 0x53]).asBytes = [0x34, 0x36, 0x35, 0x33] := rfl
      exact encode_hex_lead hhex letters_lead.2 _

end Ours

theorem digit_u {d : Fin 64} (h : Base64.letterOf d = 'u') : ¬d.val % 16 < 8 := by
  have hd := Base64.sextet_letterByte d
  have hu : Base64.sextet 'u'.toUInt8 = .ok 46 := rfl
  rw [Base64.letterByte, h, hu] at hd
  have hval := congrArg UInt8.toNat (Outcome.ok.inj hd)
  rw [UInt8.toNat_ofNat', Nat.mod_eq_of_lt (Nat.lt_trans d.isLt (by decide))] at hval
  rw [← hval]
  decide

/-- The text of hex does not say `ustar`: no second letter of a group is a `u`. -/
theorem hex_ne_ustar (b : Bytes) :
    range (Base64.encode (Hex.encode b).asBytes).asBytes 257 262 ≠ some (ascii "ustar") := by
  intro hat
  have hfirst : (ascii "ustar")[0]? = some 0x75 := rfl
  have hbyte := getElem?_of_range hat (by decide : 0 < (ascii "ustar").length)
  rw [hfirst, Base64.asBytes_encode, List.getElem?_map] at hbyte
  obtain ⟨c, hc, hu⟩ := Option.map_eq_some_iff.mp hbyte
  obtain rfl := (Base64.chars_told c (Base64.mem_encode (List.mem_of_getElem? hc))).2.2.2 hu
  have hascii : ∀ x ∈ (Hex.encode b).asBytes, x.toNat < 128 := by
    have hchars : ∀ c ∈ Hex.encode b, c ∈ Hex.chars :=
      fun c hc => (Hex.alphabet_cases c (Hex.mem_encode hc)).1
    intro x hx
    rw [Hex.asBytes_of_chars hchars] at hx
    obtain ⟨c, hc, rfl⟩ := List.mem_map.mp hx
    rw [UInt8.toNat_ofNat']
    exact Nat.lt_of_le_of_lt (Nat.mod_le _ _) (Hex.chars_ascii c (hchars c hc))
  obtain ⟨d, hd, hletter⟩ := Base64.digit_of_letter hc (by decide)
  have hlow := Base64.second_digit hascii 64 hd
  have hlt := Base64.digits_lt _ d (List.mem_of_getElem? hd)
  exact digit_u (d := ⟨d, hlt⟩) hletter hlow

/-- What is told of a blob or a store file, in base64, in the hex of that and in the base64 of its
hex, is what is told of it as it is, but for one text: the one that says `ustar` from byte 257 on
is taken for a tar archive. -/
theorem ours_in_base64_iff (lib : Lib) {b : Bytes} (h : Ours b) :
    (Wraps ["base64"] (inspect lib (Base64.encode b).asBytes) (inspect lib b) ∧
      Wraps ["hex", "base64"] (inspect lib (Hex.encode (Base64.encode b).asBytes).asBytes) (inspect lib b) ∧
      Wraps ["base64", "hex"] (inspect lib (Base64.encode (Hex.encode b).asBytes).asBytes) (inspect lib b)) ↔
    range (Base64.encode b).asBytes 257 262 ≠ some (ascii "ustar") := by
  obtain ⟨found, hfound, hwhat⟩ := ours_told h
  obtain ⟨hlen, ⟨rest, htext⟩, rest', htext'⟩ := ours_lead h
  have hlead : 'R' ∈ leads := by decide
  have hlead' : 'N' ∈ leads := by decide
  have hknown : found.what ≠ NOT_RECOGNIZED := by
    rcases hwhat with hwhat | hwhat <;> rw [hwhat] <;> decide
  have hself : Wraps [] found found := ⟨rfl, rfl, rfl⟩
  have hne : b ≠ [] := by
    rintro rfl
    exact absurd hlen (by decide)
  unfold inspect
  rw [hfound lib 0]
  constructor
  · rintro ⟨htold, -⟩ htar
    -- the tar signature is asked before base64, and wins
    rw [inspectAt_ustar hlead htext lib htar] at htold
    have hname := htold.what
    rcases hwhat with hwhat | hwhat <;> rw [hwhat] at hname <;> exact absurd hname (by decide)
  · intro htar
    have hbase64 (depth : ℕ) (hdepth : depth < 2) : Wraps ["base64"]
        (inspectAt lib (Base64.encode b).asBytes depth) found := by
      have hinner := hfound lib (depth + 1)
      rw [inspectAt_base64 hlead htext lib hlen hdepth htar (by rwa [hinner]), hinner]
      exact wraps_wrapped hself "base64"
    have hspells (bytes : Bytes) : Hex.Spells (Hex.encode bytes) bytes :=
      List.forall₂_same.mpr fun _ _ => .inl rfl
    have htextne : (Base64.encode b).asBytes ≠ [] := by
      obtain ⟨more, hmore⟩ := cons_bytes htext
      exact hmore ▸ List.cons_ne_nil _ _
    have hhex : inspectAt lib (Hex.encode b).asBytes 1 = wrapped found "hex" := by
      rw [inspectAt_hex lib hne (hspells b) (by decide), hfound]
    have hlong : 4 ≤ (Hex.encode b).asBytes.length := by
      have hchars : ∀ c ∈ Hex.encode b, c ∈ Hex.chars :=
        fun c hc => (Hex.alphabet_cases c (Hex.mem_encode hc)).1
      rw [Hex.asBytes_of_chars hchars, List.length_map, Hex.length_encode]
      omega
    refine ⟨hbase64 0 (by decide), ?_, ?_⟩
    · rw [inspectAt_hex lib htextne (hspells _) (by decide)]
      exact wraps_wrapped (hbase64 1 (by decide)) "hex"
    · have htold : Wraps ["hex"] (wrapped found "hex") found := wraps_wrapped hself "hex"
      -- hex under base64 has no tar signature: `u` is no digit
      rw [inspectAt_base64 hlead' htext' lib hlong (by decide) (hex_ne_ustar b) (by rwa [hhex]), hhex]
      exact wraps_wrapped htold "base64"

theorem ours_in_base64_iff_sample :
    Wraps ["base64"] (inspect asciiLib (Base64.encode (filledBlob 1)).asBytes) (inspect asciiLib (filledBlob 1)) ∧
    Wraps ["hex", "base64"] (inspect asciiLib (Hex.encode (Base64.encode (filledStore 1)).asBytes).asBytes)
      (inspect asciiLib (filledStore 1)) ∧
    Wraps ["base64", "hex"] (inspect asciiLib (Base64.encode (Hex.encode (filledStore 1)).asBytes).asBytes)
      (inspect asciiLib (filledStore 1)) := by
  have hblob : Ours (filledBlob 1) := .inl ⟨_, rfl⟩
  have hstore : Ours (filledStore 1) := .inr ⟨_, rfl⟩
  obtain ⟨hbase64, -, -⟩ := (ours_in_base64_iff asciiLib hblob).mpr (by decide +kernel)
  obtain ⟨-, hhex, hhexed⟩ := (ours_in_base64_iff asciiLib hstore).mpr (by decide +kernel)
  exact ⟨hbase64, hhex, hhexed⟩

/-- A blob whose algorithm was changed, with a ciphertext that is `ustar` in base64. -/
def hidden : Bytes :=
  ascii "FAFN" ++ [1, 9] ++ List.replicate 186 0 ++ [0x02, 0xeb, 0x2d, 0x6a, 0xb0, 0x00]

/-- Its base64 is a tar archive to `inspect`, and its changed header goes unsaid. -/
theorem hidden_in_base64 : (inspect asciiLib hidden).changed = true ∧
    (inspect asciiLib (Base64.encode hidden).asBytes).what = "tar archive".toList ∧
    (inspect asciiLib (Base64.encode hidden).asBytes).changed = false ∧
    ¬∀ (lib : Lib) (b : Bytes), Ours b →
      Wraps ["base64"] (inspect lib (Base64.encode b).asBytes) (inspect lib b) ∧
        Wraps ["hex", "base64"] (inspect lib (Hex.encode (Base64.encode b).asBytes).asBytes)
          (inspect lib b) ∧
        Wraps ["base64", "hex"] (inspect lib (Base64.encode (Hex.encode b).asBytes).asBytes)
          (inspect lib b) := by
  have hmagic : ascii "FAFN" <+: hidden := ⟨_, (List.append_assoc _ _ _).symm⟩
  obtain ⟨-, ⟨rest, htext⟩, -⟩ := ours_lead (.inl hmagic)
  have htar : inspect asciiLib (Base64.encode hidden).asBytes =
      (Finding.new "tar archive").fact "encrypted" "no" :=
    inspectAt_ustar (by decide : 'R' ∈ leads) htext asciiLib (by decide +kernel)
  have hverdict : Aead.verdict hidden = .changed := by decide +kernel
  have hblob : (inspect asciiLib hidden).changed = true := by
    rw [inspect, inspectAt_blob asciiLib 0 (blob_eq hmagic), hverdict]
  rw [htar]
  refine ⟨hblob, rfl, rfl, fun hall => ?_⟩
  have hchanged := (hall asciiLib hidden (.inl hmagic)).1.changed
  rw [htar, hblob] at hchanged
  exact Bool.false_ne_true hchanged

end Inspect
end Krypto
