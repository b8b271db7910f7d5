import Krypto.Hex.Canonical
import Krypto.Inspect.Plain

/-! Hex text is unwrapped: no recognizer that comes before claims a text of hex
digits, whatever their number and case. Each asks for a byte or a character that
is no hex digit. -/

namespace Krypto
open Effect

namespace Hex

def chars : List Char := "0123456789abcdefABCDEF".toList

def charBytes : Bytes := chars.map fun c => UInt8.ofNat c.toNat

/-- A spelling of the hex of `bytes`: each letter is in upper or in lower case. -/
def Spells (text : Str) (bytes : Bytes) : Prop :=
  List.Forall₂ (fun c letter => c = letter ∨ c = letter.toUpper) text (encode bytes)

theorem alphabet_cases : ∀ letter ∈ alphabet, letter ∈ chars ∧ letter.toUpper ∈ chars ∧
    Str.toAsciiLowercase [letter] = [letter] ∧ Str.toAsciiLowercase [letter.toUpper] = [letter] := by
  have h : alphabet.all fun letter => letter ∈ chars ∧ letter.toUpper ∈ chars ∧
      Str.toAsciiLowercase [letter] = [letter] ∧
        Str.toAsciiLowercase [letter.toUpper] = [letter] := by decide
  simpa using h

theorem spells_cases {text letters : Str}
    (h : List.Forall₂ (fun c letter => c = letter ∨ c = letter.toUpper) text letters)
    (hletters : ∀ letter ∈ letters, letter ∈ alphabet) :
    (∀ c ∈ text, c ∈ chars) ∧ Str.toAsciiLowercase text = letters := by
  induction h with
  | nil => exact ⟨by simp, rfl⟩
  | @cons c letter text letters hcase _ ih =>
    obtain ⟨hletter, hrest⟩ := List.forall_mem_cons.mp hletters
    obtain ⟨hchars, hlower⟩ := ih hrest
    obtain ⟨hmem, hupper, hsame, hfold⟩ := alphabet_cases letter hletter
    have hone : c ∈ chars ∧ Str.toAsciiLowercase [c] = [letter] := by
      obtain rfl | rfl := hcase
      · exact ⟨hmem, hsame⟩
      · exact ⟨hupper, hfold⟩
    refine ⟨List.forall_mem_cons.mpr ⟨hone.1, hchars⟩, ?_⟩
    have hcons : Str.toAsciiLowercase (c :: text) =
        Str.toAsciiLowercase [c] ++ Str.toAsciiLowercase text := rfl
    rw [hcons, hone.2, hlower, List.singleton_append]

theorem chars_ascii : ∀ c ∈ chars, c.toNat < 128 := by decide

theorem asBytes_of_chars {text : Str} (h : ∀ c ∈ text, c ∈ chars) :
    text.asBytes = text.map fun c => UInt8.ofNat c.toNat :=
  Str.asBytes_of_lt fun c hc => chars_ascii c (h c hc)

end Hex

namespace Inspect

/-! ### Recognizers of bytes -/

theorem mem_of_read {input rest : Bytes} {tlv : Der.Tlv} (h : Der.read input = some (tlv, rest)) :
    tlv.tag ∈ input ∧ tlv.body ⊆ input ∧ rest ⊆ input := by
  have htake (tag : UInt8) (len : ℕ) (from' : Bytes) (hfrom : from' ⊆ input) (htag : tag ∈ input)
      (hbody : Der.takeBody tag len from' = some (tlv, rest)) :
      tlv.tag ∈ input ∧ tlv.body ⊆ input ∧ rest ⊆ input := by
    rw [Der.takeBody] at hbody
    split at hbody
    · cases hbody
    · cases hbody
      exact ⟨htag, List.Subset.trans (List.take_subset _ _) hfrom,
        List.Subset.trans (List.drop_subset _ _) hfrom⟩
  unfold Der.read at h
  split at h
  next tag first after =>
    have hafter : after ⊆ tag :: first :: after := by simp
    split at h
    · exact htake tag _ after hafter (by simp) h
    · dsimp only at h
      split at h
      · cases h
      · exact htake tag _ _ (List.Subset.trans (List.drop_subset _ _) hafter) (by simp) h
  · cases h

theorem mem_of_children {body : Bytes} {parts : List Der.Tlv}
    (h : Der.children body = some parts) : ∀ t ∈ parts, t.tag ∈ body := by
  have hfuel (fuel : ℕ) (input : Bytes) (parts : List Der.Tlv)
      (hparts : Der.childrenWith fuel input = some parts) : ∀ t ∈ parts, t.tag ∈ input := by
    induction fuel generalizing input parts with
    | zero =>
      cases input with
      | nil =>
        cases hparts
        simp
      | cons b input => cases hparts
    | succ fuel ih =>
      cases input with
      | nil =>
        cases hparts
        simp
      | cons b input =>
        obtain ⟨⟨tlv, next⟩, hread, hparts⟩ := Option.bind_eq_some_iff.mp hparts
        obtain ⟨more, hmore, hparts⟩ := Option.bind_eq_some_iff.mp hparts
        cases hparts
        obtain ⟨htag, -, hrest⟩ := mem_of_read hread
        exact List.forall_mem_cons.mpr ⟨htag, fun t ht => hrest (ih next more hmore t ht)⟩
  exact hfuel _ body parts h

def asked : List UInt8 := [Der.INTEGER, Der.BIT_STRING, Der.OCTET_STRING, Der.OID]

theorem chars_told : ∀ c ∈ Hex.chars, (Str.isWhitespace c = false ∧ c ∉ separators) ∧
    UInt8.ofNat c.toNat ≠ 0x02 ∧ UInt8.ofNat c.toNat &&& 0x80 = 0 ∧ UInt8.ofNat c.toNat ∉ asked ∧
      Str.isAsciiHexdigit (UInt8.ofNat c.toNat) := by
  decide

theorem charBytes_plain : ∀ x ∈ Hex.charBytes,
    x ≠ 0x02 ∧ x &&& 0x80 = 0 ∧ x ∉ asked ∧ Str.isAsciiHexdigit x := by
  intro x hx
  obtain ⟨c, hc, rfl⟩ := List.mem_map.mp hx
  exact (chars_told c hc).2

theorem magics_foreign : ∀ pat ∈ magics, ∃ x ∈ pat, x ∉ Hex.charBytes := by
  have h : ∀ pat ∈ magics, ∃ x ∈ pat, ¬Str.isAsciiHexdigit x := by decide
  intro pat hpat
  obtain ⟨x, hx, hdigit⟩ := h pat hpat
  exact ⟨x, hx, fun hmem => hdigit (charBytes_plain x hmem).2.2.2⟩

section Bytes
variable {input : Bytes} (h : ∀ x ∈ input, x ∈ Hex.charBytes)
include h

/-- Nothing with a foreign byte in it stands in hex text. -/
theorem not_subset {pat : Bytes} (hpat : pat ∈ magics) : ¬pat ⊆ input := by
  obtain ⟨x, hx, hforeign⟩ := magics_foreign pat hpat
  exact fun hsub => hforeign (h x (hsub hx))

theorem not_starts {pat : Bytes} (hpat : pat ∈ magics) : ¬pat <+: input :=
  fun hpre => not_subset h hpat hpre.subset

theorem pkcs8P256_hex : pkcs8P256 input = none := by
  have hoid : ¬has (input.take 48) OID_P256 := fun hhas =>
    not_subset h (by simp [magics])
      (List.Subset.trans (has_eq_true.mp hhas).subset (List.take_subset _ _))
  rw [pkcs8P256, if_neg fun hall => hoid hall.2.2]

theorem derEcdsaSignature_hex : derEcdsaSignature input = none := by
  unfold derEcdsaSignature
  split
  next len rLen rest =>
    exact absurd rfl (charBytes_plain 0x02 (h 0x02 (by simp))).1
  · rfl

theorem bitlocker_hex : Files.bitlocker input = none := by
  rw [Files.bitlocker, if_neg fun hat => not_subset h (by simp [magics]) (subset_of_range hat)]

theorem tar_hex : Files.tar input = none := by
  rw [Files.tar, if_neg fun hat => not_subset h (by simp [magics]) (subset_of_range hat)]

theorem fromBinary_hex : Pgp.fromBinary input = none := by
  have hpackets : Pgp.packets input = none := by
    cases input with
    | nil => rfl
    | cons b input =>
      have hb : b &&& 0x80 = 0 := (charBytes_plain b (h b (by simp))).2.1
      rw [Pgp.packets, List.length_cons, Pgp.packetsWith, Pgp.header, if_pos hb]
      rfl
  rw [Pgp.fromBinary, hpackets]
  rfl

end Bytes

/-- Every structure asks for an element with one of those tags. -/
theorem families_none {parts : List Der.Tlv} (h : ∀ t ∈ parts, t.tag ∉ asked) :
    ∀ f ∈ Pkix.families, f parts = none := by
  have hinteger : ∀ t ∈ parts, t.tag ≠ Der.INTEGER := fun t ht heq => h t ht (by simp [asked, heq])
  have hbits : ∀ t ∈ parts, t.tag ≠ Der.BIT_STRING := fun t ht heq => h t ht (by simp [asked, heq])
  have hoctets : ∀ t ∈ parts, t.tag ≠ Der.OCTET_STRING :=
    fun t ht heq => h t ht (by simp [asked, heq])
  have hoid : ∀ t ∈ parts, t.tag ≠ Der.OID := fun t ht heq => h t ht (by simp [asked, heq])
  -- each structure in turn asks for one of the four, or for more elements
  simp only [Pkix.families, List.forall_mem_cons]
  refine ⟨?_, ?_, ?_, ?_, ?_, ?_, ?_, ?_, ?_, ?_, by simp⟩
  · unfold Pkix.certificate
    split
    · rw [if_pos (Or.inr (hbits _ (by simp)))]
    · rfl
  · unfold Pkix.request
    split
    · rw [if_pos (Or.inr (hbits _ (by simp)))]
    · rfl
  · unfold Pkix.revocationList
    split
    · rw [if_pos (Or.inr (hbits _ (by simp)))]
    · rfl
  · unfold Pkix.pkcs8
    split
    · rw [if_pos (Or.inl (hinteger _ (by simp)))]
    · rfl
  · unfold Pkix.encryptedPkcs8
    split
    · rw [if_pos (hoctets _ (by simp))]
    · rfl
  · unfold Pkix.spki
    split
    · rw [if_pos (hbits _ (by simp))]
    · rfl
  · unfold Pkix.pkcs12
    split
    · rw [if_pos (Or.inl (hinteger _ (by simp)))]
    · rfl
  · unfold Pkix.cms
    split
    · rw [if_pos (Or.inl (hoid _ (by simp)))]
    · rfl
  · unfold Pkix.sec1
    split
    · rw [if_pos (Or.inl (hinteger _ (by simp)))]
    · rfl
  · unfold Pkix.pkcs1Private
    split
    next version n rest =>
      have hany : ((version :: n :: rest).any fun t => t.tag ≠ Der.INTEGER) = true := by
        simpa using Or.inl (hinteger version (by simp))
      rw [if_pos (Or.inr (Or.inl hany))]
    · rfl

/-- In hex text every tag is a hex digit. -/
theorem fromDer_hex {input : Bytes} (h : ∀ x ∈ input, x ∈ Hex.charBytes) :
    Pkix.fromDer input = none := by
  rw [Pkix.fromDer]
  cases houter : (Der.whole input).filter fun t => t.tag = Der.SEQUENCE with
  | none => rfl
  | some outer =>
    cases hparts : Der.children outer.body with
    | none => simp [hparts]
    | some parts =>
      obtain ⟨hwhole, -⟩ := Option.filter_eq_some_iff.mp houter
      obtain ⟨⟨tlv, rest⟩, hread, htlv⟩ := Option.bind_eq_some_iff.mp hwhole
      have hbody : outer.body ⊆ input := by
        dsimp only at htlv
        split at htlv
        · cases htlv
          exact (mem_of_read hread).2.1
        · cases htlv
      have htags : ∀ t ∈ parts, t.tag ∉ asked := fun t ht =>
        (charBytes_plain _ (h _ (hbody (mem_of_children hparts t ht)))).2.2.1
      simpa [hparts] using families_none htags

theorem recognizers_hex {input : Bytes} (h : ∀ x ∈ input, x ∈ Hex.charBytes) :
    recognizers.findSome? (fun f => f input) = none := by
  rw [List.findSome?_eq_none_iff]
  simp only [recognizers, List.forall_mem_cons]
  have hstarts : ∀ pat ∈ magics, ¬pat <+: input := fun pat hpat => not_starts h hpat
  have hmagic : Files.fromMagic input = none :=
    (fromMagic_eq hstarts (bitlocker_hex h)).trans (tar_hex h)
  exact ⟨blob_none hstarts, store_none hstarts, pkcs8P256_hex h, derEcdsaSignature_hex h, hmagic,
    fromDer_hex h, fromBinary_hex h, by simp⟩

/-! ### Recognizers of text -/

theorem patterns_foreign : ∀ pat ∈ patterns, ∃ c ∈ pat.toList, c ∉ Hex.chars := by
  have h : ∀ pat ∈ patterns, ∃ c ∈ pat.toList, ¬Str.isAsciiHexdigit (UInt8.ofNat c.toNat) := by
    decide
  intro pat hpat
  obtain ⟨c, hc, hdigit⟩ := h pat hpat
  exact ⟨c, hc, fun hmem => hdigit (chars_told c hmem).2.2.2.2⟩

theorem plain_hex {text : Str} (h : ∀ c ∈ text, c ∈ Hex.chars) (hne : text ≠ []) : Plain text := by
  refine ⟨hne, fun pat hpat hpre => ?_, fun c hc => (chars_told c (h c hc)).1⟩
  obtain ⟨c, hc, hforeign⟩ := patterns_foreign pat hpat
  exact hforeign (h c (hpre.subset hc))

theorem inspectAt_hex (lib : Lib) {bytes : Bytes} (hne : bytes ≠ []) {text : Str}
    (htext : Hex.Spells text bytes) {depth : ℕ} (hdepth : depth < 2) :
    inspectAt lib text.asBytes depth = wrapped (inspectAt lib bytes (depth + 1)) "hex" := by
  obtain ⟨hchars, hlower⟩ := Hex.spells_cases htext fun letter => Hex.mem_encode
  have hlength : text.length = 2 * bytes.length := by
    rw [htext.length_eq, Hex.length_encode]
  have hbytes := Hex.asBytes_of_chars hchars
  have hcharBytes : ∀ x ∈ text.asBytes, x ∈ Hex.charBytes := by
    rw [hbytes]
    intro x hx
    obtain ⟨c, hc, rfl⟩ := List.mem_map.mp hx
    exact List.mem_map_of_mem (hchars c hc)
  have hdigits : text.asBytes.all Str.isAsciiHexdigit := by
    exact List.all_eq_true.mpr fun x hx => (charBytes_plain x (hcharBytes x hx)).2.2.2
  have hpos := List.length_pos_iff.mpr hne
  have htextne : text ≠ [] := List.length_pos_iff.mp (by omega)
  have hguard : 2 ≤ text.asBytes.length ∧ text.asBytes.all Str.isAsciiHexdigit := by
    rw [hbytes, List.length_map, ← hbytes]
    exact ⟨by omega, hdigits⟩
  have hunwrapped : unwrapped (inspectAt lib) text depth =
      some (wrapped (inspectAt lib bytes (depth + 1)) "hex") := by
    rw [unwrapped, if_pos hguard, hlower, Hex.decode_encode]
    rfl
  exact inspectAt_plain (plain_hex hchars htextne) lib (recognizers_hex hcharBytes) hdepth hunwrapped

/-- Hex text is reported as what it wraps, with a fact in front that says so. -/
theorem hex_transparent (lib : Lib) {bytes : Bytes} (hne : bytes ≠ []) {text : Str}
    (htext : Hex.Spells text bytes) {depth : ℕ} (hdepth : depth < 2) :
    (inspectAt lib text.asBytes depth).what = (inspectAt lib bytes (depth + 1)).what ∧
      (inspectAt lib text.asBytes depth).changed = (inspectAt lib bytes (depth + 1)).changed ∧
      (inspectAt lib text.asBytes depth).facts =
        ("wrapped in".toList, "hex".toList) :: (inspectAt lib bytes (depth + 1)).facts := by
  rw [inspectAt_hex lib hne htext hdepth]
  exact ⟨rfl, rfl, rfl⟩

theorem hex_transparent_sample :
    (inspectAt asciiLib (Str.asBytes "aBc0".toList) 1).what =
      (inspectAt asciiLib [0xab, 0xc0] 2).what := by
  have hspells : Hex.Spells "aBc0".toList [0xab, 0xc0] := by
    have hencode : Hex.encode [0xab, 0xc0] = ['a', 'b', 'c', '0'] := by decide
    rw [Hex.Spells, hencode]
    exact .cons (Or.inl rfl) (.cons (Or.inr rfl) (.cons (Or.inl rfl) (.cons (Or.inl rfl) .nil)))
  exact (hex_transparent asciiLib (by decide) hspells (by decide)).1

end Inspect
end Krypto
