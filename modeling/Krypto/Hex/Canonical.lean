import Krypto.Hex
import Krypto.Str

/-! One spelling per byte string: `decode` accepts what `encode` writes and
nothing else. -/

namespace Krypto.Hex
open Effect

section Encode

theorem letter_mem (n : UInt8) : letter n ∈ alphabet := List.get_mem _ _

theorem mem_encode {bytes : Bytes} {c : Char} (h : c ∈ encode bytes) : c ∈ alphabet := by
  obtain ⟨b, -, hc⟩ := List.mem_flatMap.mp h
  obtain rfl | hc := List.mem_cons.mp hc
  · exact letter_mem _
  · exact List.mem_singleton.mp hc ▸ letter_mem _

theorem alphabet_ascii : ∀ c ∈ alphabet, c.toNat < 128 := by decide

theorem asBytes_of_alphabet {s : Str} (h : ∀ c ∈ s, c ∈ alphabet) :
    s.asBytes = s.map fun c => UInt8.ofNat c.toNat :=
  Str.asBytes_of_lt fun c hc => alphabet_ascii c (h c hc)

theorem asBytes_encode (bytes : Bytes) :
    (encode bytes).asBytes = (encode bytes).map fun c => UInt8.ofNat c.toNat :=
  asBytes_of_alphabet fun _ => mem_encode

def letterByte (n : UInt8) : UInt8 := UInt8.ofNat (letter n).toNat

theorem bytes_encode_cons (b : UInt8) (bytes : Bytes) :
    (encode (b :: bytes)).asBytes =
      letterByte (b >>> 4) :: letterByte (b &&& 0x0f) :: (encode bytes).asBytes := by
  rw [asBytes_encode, asBytes_encode]
  rfl

end Encode

section Nibble

theorem nibble_letter {n : UInt8} (h : n.toNat < 16) : nibble (letterByte n) = .ok n := by
  have hcases : ∀ k : Fin 16,
      let c := letterByte (UInt8.ofNat k.val)
      (('0'.toUInt8 ≤ c ∧ c ≤ '9'.toUInt8) ∧ c - '0'.toUInt8 = UInt8.ofNat k.val) ∨
        ¬('0'.toUInt8 ≤ c ∧ c ≤ '9'.toUInt8) ∧ ('a'.toUInt8 ≤ c ∧ c ≤ 'f'.toUInt8) ∧
          c - 'a'.toUInt8 + 10 = UInt8.ofNat k.val := by decide
  have hn := hcases ⟨n.toNat, h⟩
  simp only [UInt8.ofNat_toNat] at hn
  obtain ⟨hdigit, hvalue⟩ | ⟨hdigit, hletter, hvalue⟩ := hn
  · rw [nibble, if_pos hdigit, hvalue]
  · rw [nibble, if_neg hdigit, if_pos hletter, hvalue]

theorem nibble_eq_ok {c n : UInt8} (h : nibble c = .ok n) : n.toNat < 16 ∧ c = letterByte n := by
  have hdigits : ∀ c : UInt8, '0'.toUInt8 ≤ c ∧ c ≤ '9'.toUInt8 →
      (c - '0'.toUInt8).toNat < 16 ∧ c = letterByte (c - '0'.toUInt8) := by
    apply forall_octet
    decide +kernel
  have hletters : ∀ c : UInt8, 'a'.toUInt8 ≤ c ∧ c ≤ 'f'.toUInt8 →
      (c - 'a'.toUInt8 + 10).toNat < 16 ∧ c = letterByte (c - 'a'.toUInt8 + 10) := by
    apply forall_octet
    decide +kernel
  rw [nibble] at h
  split_ifs at h with hdigit hletter
  · cases h
    exact hdigits c hdigit
  · cases h
    exact hletters c hletter

theorem halves (b : UInt8) : (b >>> 4).toNat < 16 ∧ (b &&& 0x0f).toNat < 16 ∧
    (((b >>> 4) <<< 4) ||| (b &&& 0x0f)) = b := by
  revert b
  apply forall_octet
  decide +kernel

theorem joined (hi lo : UInt8) : hi.toNat < 16 → lo.toNat < 16 →
    ((hi <<< 4) ||| lo) >>> 4 = hi ∧ ((hi <<< 4) ||| lo) &&& 0x0f = lo := by
  intro hhi hlo
  have h : ∀ m n : Fin 16,
      ((UInt8.ofNat m.val <<< 4) ||| UInt8.ofNat n.val) >>> 4 = UInt8.ofNat m.val ∧
        ((UInt8.ofNat m.val <<< 4) ||| UInt8.ofNat n.val) &&& 0x0f = UInt8.ofNat n.val := by
    decide +kernel
  have hboth := h ⟨hi.toNat, hhi⟩ ⟨lo.toNat, hlo⟩
  rwa [UInt8.ofNat_toNat, UInt8.ofNat_toNat] at hboth

end Nibble

section Decode

theorem decodePairs_encode (bytes : Bytes) : decodePairs (encode bytes).asBytes = .ok bytes := by
  induction bytes with
  | nil => rfl
  | cons b bytes ih =>
    obtain ⟨hhi, hlo, hjoin⟩ := halves b
    rw [bytes_encode_cons, decodePairs, nibble_letter hhi, Outcome.ok_bind, nibble_letter hlo,
      Outcome.ok_bind, ih, Outcome.ok_bind, hjoin, Outcome.pure_eq]

theorem length_bytes_encode (bytes : Bytes) : (encode bytes).asBytes.length = 2 * bytes.length := by
  rw [asBytes_encode, List.length_map, length_encode]

theorem decode_encode (bytes : Bytes) : decode (encode bytes) = .ok bytes := by
  have heven : ¬(encode bytes).asBytes.length % 2 ≠ 0 := by
    rw [length_bytes_encode]
    omega
  simp only [decode, if_neg heven, decodePairs_encode]

theorem decodePairs_eq_ok {input bytes : Bytes} (heven : input.length % 2 = 0)
    (h : decodePairs input = .ok bytes) : input = (encode bytes).asBytes := by
  induction input using decodePairs.induct generalizing bytes with
  | case1 c0 c1 rest ih =>
    rw [decodePairs] at h
    obtain ⟨hi, hhi, h⟩ := Outcome.bind_eq_ok.mp h
    obtain ⟨lo, hlo, h⟩ := Outcome.bind_eq_ok.mp h
    obtain ⟨more, hmore, h⟩ := Outcome.bind_eq_ok.mp h
    cases h
    obtain ⟨hhilt, rfl⟩ := nibble_eq_ok hhi
    obtain ⟨hlolt, rfl⟩ := nibble_eq_ok hlo
    obtain ⟨hhigh, hlow⟩ := joined hi lo hhilt hlolt
    have hrest : rest.length % 2 = 0 := by
      rw [List.length_cons, List.length_cons] at heven
      omega
    rw [bytes_encode_cons, hhigh, hlow, ← ih hrest hmore]
  | case2 input hshort =>
    cases input with
    | nil =>
      cases h
      rfl
    | cons c0 rest =>
      cases rest with
      | nil => cases heven
      | cons c1 rest => exact absurd rfl (hshort c0 c1 rest)

theorem decode_eq_ok {s : Str} {bytes : Bytes} : decode s = .ok bytes ↔ s = encode bytes := by
  constructor
  · intro h
    simp only [decode] at h
    split_ifs at h with heven
    exact Str.asBytes_injective (decodePairs_eq_ok (not_not.mp heven) h)
  · rintro rfl
    exact decode_encode bytes

def Settled {α : Type} (x : Outcome Error α) : Prop := (∃ a, x = .ok a) ∨ ∃ m, x = .err (.format m)

theorem Settled.bind {α β : Type} {x : Outcome Error α} {f : α → Outcome Error β} (hx : Settled x)
    (hf : ∀ a, Settled (f a)) : Settled (x >>= f) := by
  obtain ⟨a, rfl⟩ | ⟨m, rfl⟩ := hx
  · rw [Outcome.ok_bind]
    exact hf a
  · exact Or.inr ⟨m, rfl⟩

theorem settled_nibble (c : UInt8) : Settled (nibble c) := by
  unfold nibble
  split_ifs
  · exact Or.inl ⟨_, rfl⟩
  · exact Or.inl ⟨_, rfl⟩
  · exact Or.inr ⟨_, rfl⟩

theorem settled_decodePairs (input : Bytes) : Settled (decodePairs input) := by
  induction input using decodePairs.induct with
  | case1 c0 c1 rest ih =>
    rw [decodePairs]
    apply (settled_nibble c0).bind
    intro hi
    apply (settled_nibble c1).bind
    intro lo
    apply ih.bind
    intro more
    exact Or.inl ⟨_, rfl⟩
  | case2 input hshort =>
    rw [decodePairs]
    · exact Or.inl ⟨_, rfl⟩
    · exact hshort

theorem settled_decode (s : Str) : Settled (decode s) := by
  unfold decode
  dsimp only
  split_ifs
  · exact Or.inr ⟨_, rfl⟩
  · exact settled_decodePairs _

end Decode

section Canonical

def Canonical (s : Str) : Prop := s.length % 2 = 0 ∧ ∀ c ∈ s, c ∈ alphabet

theorem canonical_encode (bytes : Bytes) : Canonical (encode bytes) := by
  refine ⟨?_, fun c => mem_encode⟩
  rw [length_encode]
  omega

theorem exists_letter : ∀ c ∈ alphabet, ∃ k : Fin 16, c = letter (UInt8.ofNat k.val) := by
  decide

theorem exists_byte {c0 c1 : Char} (h0 : c0 ∈ alphabet) (h1 : c1 ∈ alphabet) :
    ∃ b : UInt8, [c0, c1] = [letter (b >>> 4), letter (b &&& 0x0f)] := by
  obtain ⟨hi, rfl⟩ := exists_letter c0 h0
  obtain ⟨lo, rfl⟩ := exists_letter c1 h1
  have hlt (k : Fin 16) : (UInt8.ofNat k.val).toNat < 16 := by
    rw [UInt8.toNat_ofNat']
    omega
  obtain ⟨hhigh, hlow⟩ := joined _ _ (hlt hi) (hlt lo)
  exact ⟨(UInt8.ofNat hi.val <<< 4) ||| UInt8.ofNat lo.val, by rw [hhigh, hlow]⟩

theorem Canonical.exists_bytes {s : Str} (h : Canonical s) : ∃ bytes, s = encode bytes := by
  obtain ⟨heven, hmem⟩ := h
  induction s using List.twoStepInduction with
  | nil => exact ⟨[], rfl⟩
  | singleton c => cases heven
  | cons_cons c0 c1 s ih =>
    simp only [List.forall_mem_cons] at hmem
    obtain ⟨h0, h1, hs⟩ := hmem
    have hrest : s.length % 2 = 0 := by
      rw [List.length_cons, List.length_cons] at heven
      omega
    obtain ⟨bytes, rfl⟩ := ih hrest hs
    obtain ⟨b, hb⟩ := exists_byte h0 h1
    have hcons : encode (b :: bytes) = [letter (b >>> 4), letter (b &&& 0x0f)] ++ encode bytes := rfl
    exact ⟨b :: bytes, by rw [hcons, ← hb]; rfl⟩

theorem decodes_iff {s : Str} : (∃ bytes, decode s = .ok bytes) ↔ Canonical s := by
  constructor
  · rintro ⟨bytes, h⟩
    rw [decode_eq_ok.mp h]
    exact canonical_encode bytes
  · intro h
    obtain ⟨bytes, rfl⟩ := h.exists_bytes
    exact ⟨bytes, decode_encode bytes⟩

theorem decode_refuses {s : Str} (h : ¬Canonical s) : ∃ m, decode s = .err (.format m) := by
  obtain hok | hformat := settled_decode s
  · exact absurd (decodes_iff.mp hok) h
  · exact hformat

theorem alphabet_plain : ∀ c ∈ alphabet, c.isUpper = false ∧ Str.isWhitespace c = false ∧
    (String.utf8EncodeChar c).length = 1 := by
  decide

/-- Wherever an upper-case letter, a space or a character of several bytes stands. -/
theorem decode_refuses_at (before after : Str) {c : Char}
    (hc : c.isUpper ∨ Str.isWhitespace c ∨ 1 < (String.utf8EncodeChar c).length) :
    ∃ m, decode (before ++ c :: after) = .err (.format m) := by
  apply decode_refuses
  intro h
  obtain ⟨hupper, hspace, hone⟩ := alphabet_plain c (h.2 c (by simp))
  simp [hupper, hspace, hone] at hc

/-- Decoding and encoding are inverse to each other: the strings of an even number of lowercase
digits are accepted, each as bytes of its own, and all others refused. -/
theorem hex_canonical :
    (∀ bytes, decode (encode bytes) = .ok bytes) ∧
    (∀ s bytes, decode s = .ok bytes → s = encode bytes) ∧
    (∀ s t bytes, decode s = .ok bytes → decode t = .ok bytes → s = t) ∧
    (∀ s, (∃ bytes, decode s = .ok bytes) ↔ s.length % 2 = 0 ∧ ∀ c ∈ s, c ∈ "0123456789abcdef".toList) ∧
    (∀ s, (¬∃ bytes, decode s = .ok bytes) → ∃ m, decode s = .err (.format m)) ∧
    ∀ (before after : Str) (c : Char),
      c.isUpper ∨ Str.isWhitespace c ∨ 1 < (String.utf8EncodeChar c).length →
        ∃ m, decode (before ++ c :: after) = .err (.format m) := by
  refine ⟨decode_encode, fun s bytes h => decode_eq_ok.mp h, ?_, fun s => decodes_iff, ?_, ?_⟩
  · intro s t bytes hs ht
    rw [decode_eq_ok.mp hs, decode_eq_ok.mp ht]
  · intro s h
    exact decode_refuses fun hcanonical => h (decodes_iff.mpr hcanonical)
  · intro before after c hc
    exact decode_refuses_at before after hc

end Canonical

end Krypto.Hex
