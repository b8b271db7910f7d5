import Krypto.Base64.Digits

/-! One spelling per byte string, padded or not: the decoders accept the
encoders' images and nothing else. -/

namespace Krypto.Base64
open Effect Radix

section Body

theorem byteValues_lt (bytes : Bytes) : ∀ d ∈ byteValues bytes, d < 256 := by
  intro d hd
  obtain ⟨b, -, rfl⟩ := List.mem_map.mp hd
  exact b.toNat_lt

theorem byteValues_inj {xs ys : Bytes} (hlen : xs.length = ys.length)
    (h : value 256 (byteValues xs) = value 256 (byteValues ys)) : xs = ys := by
  have hvals : byteValues xs = byteValues ys := value_inj (by decide) (by simpa [byteValues])
    (byteValues_lt xs) (byteValues_lt ys) h
  exact List.map_injective_iff.mpr (fun a b => UInt8.toNat_inj.mp) hvals

theorem spare_lt (bytes : Bytes) : spare bytes < 6 := Nat.mod_lt _ (by decide)

theorem decodeBody_digits (bytes : Bytes) :
    decodeBody ((digits bytes).map letterOf) = .ok bytes := by
  obtain ⟨r, hread, h⟩ := read_letters (digits_lt bytes)
  have hlen := h.length
  have hbits := h.nbits
  have hspare := spare_lt bytes
  rw [length_digits] at hlen
  have hsame : spare bytes = r.nbits.toNat := by omega
  have hval := h.spells
  rw [value_digits, hsame] at hval
  have hacc : r.acc.toNat = 0 := by
    have hmod := congrArg (· % 2 ^ r.nbits.toNat) hval
    simpa [Nat.mul_mod_left, Nat.mul_add_mod_self_right, Nat.mod_eq_of_lt h.acc] using hmod.symm
  have hout : bytes = r.out := by
    apply byteValues_inj (by omega)
    rw [hacc, Nat.add_zero] at hval
    exact Nat.eq_of_mul_eq_mul_right (by positivity) hval
  have hzero : r.acc = 0 := UInt32.toNat_inj.mp hacc
  rw [decodeBody, asBytes_letters (digits_lt bytes), hread]
  simp [hzero, hout]

/-- Letters that leave no bit set spell the bytes they were read as. -/
theorem Reader.Holds.digits {r : Reader} {ds : List ℕ} (h : r.Holds ds) (hlt : ∀ d ∈ ds, d < 64)
    (hlen : ds.length % 4 ≠ 1) (hacc : r.acc.toNat = 0) : ds = digits r.out := by
  have hval := h.spells
  have hl := h.length
  have hbits := h.nbits
  have hdl := length_digits r.out
  have hspare := spare_lt r.out
  have heven : r.nbits.toNat = 0 ∨ r.nbits.toNat = 2 ∨ r.nbits.toNat = 4 := by omega
  have hsame : r.nbits.toNat = spare r.out := by
    rcases heven with heven | heven | heven <;> omega
  have hcount : ds.length = (Base64.digits r.out).length := by omega
  rw [hacc, hsame, Nat.add_zero, ← value_digits] at hval
  exact value_inj (by decide) hcount hlt (digits_lt r.out) hval

theorem decodeBody_ok {s : Str} {bytes : Bytes} (hlen : s.asBytes.length % 4 ≠ 1)
    (h : decodeBody s = .ok bytes) : s = (digits bytes).map letterOf := by
  rcases read_cases s.asBytes with ⟨ds, hlt, hs⟩ | ⟨m, hm⟩
  · obtain ⟨r, hread, hr⟩ := read_letters hlt
    rw [← asBytes_letters hlt] at hs
    have hs := Str.asBytes_injective hs
    subst hs
    rw [asBytes_letters hlt] at hlen
    rw [decodeBody, asBytes_letters hlt, hread, Outcome.ok_bind] at h
    split at h
    · cases h
    · rename_i hzero
      cases h
      have hacc : r.acc.toNat = 0 := by
        have hlast := hr.acc
        by_contra hne
        apply hzero
        refine ⟨?_, fun heq => hne (by rw [heq]; rfl)⟩
        rw [UInt32.lt_iff_toNat_lt, UInt32.toNat_zero]
        by_contra hnone
        rw [Nat.eq_zero_of_not_pos hnone] at hlast
        omega
      rw [List.length_map] at hlen
      exact congrArg _ (hr.digits hlt hlen hacc)
  · rw [decodeBody, hm] at h
    cases h

theorem decodeBody_cases (s : Str) :
    (∃ bytes, decodeBody s = .ok bytes) ∨ ∃ m, decodeBody s = .err (.format m) := by
  rcases read_cases s.asBytes with ⟨ds, hlt, hs⟩ | ⟨m, hm⟩
  · obtain ⟨r, hread, -⟩ := read_letters hlt
    rw [decodeBody, hs, hread, Outcome.ok_bind]
    split
    · exact .inr ⟨_, rfl⟩
    · exact .inl ⟨_, rfl⟩
  · exact .inr ⟨m, by rw [decodeBody, hm, Outcome.err_bind]⟩

end Body
section Padding

theorem letterOf_ne_pad : ∀ d : Fin 64, letterOf d ≠ '=' := by decide +kernel

theorem pad_not_mem {ds : List ℕ} (h : ∀ d ∈ ds, d < 64) : '=' ∉ ds.map letterOf := by
  intro hmem
  obtain ⟨d, hd, heq⟩ := List.mem_map.mp hmem
  exact letterOf_ne_pad ⟨d, h d hd⟩ heq

theorem trimPad_append {body : Str} (h : '=' ∉ body) (n : ℕ) :
    trimPad (body ++ List.replicate n '=') = body := by
  induction n with
  | zero =>
    rw [List.replicate_zero, List.append_nil, trimPad, List.rdropWhile_eq_self_iff]
    intro hne hlast
    have hlast : body.getLast hne = '=' := by simpa using hlast
    exact h (hlast ▸ List.getLast_mem hne)
  | succ n ih =>
    rw [List.replicate_succ', ← List.append_assoc, trimPad, List.rdropWhile_concat_pos _ _ _ (by simp)]
    exact ih

theorem trimPad_spec (s : Str) : ∃ n, s = trimPad s ++ List.replicate n '=' := by
  induction s using List.reverseRecOn with
  | nil => exact ⟨0, rfl⟩
  | append_singleton s c ih =>
    by_cases hc : c = '='
    · obtain ⟨n, hn⟩ := ih
      refine ⟨n + 1, ?_⟩
      have htrim : trimPad (s ++ [c]) = trimPad s :=
        List.rdropWhile_concat_pos _ _ _ (by simpa using hc)
      rw [htrim, List.replicate_succ', ← List.append_assoc, ← hn, hc]
    · refine ⟨0, ?_⟩
      have htrim : trimPad (s ++ [c]) = s ++ [c] :=
        List.rdropWhile_concat_neg _ _ _ (by simpa using hc)
      rw [htrim, List.replicate_zero, List.append_nil]

theorem length_asBytes_pad (body : Str) (n : ℕ) :
    (Str.asBytes (body ++ List.replicate n '=')).length = body.asBytes.length + n := by
  have hone : String.utf8EncodeChar '=' = ['='.toUInt8] := by decide
  have hpad : (Str.asBytes (List.replicate n '=')).length = n := by
    simp [Str.asBytes, List.flatMap_replicate, hone]
  rw [Str.asBytes, List.flatMap_append, List.length_append]
  exact congrArg _ hpad

theorem decode_padded {body : Str} (h : '=' ∉ body) {n : ℕ} (hn : n ≤ 2)
    (hlen : (body.asBytes.length + n) % 4 = 0) :
    decode (body ++ List.replicate n '=') = decodeBody body := by
  have hpad := length_asBytes_pad body n
  rw [decode]
  simp only [trimPad_append h, hpad]
  rw [if_neg (by omega), if_neg (by omega)]

theorem decode_ok {s : Str} {bytes : Bytes} (h : decode s = .ok bytes) :
    ∃ body n, s = body ++ List.replicate n '=' ∧ n ≤ 2 ∧ (body.asBytes.length + n) % 4 = 0 ∧
      decodeBody body = .ok bytes := by
  obtain ⟨n, hn⟩ := trimPad_spec s
  have hpad := length_asBytes_pad (trimPad s) n
  rw [← hn] at hpad
  rw [decode] at h
  simp only [ne_eq, ite_not] at h
  split at h
  · rename_i hmod
    split at h
    · cases h
    · rename_i hle
      exact ⟨trimPad s, n, hn, by omega, by omega, h⟩
  · cases h

end Padding
section Spelling

/-- `enc` gives the one spelling that `dec` accepts, and everything else is named as malformed. -/
structure Canonical (enc : Bytes → Str) (dec : Str → Outcome Error Bytes) : Prop where
  round : ∀ bytes, dec (enc bytes) = .ok bytes
  only : ∀ s bytes, dec s = .ok bytes → s = enc bytes
  injective : ∀ s t bytes, dec s = .ok bytes → dec t = .ok bytes → s = t
  accepts : ∀ s, (∃ bytes, dec s = .ok bytes) ↔ s ∈ Set.range enc
  refuses : ∀ s, s ∉ Set.range enc → ∃ m, dec s = .err (.format m)

theorem Canonical.of {enc : Bytes → Str} {dec : Str → Outcome Error Bytes}
    (round : ∀ bytes, dec (enc bytes) = .ok bytes)
    (only : ∀ s bytes, dec s = .ok bytes → s = enc bytes)
    (total : ∀ s, (∃ bytes, dec s = .ok bytes) ∨ ∃ m, dec s = .err (.format m)) :
    Canonical enc dec where
  round := round
  only := only
  injective s t bytes hs ht := by rw [only s bytes hs, only t bytes ht]
  accepts s := by
    constructor
    · rintro ⟨bytes, h⟩
      exact ⟨bytes, (only s bytes h).symm⟩
    · rintro ⟨bytes, rfl⟩
      exact ⟨bytes, round bytes⟩
  refuses s hs := by
    apply (total s).resolve_left
    rintro ⟨bytes, h⟩
    exact hs ⟨bytes, (only s bytes h).symm⟩

theorem decode_cases (s : Str) :
    (∃ bytes, decode s = .ok bytes) ∨ ∃ m, decode s = .err (.format m) := by
  simp only [decode]
  split
  · exact .inr ⟨_, rfl⟩
  · split
    · exact .inr ⟨_, rfl⟩
    · exact decodeBody_cases _

theorem decodeNopad_cases (s : Str) :
    (∃ bytes, decodeNopad s = .ok bytes) ∨ ∃ m, decodeNopad s = .err (.format m) := by
  simp only [decodeNopad]
  split
  · exact .inr ⟨_, rfl⟩
  · split
    · exact .inr ⟨_, rfl⟩
    · exact decodeBody_cases _

theorem length_letters {ds : List ℕ} (h : ∀ d ∈ ds, d < 64) :
    (Str.asBytes (ds.map letterOf)).length = ds.length := by
  rw [asBytes_letters h, List.length_map]

theorem encodeNopad_eq (bytes : Bytes) : encodeNopad bytes = (digits bytes).map letterOf := by
  rw [encodeNopad, encode_eq, trimPad_append (pad_not_mem (digits_lt bytes))]

theorem length_digits_mod (bytes : Bytes) : (digits bytes).length % 4 ≠ 1 ∧
    ((digits bytes).length + (3 - bytes.length % 3) % 3) % 4 = 0 := by
  have hlen := length_digits bytes
  rw [spare] at hlen
  have hthree : bytes.length % 3 = 0 ∨ bytes.length % 3 = 1 ∨ bytes.length % 3 = 2 := by omega
  rcases hthree with h | h | h <;> rw [h] at hlen ⊢ <;> omega

theorem canonical_padded : Canonical encode decode := by
  apply Canonical.of _ _ decode_cases
  · intro bytes
    have hlt := digits_lt bytes
    rw [encode_eq, decode_padded (pad_not_mem hlt) (by omega)]
    · exact decodeBody_digits bytes
    · rw [length_letters hlt]
      exact (length_digits_mod bytes).2
  · intro s bytes h
    obtain ⟨body, n, rfl, hn, hlen, hbody⟩ := decode_ok h
    have heq := decodeBody_ok (by omega) hbody
    subst heq
    rw [length_letters (digits_lt bytes)] at hlen
    have hmod := (length_digits_mod bytes).2
    have hpad : n = (3 - bytes.length % 3) % 3 := by omega
    rw [encode_eq, hpad]

theorem canonical_nopad : Canonical encodeNopad decodeNopad := by
  apply Canonical.of _ _ decodeNopad_cases
  · intro bytes
    have hlt := digits_lt bytes
    rw [encodeNopad_eq, decodeNopad, if_neg (pad_not_mem hlt), length_letters hlt,
      if_neg (length_digits_mod bytes).1]
    exact decodeBody_digits bytes
  · intro s bytes h
    rw [decodeNopad] at h
    split at h
    · cases h
    · split at h
      · cases h
      · rename_i hmod
        rw [encodeNopad_eq]
        exact decodeBody_ok hmod h

/-- Values of letters that spell whole bytes: a possible length, and no bit set among
those that are thrown away. -/
structure Spells (ds : List ℕ) : Prop where
  sextets : ∀ d ∈ ds, d < 64
  length : ds.length % 4 ≠ 1
  discarded : 2 ^ (6 * ds.length % 8) ∣ value 64 ds

theorem digits_spells (bytes : Bytes) : Spells (digits bytes) where
  sextets := digits_lt bytes
  length := (length_digits_mod bytes).1
  discarded := by
    have hspare := spare_lt bytes
    have hbits : 6 * (digits bytes).length % 8 = spare bytes := by
      rw [length_digits]
      omega
    rw [hbits, value_digits]
    exact Dvd.intro_left _ rfl

theorem Spells.digits {ds : List ℕ} (h : Spells ds) : ∃ bytes, ds = digits bytes := by
  obtain ⟨r, hread, hr⟩ := read_letters h.sextets
  have hlen := hr.length
  have hbits := hr.nbits
  have hdrop : 6 * ds.length % 8 = r.nbits.toNat := by omega
  have hacc : r.acc.toNat = 0 := by
    have hdvd := h.discarded
    rw [hdrop, hr.spells, Nat.dvd_add_right (Dvd.intro_left _ rfl)] at hdvd
    exact Nat.eq_zero_of_dvd_of_lt hdvd hr.acc
  exact ⟨r.out, hr.digits h.sextets h.length hacc⟩

theorem decode_accepts (s : Str) : (∃ bytes, decode s = .ok bytes) ↔
    ∃ ds, Spells ds ∧
      s = ds.map letterOf ++ List.replicate ((4 - ds.length % 4) % 4) '=' := by
  have hpad : ∀ bytes : Bytes,
      (4 - (digits bytes).length % 4) % 4 = (3 - bytes.length % 3) % 3 := by
    intro bytes
    have hmod := length_digits_mod bytes
    omega
  rw [canonical_padded.accepts]
  constructor
  · rintro ⟨bytes, rfl⟩
    exact ⟨digits bytes, digits_spells bytes, by rw [encode_eq, hpad]⟩
  · rintro ⟨ds, hds, rfl⟩
    obtain ⟨bytes, rfl⟩ := hds.digits
    exact ⟨bytes, by rw [encode_eq, hpad]⟩

theorem decodeNopad_accepts (s : Str) : (∃ bytes, decodeNopad s = .ok bytes) ↔
    ∃ ds, Spells ds ∧ s = ds.map letterOf := by
  rw [canonical_nopad.accepts]
  constructor
  · rintro ⟨bytes, rfl⟩
    exact ⟨digits bytes, digits_spells bytes, encodeNopad_eq bytes⟩
  · rintro ⟨ds, hds, rfl⟩
    obtain ⟨bytes, rfl⟩ := hds.digits
    exact ⟨bytes, encodeNopad_eq bytes⟩

/-- No bit of the accumulator is shifted out by the next letter, and the byte it
completes fits. -/
structure Reader.Roomy (r : Reader) : Prop where
  shift : r.acc.toNat * 64 + 63 < 2 ^ 32
  count : r.nbits.toNat + 6 < 2 ^ 32
  byte : (r.acc.toNat * 64 + 63) / 2 ^ (r.nbits.toNat + 6 - 8) < 256

theorem read_ne_panic (bytes : Bytes) : read bytes ≠ .panic := by
  rcases read_cases bytes with ⟨ds, hlt, rfl⟩ | ⟨m, hm⟩
  · obtain ⟨r, hread, -⟩ := read_letters hlt
    simp [hread]
  · simp [hm]

theorem read_roomy {bytes : Bytes} {r : Reader} (h : read bytes = .ok r) : r.Roomy := by
  rcases read_cases bytes with ⟨ds, hlt, rfl⟩ | ⟨m, hm⟩
  · obtain ⟨r', hread, hr⟩ := read_letters hlt
    rw [hread] at h
    cases h
    have hacc := hr.acc
    have hbits := hr.nbits
    have hsmall : 2 ^ r.nbits.toNat ≤ 2 ^ 7 := Nat.pow_le_pow_right (by decide) (by omega)
    refine ⟨by omega, by omega, ?_⟩
    apply Nat.div_lt_of_lt_mul
    have hscale : 2 ^ (r.nbits.toNat + 6) ≤ 2 ^ (r.nbits.toNat + 6 - 8) * 256 := by
      rw [show 256 = 2 ^ 8 from rfl, ← pow_add]
      exact Nat.pow_le_pow_right (by decide) (by omega)
    rw [pow_add] at hscale
    omega
  · rw [hm] at h
    cases h

/-- Both forms of base64 have one spelling for each byte string, the decoders accept
exactly what spells whole bytes, and the accumulator never overflows. -/
theorem one_spelling :
    Canonical encode decode ∧ Canonical encodeNopad decodeNopad ∧
      (∀ s, (∃ bytes, decode s = .ok bytes) ↔ ∃ ds, Spells ds ∧
        s = ds.map letterOf ++ List.replicate ((4 - ds.length % 4) % 4) '=') ∧
      (∀ s, (∃ bytes, decodeNopad s = .ok bytes) ↔ ∃ ds, Spells ds ∧ s = ds.map letterOf) ∧
      ∀ bytes, read bytes ≠ .panic ∧ ∀ r, read bytes = .ok r → r.Roomy :=
  ⟨canonical_padded, canonical_nopad, decode_accepts, decodeNopad_accepts,
    fun bytes => ⟨read_ne_panic bytes, fun _ h => read_roomy h⟩⟩

end Spelling
end Krypto.Base64
