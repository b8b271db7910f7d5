import Krypto.Base64
import Krypto.Radix
import Mathlib.Tactic.Ring

/-! Encoder and decoder through the number they spell: base 256 on one side,
base 64 on the other, with the padding bits as a power of two between them. -/

namespace Krypto.Base64
open Effect Radix

def letterOf (d : ℕ) : Char := letter (UInt32.ofNat d)

def letterByte (d : ℕ) : UInt8 := (letterOf d).toUInt8

def digits : Bytes → List ℕ
  | [] => []
  | [b0] => [b0.toNat / 4, b0.toNat % 4 * 16]
  | [b0, b1] => [b0.toNat / 4, b0.toNat % 4 * 16 + b1.toNat / 16, b1.toNat % 16 * 4]
  | b0 :: b1 :: b2 :: rest => b0.toNat / 4 :: (b0.toNat % 4 * 16 + b1.toNat / 16) ::
      (b1.toNat % 16 * 4 + b2.toNat / 64) :: b2.toNat % 64 :: digits rest

def byteValues (bytes : Bytes) : List ℕ := bytes.map UInt8.toNat

def spare (bytes : Bytes) : ℕ := bytes.length % 3 * 4 % 6

section Digits

theorem toNat_ofNat {k : ℕ} (h : k < 64) : (UInt32.ofNat k).toNat = k :=
  UInt32.toNat_ofNat_of_lt (h.trans (by decide))

theorem letter_of_mod {a b : UInt32} (h : a.toNat % 64 = b.toNat % 64) : letter a = letter b := by
  have hmask : ∀ n : UInt32, (n &&& 63).toNat = n.toNat % 64 := fun n => by
    rw [UInt32.toNat_and]
    exact Nat.and_two_pow_sub_one_eq_mod n.toNat 6
  simp only [letter, hmask, h]

theorem toNat_or_shift {a b : UInt32} {k : ℕ} (hk : k < 32) (ha : a.toNat * 2 ^ k < 2 ^ 32)
    (hb : b.toNat < 2 ^ k) :
    ((a <<< UInt32.ofNat k) ||| b).toNat = a.toNat * 2 ^ k + b.toNat := by
  rw [UInt32.toNat_or, UInt32.toNat_shiftLeft, toNat_ofNat (by omega), Nat.mod_eq_of_lt hk,
    Nat.shiftLeft_eq, Nat.mod_eq_of_lt ha, ← Nat.shiftLeft_eq, Nat.shiftLeft_add_eq_or_of_lt hb]

theorem toNat_shift (n : UInt32) {k : ℕ} (hk : k < 32) :
    (n >>> UInt32.ofNat k).toNat = n.toNat / 2 ^ k := by
  rw [UInt32.toNat_shiftRight, toNat_ofNat (by omega), Nat.mod_eq_of_lt hk, Nat.shiftRight_eq_div_pow]

theorem letter_shift {n : UInt32} {k d : ℕ} (hk : k < 32) (h : n.toNat / 2 ^ k % 64 = d) :
    letter (n >>> UInt32.ofNat k) = letterOf d := by
  have hd : d < 64 := by omega
  apply letter_of_mod
  rw [toNat_shift n hk, h, toNat_ofNat hd, Nat.mod_eq_of_lt hd]

theorem toNat_chunk (b0 b1 b2 : UInt8) :
    ((b0.toUInt32 <<< 16) ||| (b1.toUInt32 <<< 8) ||| b2.toUInt32).toNat =
      b0.toNat * 65536 + b1.toNat * 256 + b2.toNat := by
  have h0 := b0.toNat_lt
  have h1 := b1.toNat_lt
  have h2 := b2.toNat_lt
  have hlow : ((b1.toUInt32 <<< 8) ||| b2.toUInt32).toNat = b1.toNat * 256 + b2.toNat :=
    toNat_or_shift (k := 8) (by decide) (by simp; omega) (by simp; omega)
  have hall : ((b0.toUInt32 <<< 16) ||| ((b1.toUInt32 <<< 8) ||| b2.toUInt32)).toNat =
      b0.toNat * 65536 + ((b1.toUInt32 <<< 8) ||| b2.toUInt32).toNat :=
    toNat_or_shift (k := 16) (by decide) (by simp; omega) (by rw [hlow]; omega)
  rw [UInt32.or_assoc, hall, hlow, Nat.add_assoc]

theorem encodeChunk_eq (b0 : UInt8) (b1 b2 : Option UInt8) :
    encodeChunk b0 b1 b2 = [letterOf (b0.toNat / 4),
      letterOf (b0.toNat % 4 * 16 + (b1.getD 0).toNat / 16),
      if b1.isSome then letterOf ((b1.getD 0).toNat % 16 * 4 + (b2.getD 0).toNat / 64) else '=',
      if b2.isSome then letterOf ((b2.getD 0).toNat % 64) else '='] := by
  have hn := toNat_chunk b0 (b1.getD 0) (b2.getD 0)
  have h0 := b0.toNat_lt
  have h1 := (b1.getD 0).toNat_lt
  have h2 := (b2.getD 0).toNat_lt
  simp only [encodeChunk]
  generalize (b0.toUInt32 <<< 16) ||| ((b1.getD 0).toUInt32 <<< 8) ||| (b2.getD 0).toUInt32 = n
    at hn ⊢
  have hfirst : letter (n >>> 18) = letterOf (b0.toNat / 4) :=
    letter_shift (k := 18) (by decide) (by omega)
  have hsecond : letter (n >>> 12) = letterOf (b0.toNat % 4 * 16 + (b1.getD 0).toNat / 16) :=
    letter_shift (k := 12) (by decide) (by omega)
  have hthird : letter (n >>> 6) =
      letterOf ((b1.getD 0).toNat % 16 * 4 + (b2.getD 0).toNat / 64) :=
    letter_shift (k := 6) (by decide) (by omega)
  have hlast : letter n = letterOf ((b2.getD 0).toNat % 64) := by
    have h := letter_shift (n := n) (k := 0) (d := (b2.getD 0).toNat % 64) (by decide) (by omega)
    simpa using h
  rw [hfirst, hsecond, hthird, hlast]

theorem encode_eq (bytes : Bytes) :
    encode bytes =
      (digits bytes).map letterOf ++ List.replicate ((3 - bytes.length % 3) % 3) '=' := by
  induction bytes using digits.induct with
  | case1 => rfl
  | case2 b0 => simp [encode, encodeChunk_eq, digits]
  | case3 b0 b1 => simp [encode, encodeChunk_eq, digits]
  | case4 b0 b1 b2 rest ih =>
    have hpad : (3 - (b0 :: b1 :: b2 :: rest).length % 3) % 3 = (3 - rest.length % 3) % 3 := by
      simp only [List.length_cons]
      omega
    rw [encode, encodeChunk_eq, digits, ih, hpad]
    simp

theorem digits_lt (bytes : Bytes) : ∀ d ∈ digits bytes, d < 64 := by
  induction bytes using digits.induct with
  | case1 => simp [digits]
  | case2 b0 =>
    have h0 := b0.toNat_lt
    simp [digits]
    omega
  | case3 b0 b1 =>
    have h0 := b0.toNat_lt
    have h1 := b1.toNat_lt
    simp [digits]
    omega
  | case4 b0 b1 b2 rest ih =>
    have h0 := b0.toNat_lt
    have h1 := b1.toNat_lt
    have h2 := b2.toNat_lt
    simp only [digits, List.forall_mem_cons]
    exact ⟨by omega, by omega, by omega, by omega, ih⟩

theorem length_digits (bytes : Bytes) :
    6 * (digits bytes).length = 8 * bytes.length + spare bytes := by
  induction bytes using digits.induct with
  | case1 => rfl
  | case2 b0 => simp [digits, spare]
  | case3 b0 b1 => simp [digits, spare]
  | case4 b0 b1 b2 rest ih =>
    simp only [spare, digits, List.length_cons] at ih ⊢
    omega

/-- The letters spell the number the bytes spell, shifted by the spare bits. -/
theorem value_digits (bytes : Bytes) :
    value 64 (digits bytes) = value 256 (byteValues bytes) * 2 ^ spare bytes := by
  induction bytes using digits.induct with
  | case1 => rfl
  | case2 b0 =>
    simp [digits, byteValues, spare, value_cons]
    omega
  | case3 b0 b1 =>
    simp [digits, byteValues, spare, value_cons]
    omega
  | case4 b0 b1 b2 rest ih =>
    have hspare : spare (b0 :: b1 :: b2 :: rest) = spare rest := by
      simp only [spare, List.length_cons]
      omega
    have hscale : (64 : ℕ) ^ (digits rest).length = 256 ^ rest.length * 2 ^ spare rest := by
      rw [show (64 : ℕ) = 2 ^ 6 from rfl, show (256 : ℕ) = 2 ^ 8 from rfl, ← pow_mul, ← pow_mul,
        length_digits, pow_add]
    have hchunk : value 64 [b0.toNat / 4, b0.toNat % 4 * 16 + b1.toNat / 16,
        b1.toNat % 16 * 4 + b2.toNat / 64, b2.toNat % 64] =
          value 256 [b0.toNat, b1.toNat, b2.toNat] := by
      simp [value_cons]
      omega
    have hleft := value_append 64 [b0.toNat / 4, b0.toNat % 4 * 16 + b1.toNat / 16,
      b1.toNat % 16 * 4 + b2.toNat / 64, b2.toNat % 64] (digits rest)
    have hright := value_append 256 [b0.toNat, b1.toNat, b2.toNat] (byteValues rest)
    simp only [List.cons_append, List.nil_append] at hleft hright
    rw [digits, hleft, hchunk, hscale, ih, hspare]
    simp only [byteValues, List.map_cons] at hright ⊢
    rw [hright, List.length_map]
    ring

end Digits

section Reading

/-- Reading `ds` has written the bytes of `r` and keeps the bits that are left. -/
structure Reader.Holds (r : Reader) (ds : List ℕ) : Prop where
  spells : value 64 ds = value 256 (byteValues r.out) * 2 ^ r.nbits.toNat + r.acc.toNat
  length : 6 * ds.length = 8 * r.out.length + r.nbits.toNat
  nbits : r.nbits.toNat < 8
  acc : r.acc.toNat < 2 ^ r.nbits.toNat

theorem Reader.start_holds : Reader.start.Holds [] where
  spells := rfl
  length := rfl
  nbits := by decide
  acc := by decide

theorem utf8_letterOf : ∀ d : Fin 64, String.utf8EncodeChar (letterOf d) = [letterByte d] := by
  decide +kernel

theorem sextet_letterByte : ∀ d : Fin 64, sextet (letterByte d) = .ok (UInt8.ofNat d) := by
  decide +kernel

def isSextet (c : UInt8) : Outcome Error UInt8 → Bool
  | .ok d => decide (d.toNat < 64 ∧ c = letterByte d.toNat)
  | .err (.format _) => true
  | _ => false

theorem sextet_cases (c : UInt8) :
    (∃ d < 64, c = letterByte d) ∨ ∃ m, sextet c = .err (.format m) := by
  -- the value is computed once for each byte, and its letter looked up
  have hall : ∀ c : Fin 256, isSextet (UInt8.ofNat c) (sextet (UInt8.ofNat c)) = true := by
    decide +kernel
  have hc := hall ⟨c.toNat, c.toNat_lt⟩
  simp only [UInt8.ofNat_toNat] at hc
  unfold isSextet at hc
  split at hc
  next d hd => exact .inl ⟨d.toNat, of_decide_eq_true hc⟩
  next m hm => exact .inr ⟨m, hm⟩
  · cases hc

theorem asBytes_letters {ds : List ℕ} (h : ∀ d ∈ ds, d < 64) :
    Str.asBytes (ds.map letterOf) = ds.map letterByte := by
  induction ds with
  | nil => rfl
  | cons d ds ih =>
    rw [List.forall_mem_cons] at h
    have hhead := utf8_letterOf ⟨d, h.1⟩
    have htail := ih h.2
    simp only [Str.asBytes] at htail
    simp [Str.asBytes, hhead, htail]

theorem Reader.Holds.push {r : Reader} {ds : List ℕ} (h : r.Holds ds) {v : UInt8}
    (hv : v.toNat < 64) :
    ((r.acc <<< 6) ||| v.toUInt32).toNat = r.acc.toNat * 64 + v.toNat := by
  have hacc : r.acc.toNat < 2 ^ 8 :=
    h.acc.trans_le (Nat.pow_le_pow_right (by decide) h.nbits.le)
  exact toNat_or_shift (k := 6) (by decide) (by omega) (by simpa using hv)

theorem toNat_mask {k : UInt32} (hk : k.toNat < 8) :
    (u32Shl 1 k : Outcome Error UInt32) = .ok (1 <<< k) ∧
      (u32Sub (1 <<< k) 1 : Outcome Error UInt32) = .ok ((1 <<< k) - 1) ∧
      ∀ a : UInt32, (a &&& ((1 <<< k) - 1)).toNat = a.toNat % 2 ^ k.toNat := by
  have hpow : 2 ^ k.toNat < 2 ^ 32 := Nat.pow_lt_pow_right (by decide) (by omega)
  have hone : (1 <<< k : UInt32).toNat = 2 ^ k.toNat := by
    rw [UInt32.toNat_shiftLeft, Nat.mod_eq_of_lt (show k.toNat < 32 by omega), Nat.shiftLeft_eq,
      UInt32.toNat_one, Nat.one_mul, Nat.mod_eq_of_lt hpow]
  have hle : (1 : UInt32) ≤ 1 <<< k := by
    rw [UInt32.le_iff_toNat_le, hone]
    exact Nat.one_le_two_pow
  refine ⟨if_pos ?_, if_pos hle, fun a => ?_⟩
  · rw [UInt32.lt_iff_toNat_lt]
    exact hk.trans (by decide)
  · rw [UInt32.toNat_and, UInt32.toNat_sub_of_le _ _ hle, hone]
    exact Nat.and_two_pow_sub_one_eq_mod a.toNat k.toNat

theorem Reader.feed_keep {r : Reader} {d : ℕ} (hd : d < 64) (hbits : r.nbits.toNat < 2) :
    r.feed (letterByte d) = .ok { r with
      acc := (r.acc <<< 6) ||| (UInt8.ofNat d).toUInt32, nbits := r.nbits + 6 } := by
  have hadd : (u32Add r.nbits 6 : Outcome Error UInt32) = .ok (r.nbits + 6) :=
    if_pos (by simp; omega)
  have hless : ¬ 8 ≤ r.nbits + 6 := by
    rw [UInt32.le_iff_toNat_le, UInt32.toNat_add]
    simp
    omega
  rw [Reader.feed, sextet_letterByte ⟨d, hd⟩]
  simp only [Outcome.ok_bind, hadd, if_neg hless]
  rfl

theorem Reader.feed_write {r : Reader} {d : ℕ} (hd : d < 64) (hlow : 2 ≤ r.nbits.toNat)
    (hbits : r.nbits.toNat < 8) :
    ∃ k : UInt32, k.toNat = r.nbits.toNat - 2 ∧ r.feed (letterByte d) = .ok {
      acc := ((r.acc <<< 6) ||| (UInt8.ofNat d).toUInt32) &&& ((1 <<< k) - 1), nbits := k,
      out := r.out ++ [(((r.acc <<< 6) ||| (UInt8.ofNat d).toUInt32) >>> k).toUInt8] } := by
  have hadd : (u32Add r.nbits 6 : Outcome Error UInt32) = .ok (r.nbits + 6) :=
    if_pos (by simp; omega)
  have hmore : 8 ≤ r.nbits + 6 := by
    rw [UInt32.le_iff_toNat_le, UInt32.toNat_add]
    simp
    omega
  have hk : (r.nbits + 6 - 8).toNat = r.nbits.toNat - 2 := by
    rw [UInt32.toNat_sub_of_le _ _ hmore, UInt32.toNat_add]
    simp
    omega
  have hsub : (u32Sub (r.nbits + 6) 8 : Outcome Error UInt32) = .ok (r.nbits + 6 - 8) :=
    if_pos hmore
  obtain ⟨hshl, hmask, -⟩ := toNat_mask (k := r.nbits + 6 - 8) (by omega)
  have hshr : ∀ a, (u32Shr a (r.nbits + 6 - 8) : Outcome Error UInt32) =
      .ok (a >>> (r.nbits + 6 - 8)) := fun a => if_pos (by
    rw [UInt32.lt_iff_toNat_lt, hk]
    exact Nat.lt_of_lt_of_le (by omega : r.nbits.toNat - 2 < 6) (by decide))
  refine ⟨r.nbits + 6 - 8, hk, ?_⟩
  rw [Reader.feed, sextet_letterByte ⟨d, hd⟩]
  simp only [Outcome.ok_bind, hadd, if_pos hmore, hsub, hshr, hshl, hmask]
  rfl

theorem Reader.Holds.feed {r : Reader} {ds : List ℕ} {d : ℕ} (h : r.Holds ds) (hd : d < 64) :
    ∃ r', r.feed (letterByte d) = .ok r' ∧ r'.Holds (ds ++ [d]) := by
  have hbits := h.nbits
  have hlen := h.length
  have hdn : (UInt8.ofNat d).toNat = d := UInt8.toNat_ofNat_of_lt (hd.trans (by decide))
  have hpush := h.push (v := UInt8.ofNat d) (by rw [hdn]; exact hd)
  rw [hdn] at hpush
  have hvalue : value 64 (ds ++ [d]) = value 256 (byteValues r.out) * 2 ^ (r.nbits.toNat + 6) +
      (r.acc.toNat * 64 + d) := by
    rw [value_concat, h.spells, pow_add]
    ring
  have hroom : r.acc.toNat * 64 + d < 2 ^ (r.nbits.toNat + 6) := by
    have := h.acc
    rw [pow_add]
    omega
  -- with fewer than two bits kept the letter completes no byte
  rcases Nat.lt_or_ge r.nbits.toNat 2 with hlow | hlow
  · have hadd : (r.nbits + 6).toNat = r.nbits.toNat + 6 := by
      rw [UInt32.toNat_add]
      simp
      omega
    refine ⟨_, Reader.feed_keep hd hlow, ?_, ?_, ?_, ?_⟩
    · rw [hvalue, hpush, hadd]
    · rw [hadd, List.length_append, List.length_singleton]
      dsimp only
      omega
    · dsimp only
      omega
    · rw [hpush, hadd]
      exact hroom
  · obtain ⟨k, hk, hfeed⟩ := Reader.feed_write hd hlow hbits
    obtain ⟨-, -, hand⟩ := toNat_mask (k := k) (by omega)
    have hscale : r.nbits.toNat + 6 = k.toNat + 8 := by omega
    rw [hscale] at hvalue hroom
    refine ⟨_, hfeed, ?_, ?_, ?_, ?_⟩
    · have hbyte : (((r.acc <<< 6) ||| (UInt8.ofNat d).toUInt32) >>> k).toUInt8.toNat =
          (r.acc.toNat * 64 + d) / 2 ^ k.toNat := by
        rw [UInt32.toNat_toUInt8, UInt32.toNat_shiftRight, hpush,
          Nat.mod_eq_of_lt (show k.toNat < 32 by omega), Nat.shiftRight_eq_div_pow]
        apply Nat.mod_eq_of_lt
        apply Nat.div_lt_of_lt_mul
        rwa [← pow_add]
      have hsplit := Nat.div_add_mod (r.acc.toNat * 64 + d) (2 ^ k.toNat)
      simp only [byteValues, List.map_append, List.map_singleton, hbyte, hand, hpush,
        value_concat 256 (List.map UInt8.toNat r.out)]
      -- the accumulator split into the byte that is written and the bits that stay
      calc value 64 (ds ++ [d])
          = value 256 (byteValues r.out) * (2 ^ k.toNat * 2 ^ 8) + (r.acc.toNat * 64 + d) := by
            rw [hvalue, pow_add]
        _ = value 256 (byteValues r.out) * (2 ^ k.toNat * 2 ^ 8) +
            (2 ^ k.toNat * ((r.acc.toNat * 64 + d) / 2 ^ k.toNat) +
              (r.acc.toNat * 64 + d) % 2 ^ k.toNat) := by rw [hsplit]
        _ = _ := by
          rw [byteValues]
          ring
    · rw [List.length_append, List.length_append, List.length_singleton]
      simp only [List.length_singleton]
      omega
    · dsimp only
      omega
    · rw [hand]
      exact Nat.mod_lt _ (by positivity)

theorem read_concat (bytes : Bytes) (c : UInt8) :
    read (bytes ++ [c]) = read bytes >>= fun r => r.feed c := by
  simp only [read, List.foldlM_append, List.foldlM_cons, List.foldlM_nil, bind_pure]

theorem read_letters {ds : List ℕ} (h : ∀ d ∈ ds, d < 64) :
    ∃ r, read (ds.map letterByte) = .ok r ∧ r.Holds ds := by
  induction ds using List.reverseRecOn with
  | nil => exact ⟨.start, rfl, Reader.start_holds⟩
  | append_singleton ds d ih =>
    obtain ⟨r, hr, hholds⟩ := ih fun e he => h e (List.mem_append_left _ he)
    obtain ⟨r', hfeed, hholds'⟩ := hholds.feed (h d (by simp))
    refine ⟨r', ?_, hholds'⟩
    rw [List.map_append, List.map_singleton, read_concat, hr, Outcome.ok_bind, hfeed]

theorem feed_err {c : UInt8} {e : Error} (h : sextet c = .err e) (r : Reader) :
    r.feed c = .err e := by
  rw [Reader.feed, h]
  rfl

theorem read_cases (bytes : Bytes) :
    (∃ ds : List ℕ, (∀ d ∈ ds, d < 64) ∧ bytes = ds.map letterByte) ∨
      ∃ m, read bytes = .err (.format m) := by
  induction bytes using List.reverseRecOn with
  | nil => exact .inl ⟨[], by simp, rfl⟩
  | append_singleton bytes c ih =>
    rcases ih with ⟨ds, hlt, rfl⟩ | ⟨m, hm⟩
    · rcases sextet_cases c with ⟨d, hd, rfl⟩ | ⟨m, hm⟩
      · refine .inl ⟨ds ++ [d], ?_, by simp⟩
        intro e he
        rcases List.mem_append.mp he with he | he
        · exact hlt e he
        · simpa [List.mem_singleton.mp he] using hd
      · obtain ⟨r, hr, -⟩ := read_letters hlt
        exact .inr ⟨m, by rw [read_concat, hr, Outcome.ok_bind, feed_err hm]⟩
    · exact .inr ⟨m, by rw [read_concat, hm, Outcome.err_bind]⟩

end Reading

end Krypto.Base64
