import Krypto.Error
import Krypto.Inspect.Encoding
import Krypto.Inspect.Octets

/-! The reader is the inverse of DER, and of the longer lengths besides: what it
takes is elements end to end, and what they leave over it refuses. -/

namespace Krypto.Inspect.Der
open Effect

/-! ### DER as it is written -/

section Written

/-- The length of a body: one byte below 128, else a count and the fewest octets. -/
def lengthOctets (len : ℕ) : Bytes :=
  if len < 0x80 then [UInt8.ofNat len]
  else UInt8.ofNat (0x80 + (octets len).length) :: octets len

def encode (t : Tlv) : Bytes := t.tag :: (lengthOctets t.body.length ++ t.body)

theorem states_lengthOctets {len : ℕ} (h : len < 2 ^ 32) : States (lengthOctets len) len := by
  unfold lengthOctets
  split_ifs with hshort
  · have hnat : (UInt8.ofNat len).toNat = len := UInt8.toNat_ofNat_of_lt' (by
      have hsize : UInt8.size = 256 := rfl
      omega)
    have hone := States.short (UInt8.ofNat len) (UInt8.lt_iff_toNat_lt.mpr (by rw [hnat]; exact hshort))
    rwa [hnat] at hone
  · have hle : (octets len).length ≤ 4 := length_octets_le h
    have hne : octets len ≠ [] := octets_ne_nil (by omega)
    have hcount : ∀ k : Fin 5, 0x80 ≤ UInt8.ofNat (0x80 + k.val) ∧
        (UInt8.ofNat (0x80 + k.val) &&& 0x7f).toNat = k.val := by decide
    obtain ⟨hlong, hdigits⟩ := hcount ⟨(octets len).length, Nat.lt_succ_of_le hle⟩
    have hstates := States.long _ (octets len) hlong hdigits hne hle
    rwa [be_octets] at hstates

theorem encodes_encode {t : Tlv} (h : t.body.length < 2 ^ 32) : Encodes t (encode t) :=
  ⟨_, states_lengthOctets h, rfl⟩

theorem encoded_flatMap {ts : List Tlv} (h : ∀ t ∈ ts, t.body.length < 2 ^ 32) :
    Encoded ts (ts.flatMap encode) := by
  induction ts with
  | nil => exact .nil
  | cons t ts ih =>
    obtain ⟨ht, hts⟩ := List.forall_mem_cons.mp h
    exact .cons (encodes_encode ht) (ih hts)

end Written

/-! ### Pieces -/

section Pieces

theorem States.length {octets : Bytes} {len : ℕ} (h : States octets len) :
    1 ≤ octets.length ∧ octets.length ≤ 5 := by
  cases h with
  | short n hn => simp
  | long count digits hc hcount hne hle =>
    rw [List.length_cons]
    omega

/-- One element's piece of an input: its tag, one to five bytes that state the length of its body,
and its body. -/
def Piece (t : Tlv) (piece : Bytes) : Prop :=
  ∃ octets, 1 ≤ octets.length ∧ octets.length ≤ 5 ∧ States octets t.body.length ∧
    piece = t.tag :: (octets ++ t.body)

theorem piece_iff_encodes {t : Tlv} {piece : Bytes} : Piece t piece ↔ Encodes t piece := by
  constructor
  · rintro ⟨octets, -, -, hstates, rfl⟩
    exact ⟨octets, hstates, rfl⟩
  · rintro ⟨octets, hstates, rfl⟩
    exact ⟨octets, hstates.length.1, hstates.length.2, hstates, rfl⟩

theorem Piece.two_le {t : Tlv} {piece : Bytes} (h : Piece t piece) : 2 ≤ piece.length := by
  obtain ⟨octets, hone, -, -, rfl⟩ := h
  rw [List.length_cons, List.length_append]
  omega

theorem encoded_iff_pieces {ts : List Tlv} {input : Bytes} :
    Encoded ts input ↔ ∃ pieces, List.Forall₂ Piece ts pieces ∧ input = pieces.flatten := by
  constructor
  · intro h
    induction h with
    | nil => exact ⟨[], .nil, rfl⟩
    | @cons t ts e rest first more ih =>
      obtain ⟨pieces, hpieces, rfl⟩ := ih
      exact ⟨e :: pieces, .cons (piece_iff_encodes.mpr first) hpieces, rfl⟩
  · rintro ⟨pieces, hpieces, rfl⟩
    induction hpieces with
    | nil => exact .nil
    | cons first _ ih => exact .cons (piece_iff_encodes.mp first) ih

theorem length_of_read {input rest : Bytes} {t : Tlv} (h : read input = some (t, rest)) :
    rest.length + 2 ≤ input.length := by
  obtain ⟨e, he, rfl⟩ := encodes_of_read h
  have htwo := (piece_iff_encodes.mpr he).two_le
  rw [List.length_append]
  omega

end Pieces

/-! ### The reader with its slices -/

namespace Checked
variable {ε : Type}

def takeBody (tag : UInt8) (len : UInt64) (rest : Bytes) : Outcome ε (Option (Tlv × Bytes)) := do
  if rest.length < len.toNat then
    pure none
  else
    let body ← slice rest 0 len.toNat
    let rest ← slice rest len.toNat rest.length
    pure (some (⟨tag, body⟩, rest))

/-- `read`, with a panic where a slice is out of range and the length in 64 bits. -/
def read : Bytes → Outcome ε (Option (Tlv × Bytes))
  | tag :: first :: rest => do
    if first < 0x80 then
      takeBody tag first.toUInt64 rest
    else
      let n := (first &&& 0x7f).toNat
      if n = 0 ∨ 4 < n ∨ rest.length < n then
        pure none
      else
        let digits ← slice rest 0 n
        let len := digits.foldl (fun (acc : UInt64) b => (acc <<< 8) ||| b.toUInt64) 0
        takeBody tag len (← slice rest n rest.length)
  | _ => pure none

/-- The loop of `children`: what is pushed so far and what is left, for so many turns; `none` when
they do not suffice. -/
def childrenLoop : ℕ → List Tlv → Bytes → Option (Outcome ε (Option (List Tlv)))
  | _, out, [] => some (.ok (some out))
  | 0, _, _ :: _ => none
  | turns + 1, out, b :: rest =>
    match read (b :: rest) with
    | .ok (some (tlv, next)) => childrenLoop turns (out ++ [tlv]) next
    | .ok none => some (.ok none)
    | .err e => some (.err e)
    | .panic => some .panic

end Checked

section InRange
variable {ε : Type}

theorem checked_takeBody (tag : UInt8) (len : UInt64) (rest : Bytes) :
    (Checked.takeBody tag len rest : Outcome ε _) = .ok (takeBody tag len.toNat rest) := by
  unfold Checked.takeBody takeBody
  split_ifs with hlen
  · rfl
  · have hle := Nat.le_of_not_lt hlen
    rw [slice_front hle, Outcome.ok_bind, slice_back hle, Outcome.ok_bind, Outcome.pure_eq]

/-- Four bytes never shift a bit out of a `usize`. -/
theorem foldl_usize {digits : Bytes} (h : digits.length ≤ 4) :
    (digits.foldl (fun (acc : UInt64) b => (acc <<< 8) ||| b.toUInt64) 0).toNat =
      digits.foldl (fun acc b => (acc <<< 8) ||| b.toNat) 0 := by
  rw [foldl_shift]
  induction digits using List.reverseRecOn with
  | nil => rfl
  | append_singleton digits b ih =>
    rw [List.length_append, List.length_singleton] at h
    have hlt : be digits < 2 ^ 24 := (be_lt digits).trans_le
      (Nat.pow_le_pow_right (n := 256) (by decide) (by omega : digits.length ≤ 3))
    have hshift : be digits * 256 < 2 ^ 64 := by omega
    rw [List.foldl_append, List.foldl_cons, List.foldl_nil, UInt64.toNat_or, UInt64.toNat_shiftLeft,
      ih (by omega), be_concat]
    have height : (8 : UInt64).toNat % 64 = 8 := by decide
    rw [height, Nat.shiftLeft_eq, Nat.mod_eq_of_lt hshift, Nat.mul_comm, UInt8.toNat_toUInt64,
      ← Nat.two_pow_add_eq_or_of_lt b.toNat_lt, Nat.mul_comm]

/-- No slice of the reader is out of range, whatever the input. -/
theorem checked_read (input : Bytes) : (Checked.read input : Outcome ε _) = .ok (read input) := by
  match input with
  | [] => rfl
  | [_] => rfl
  | tag :: first :: rest =>
    rw [Checked.read, read]
    by_cases hshort : first < 0x80
    · rw [if_pos hshort, if_pos hshort, checked_takeBody, UInt8.toNat_toUInt64]
    · rw [if_neg hshort, if_neg hshort]
      dsimp only
      by_cases hguard : (first &&& 0x7f).toNat = 0 ∨ 4 < (first &&& 0x7f).toNat ∨
          rest.length < (first &&& 0x7f).toNat
      · rw [if_pos hguard, if_pos hguard, Outcome.pure_eq]
      · rw [if_neg hguard, if_neg hguard]
        obtain ⟨-, hfour, henough⟩ := by simpa only [not_or, Nat.not_lt] using hguard
        have hdigits : (rest.take (first &&& 0x7f).toNat).length ≤ 4 := by
          rw [List.length_take]
          omega
        rw [slice_front henough, Outcome.ok_bind, slice_back henough, Outcome.ok_bind,
          checked_takeBody, foldl_usize hdigits]

end InRange

section Loop
variable {ε : Type}

theorem childrenWith_eq {fuel : ℕ} {input : Bytes} (h : input.length ≤ fuel) :
    childrenWith fuel input = children input := by
  apply Option.ext
  intro ts
  rw [children_eq_some]
  exact ⟨encoded_of_childrenWith, fun he => childrenWith_encoded he h⟩

theorem children_step {input : Bytes} (h : input ≠ []) :
    children input = (read input).bind fun (t, next) => (children next).map (t :: ·) := by
  obtain ⟨b, rest, rfl⟩ := List.exists_cons_of_ne_nil h
  rw [children, List.length_cons, childrenWith]
  cases hread : read (b :: rest) with
  | none => rfl
  | some piece =>
    obtain ⟨t, next⟩ := piece
    have hle := length_of_read hread
    rw [List.length_cons] at hle
    have hnext : childrenWith rest.length next = children next := childrenWith_eq (by omega)
    simp only [Option.bind_eq_bind, Option.bind_some, hnext]
    rw [Option.map_eq_bind]
    rfl

/-- The loop ends within a turn for every two bytes, and with what `children` says. -/
theorem childrenLoop_eq {turns : ℕ} {out : List Tlv} {input : Bytes}
    (h : (input.length + 1) / 2 ≤ turns) :
    (Checked.childrenLoop turns out input : Option (Outcome ε _)) =
      some (.ok ((children input).map (out ++ ·))) := by
  induction turns generalizing out input with
  | zero =>
    obtain rfl : input = [] := List.length_eq_zero_iff.mp (by omega)
    rw [Checked.childrenLoop, children, childrenWith, Option.map_some, List.append_nil]
  | succ turns ih =>
    cases input with
    | nil => rw [Checked.childrenLoop, children, childrenWith, Option.map_some, List.append_nil]
    | cons b rest =>
      rw [Checked.childrenLoop, checked_read, children_step (List.cons_ne_nil b rest)]
      cases hread : read (b :: rest) with
      | none => rfl
      | some piece =>
        obtain ⟨t, next⟩ := piece
        have hle := length_of_read hread
        dsimp only [Option.bind_some]
        rw [ih (by omega), Option.map_map]
        simp [Function.comp_def]

end Loop

/-- The reader against the encodings: it gives back what was encoded, what it takes is pieces end to
end with nothing left over, it refuses the rest, and it runs out of neither slices nor turns. -/
theorem reads_what_is_encoded :
    (∀ ts : List Tlv, (∀ t ∈ ts, t.body.length < 2 ^ 32) → children (ts.flatMap encode) = some ts) ∧
    (∀ t : Tlv, t.body.length < 2 ^ 32 → whole (encode t) = some t) ∧
    (∀ input ts, children input = some ts ↔
      ∃ pieces, List.Forall₂ Piece ts pieces ∧ input = pieces.flatten) ∧
    (∀ input, (¬∃ ts pieces, List.Forall₂ Piece ts pieces ∧ input = pieces.flatten) →
      children input = none) ∧
    (∀ t piece, Piece t piece → 2 ≤ piece.length) ∧
    (∀ input t rest, read input = some (t, rest) → rest.length + 2 ≤ input.length) ∧
    (∀ input, (Checked.read input : Outcome Error _) = .ok (read input)) ∧
    ∀ input turns, (input.length + 1) / 2 ≤ turns →
      (Checked.childrenLoop turns [] input : Option (Outcome Error _)) = some (.ok (children input)) := by
  refine ⟨fun ts h => children_eq_some.mpr (encoded_flatMap h),
    fun t h => whole_eq_some.mpr (encodes_encode h), ?_, ?_, fun t piece h => h.two_le,
    fun input t rest h => length_of_read h, checked_read, ?_⟩
  · intro input ts
    exact children_eq_some.trans encoded_iff_pieces
  · intro input hnone
    apply Option.eq_none_iff_forall_ne_some.mpr
    intro ts h
    exact hnone ⟨ts, encoded_iff_pieces.mp (children_eq_some.mp h)⟩
  · intro input turns h
    rw [childrenLoop_eq h]
    simp

end Krypto.Inspect.Der
