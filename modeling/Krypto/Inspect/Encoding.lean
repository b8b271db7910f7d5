import Krypto.Inspect.Der

/-! DER elements as bytes: the encodings that `read` takes, and that it takes no others. -/

namespace Krypto.Inspect.Der
open Effect

/-- The length octets `read` takes, and the length they state: one byte, or a count of one to
four bytes and those bytes. They need not be the shortest. -/
inductive States : Bytes → ℕ → Prop
  | short (n : UInt8) (h : n < 0x80) : States [n] n.toNat
  | long (count : UInt8) (digits : Bytes) (h : 0x80 ≤ count) (hcount : (count &&& 0x7f).toNat = digits.length)
      (hne : digits ≠ []) (hle : digits.length ≤ 4) : States (count :: digits) (be digits)

def Encodes (t : Tlv) (e : Bytes) : Prop :=
  ∃ octets, States octets t.body.length ∧ e = t.tag :: (octets ++ t.body)

inductive Encoded : List Tlv → Bytes → Prop
  | nil : Encoded [] []
  | cons {t : Tlv} {ts : List Tlv} {e rest : Bytes} (first : Encodes t e) (more : Encoded ts rest) :
      Encoded (t :: ts) (e ++ rest)

theorem encoded_nil_iff {b : Bytes} : Encoded [] b ↔ b = [] := by
  constructor
  · rintro ⟨⟩
    rfl
  · rintro rfl
    exact .nil

theorem encoded_cons_iff {t : Tlv} {ts : List Tlv} {b : Bytes} :
    Encoded (t :: ts) b ↔ ∃ e rest, Encodes t e ∧ Encoded ts rest ∧ b = e ++ rest := by
  constructor
  · rintro ⟨⟩
    next e rest first more => exact ⟨e, rest, first, more, rfl⟩
  · rintro ⟨e, rest, first, more, rfl⟩
    exact .cons first more

theorem foldl_shift (digits : Bytes) :
    digits.foldl (fun acc b => (acc <<< 8) ||| b.toNat) 0 = be digits := by
  have hstep (acc : ℕ) (b : UInt8) : (acc <<< 8) ||| b.toNat = acc * 256 + b.toNat := by
    rw [Nat.shiftLeft_eq, Nat.mul_comm, ← Nat.two_pow_add_eq_or_of_lt b.toNat_lt, Nat.mul_comm]
  simp only [hstep]
  rfl

theorem takeBody_append (tag : UInt8) (body rest : Bytes) :
    takeBody tag body.length (body ++ rest) = some (⟨tag, body⟩, rest) := by
  have hlen : ¬(body ++ rest).length < body.length := by
    rw [List.length_append]
    omega
  rw [takeBody, if_neg hlen, List.take_left, List.drop_left]

theorem takeBody_eq_some {tag : UInt8} {len : ℕ} {input rest : Bytes} {t : Tlv}
    (h : takeBody tag len input = some (t, rest)) :
    t.tag = tag ∧ t.body.length = len ∧ input = t.body ++ rest := by
  unfold takeBody at h
  split_ifs at h with hlen
  cases h
  have hle : min len input.length = len := Nat.min_eq_left (Nat.le_of_not_lt hlen)
  exact ⟨rfl, by rw [List.length_take, hle], (List.take_append_drop len input).symm⟩

theorem read_append {t : Tlv} {e : Bytes} (h : Encodes t e) (rest : Bytes) :
    read (e ++ rest) = some (t, rest) := by
  obtain ⟨octets, hoctets, rfl⟩ := h
  generalize hlen : t.body.length = len at hoctets
  cases hoctets with
  | short n hn =>
    rw [List.cons_append, List.append_assoc, List.singleton_append, read, if_pos hn, ← hlen,
      takeBody_append]
  | long count digits hc hcount hne hle =>
    have hshort : ¬count < 0x80 := UInt8.not_lt.mpr hc
    have hzero : digits.length ≠ 0 := fun h0 => hne (List.length_eq_zero_iff.mp h0)
    have hguard : ¬((count &&& 0x7f).toNat = 0 ∨ 4 < (count &&& 0x7f).toNat ∨
        (digits ++ (t.body ++ rest)).length < (count &&& 0x7f).toNat) := by
      rw [hcount, List.length_append]
      omega
    rw [List.cons_append, List.append_assoc, List.cons_append, read, if_neg hshort]
    simp only [if_neg hguard]
    rw [hcount, List.take_left, List.drop_left, foldl_shift, ← hlen, takeBody_append]

theorem encodes_of_read {input rest : Bytes} {t : Tlv} (h : read input = some (t, rest)) :
    ∃ e, Encodes t e ∧ input = e ++ rest := by
  match input with
  | [] => cases h
  | [_] => cases h
  | tag :: first :: input =>
    rw [read] at h
    by_cases hshort : first < 0x80
    · rw [if_pos hshort] at h
      obtain ⟨htag, hlen, rfl⟩ := takeBody_eq_some h
      refine ⟨tag :: ([first] ++ t.body), ⟨[first], hlen ▸ .short first hshort, by rw [htag]⟩, ?_⟩
      rw [List.cons_append, List.append_assoc, List.singleton_append]
    · rw [if_neg hshort] at h
      generalize hn : (first &&& 0x7f).toNat = n at h
      simp only [Option.ite_none_left_eq_some, not_or, Nat.not_lt] at h
      obtain ⟨⟨hzero, hfour, henough⟩, h⟩ := h
      obtain ⟨htag, hlen, hinput⟩ := takeBody_eq_some h
      have hdigits : (input.take n).length = n := by rw [List.length_take, Nat.min_eq_left henough]
      have hne : input.take n ≠ [] := by
        intro he
        rw [he] at hdigits
        exact hzero hdigits.symm
      have hstates : States (first :: input.take n) t.body.length := by
        rw [hlen, foldl_shift]
        exact .long first _ (UInt8.not_lt.mp hshort) (hn.trans hdigits.symm) hne (hdigits.trans_le hfour)
      refine ⟨tag :: ((first :: input.take n) ++ t.body), ⟨_, hstates, by rw [htag]⟩, ?_⟩
      rw [List.cons_append, List.append_assoc, List.cons_append, ← hinput, List.take_append_drop]

theorem Encodes.ne_nil {t : Tlv} {e : Bytes} (h : Encodes t e) : e ≠ [] := by
  obtain ⟨octets, -, rfl⟩ := h
  exact List.cons_ne_nil _ _

theorem whole_eq_some {input : Bytes} {t : Tlv} : whole input = some t ↔ Encodes t input := by
  unfold whole
  constructor
  · intro h
    obtain ⟨⟨t', rest⟩, hread, hrest⟩ := Option.bind_eq_some_iff.mp h
    simp only [Option.ite_none_right_eq_some, Option.some.injEq] at hrest
    obtain ⟨rfl, rfl⟩ := hrest
    obtain ⟨e, he, rfl⟩ := encodes_of_read hread
    rwa [List.append_nil]
  · intro h
    have hread := read_append h []
    rw [List.append_nil] at hread
    rw [hread]
    rfl

theorem childrenWith_encoded {ts : List Tlv} {input : Bytes} (h : Encoded ts input) {fuel : ℕ}
    (hfuel : input.length ≤ fuel) : childrenWith fuel input = some ts := by
  induction h generalizing fuel with
  | nil => cases fuel <;> rfl
  | @cons t ts e rest first more ih =>
    obtain ⟨b, e', he⟩ := List.exists_cons_of_ne_nil first.ne_nil
    have hread := read_append first rest
    rw [he, List.cons_append, List.length_cons, List.length_append] at hfuel
    obtain ⟨fuel, rfl⟩ := Nat.exists_eq_succ_of_ne_zero (by omega : fuel ≠ 0)
    rw [he, List.cons_append] at hread ⊢
    rw [childrenWith, hread]
    simp only [Option.bind_eq_bind, Option.bind_some, ih (by omega : rest.length ≤ fuel)]

theorem encoded_of_childrenWith {fuel : ℕ} {input : Bytes} {ts : List Tlv}
    (h : childrenWith fuel input = some ts) : Encoded ts input := by
  induction fuel generalizing input ts with
  | zero =>
    cases input with
    | nil =>
      cases h
      exact .nil
    | cons b input => cases h
  | succ fuel ih =>
    cases input with
    | nil =>
      cases h
      exact .nil
    | cons b input =>
      obtain ⟨⟨t, next⟩, hread, h⟩ := Option.bind_eq_some_iff.mp h
      obtain ⟨more, hmore, hts⟩ := Option.bind_eq_some_iff.mp h
      cases hts
      obtain ⟨e, he, hinput⟩ := encodes_of_read hread
      rw [hinput]
      exact .cons he (ih hmore)

theorem children_eq_some {body : Bytes} {ts : List Tlv} : children body = some ts ↔ Encoded ts body :=
  ⟨encoded_of_childrenWith, fun h => childrenWith_encoded h (Nat.le_refl _)⟩

structure IsSequence (ts : List Tlv) (t : Tlv) : Prop where
  tag : t.tag = SEQUENCE
  parts : Encoded ts t.body

theorem IsSequence.whole {ts : List Tlv} {t : Tlv} {e : Bytes} (h : IsSequence ts t)
    (he : Encodes t e) : (whole e).filter (fun t => t.tag = SEQUENCE) = some t := by
  rw [whole_eq_some.mpr he, Option.filter_some, if_pos (by simpa using h.tag)]

structure IsAlgorithm (oid : Tlv) (params : List Tlv) (t : Tlv) : Prop where
  parts : IsSequence (oid :: params) t
  tag : oid.tag = OID

theorem IsAlgorithm.algorithm {oid t : Tlv} {params : List Tlv} (h : IsAlgorithm oid params t) :
    algorithm t = some (oid, params.head?) := by
  rw [Der.algorithm, if_neg (not_not.mpr h.parts.tag), children_eq_some.mpr h.parts.parts]
  simp only [Option.bind_eq_bind, Option.bind_some, List.head?_cons, Option.filter_some,
    decide_eq_true h.tag, if_true]
  cases params <;> rfl

end Krypto.Inspect.Der
