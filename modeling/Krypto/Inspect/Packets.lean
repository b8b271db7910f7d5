import Krypto.Error
import Krypto.Inspect.Octets
import Krypto.Inspect.Pgp

/-! OpenPGP packets as bytes: the headers that the walk takes, that the inputs it
comes through are the sequences of packets, and that no index of it is out of range. -/

namespace Krypto.Inspect.Pgp
open Effect

def newOctet (tag : UInt8) : UInt8 := 0xc0 ||| tag

def oldOctet (tag kind : UInt8) : UInt8 := (0x80 : UInt8) ||| tag <<< 2 ||| kind

/-- The headers of a packet, with the length they state: one, two or five octets in the new format,
one, two or four in the old one, or none. -/
inductive Header (tag : UInt8) : Option ℕ → Bytes → Prop
  | one (n : UInt8) (htag : tag < 64) (h : n ≤ 191) : Header tag (some n.toNat) [newOctet tag, n]
  | two (l1 l2 : UInt8) (htag : tag < 64) (h : 192 ≤ l1) (h' : l1 ≤ 223) :
    Header tag (some ((l1.toNat - 192) * 256 + l2.toNat + 192)) [newOctet tag, l1, l2]
  | five (digits : Bytes) (htag : tag < 64) (h : digits.length = 4) :
    Header tag (some (be digits)) (newOctet tag :: 255 :: digits)
  | stream (l1 : UInt8) (htag : tag < 64) (h : 224 ≤ l1) (h' : l1 < 255) :
    Header tag none [newOctet tag, l1]
  | old (kind : UInt8) (digits : Bytes) (htag : tag < 16) (hkind : kind < 3)
    (h : digits.length = 2 ^ kind.toNat) : Header tag (some (be digits)) (oldOctet tag kind :: digits)
  | oldStream (htag : tag < 16) : Header tag none [oldOctet tag 3]

def Encodes (p : Packet) (b : Bytes) : Prop :=
  ∃ hd body, 0 < p.tag ∧ Header p.tag (some body.length) hd ∧ b = hd ++ body ∧
    p = ⟨p.tag, some body, body⟩

inductive Encoded : List Packet → Bytes → Prop
  | nil : Encoded [] []
  | cons {p : Packet} {ps : List Packet} {b rest : Bytes} (first : Encodes p b)
    (more : Encoded ps rest) : Encoded (p :: ps) (b ++ rest)

/-- A packet that says nothing of its length, and is the rest of the input. -/
def Streams (p : Packet) (b : Bytes) : Prop :=
  ∃ hd, 0 < p.tag ∧ Header p.tag none hd ∧ b = hd ++ p.head ∧ p.body = none

/-- A packet that a session key is in, which a message starts with. -/
def isKeyPacket (p : Packet) : Bool := p.tag = 1 ∨ p.tag = 3

/-- Packets that are all of known length, or the last of which is a stream after a key packet. -/
def Sequence (ps : List Packet) (b : Bytes) : Prop :=
  Encoded ps b ∨ ∃ before last front tail, ps = before ++ [last] ∧ b = front ++ tail ∧
    Encoded before front ∧ Streams last tail ∧ ∃ p ∈ before, isKeyPacket p

/-! ## Headers -/

section Octets

theorem newOctet_of_bits (b : UInt8) : b &&& 0x80 ≠ 0 → b &&& 0x40 ≠ 0 →
    b = newOctet (b &&& 0x3f) ∧ b &&& 0x3f < 64 := by
  revert b
  apply forall_octet
  decide +kernel

theorem oldOctet_of_bits (b : UInt8) : b &&& 0x80 ≠ 0 → b &&& 0x40 = 0 →
    b = oldOctet ((b >>> 2) &&& 0x0f) (b &&& 3) ∧ (b >>> 2) &&& 0x0f < 16 ∧ b &&& 3 < 4 := by
  revert b
  apply forall_octet
  decide +kernel

theorem bits_of_newOctet (tag : UInt8) : tag < 64 → newOctet tag &&& 0x80 ≠ 0 ∧
    newOctet tag &&& 0x40 ≠ 0 ∧ newOctet tag &&& 0x3f = tag := by
  revert tag
  apply forall_octet
  decide +kernel

theorem kind_cases (kind : UInt8) : kind < 4 → kind = 0 ∨ kind = 1 ∨ kind = 2 ∨ kind = 3 := by
  revert kind
  apply forall_octet
  decide +kernel

theorem bits_of_oldOctet (tag kind : UInt8) (hkind : kind < 4) : tag < 16 →
    oldOctet tag kind &&& 0x80 ≠ 0 ∧ oldOctet tag kind &&& 0x40 = 0 ∧
      (oldOctet tag kind >>> 2) &&& 0x0f = tag ∧ oldOctet tag kind &&& 3 = kind := by
  revert tag
  apply forall_octet
  rcases kind_cases kind hkind with rfl | rfl | rfl | rfl
  all_goals decide +kernel

end Octets

theorem beAt_zero_eq_some {input : Bytes} {k n : ℕ} :
    beAt input 0 k = some n ↔ ∃ digits rest, input = digits ++ rest ∧ digits.length = k ∧ be digits = n := by
  unfold beAt range
  rw [Nat.zero_add]
  constructor
  · intro h
    split_ifs at h with hle
    · obtain rfl : be (input.take k) = n := by simpa using h
      exact ⟨input.take k, input.drop k, (List.take_append_drop k input).symm,
        List.length_take_of_le hle.2, rfl⟩
    · cases h
  · rintro ⟨digits, rest, rfl, rfl, rfl⟩
    have hle : 0 ≤ digits.length ∧ digits.length ≤ (digits ++ rest).length := by
      rw [List.length_append]
      omega
    rw [if_pos hle, List.drop_zero, Nat.sub_zero, List.take_left]
    rfl

theorem stated_eq_some {after rest : Bytes} {k : ℕ} {tag tag' : UInt8} {len : Option ℕ} :
    (beAt after 0 k).map (fun n => (tag, some n, after.drop k)) = some (tag', len, rest) ↔
      ∃ digits, after = digits ++ rest ∧ digits.length = k ∧ tag = tag' ∧ some (be digits) = len := by
  rw [Option.map_eq_some_iff]
  constructor
  · rintro ⟨n, hn, hsome⟩
    cases hsome
    obtain ⟨digits, rest, rfl, rfl, rfl⟩ := beAt_zero_eq_some.mp hn
    exact ⟨digits, by rw [List.drop_left], rfl, rfl, rfl⟩
  · rintro ⟨digits, rfl, rfl, rfl, rfl⟩
    exact ⟨be digits, beAt_zero_eq_some.mpr ⟨digits, rest, rfl, rfl, rfl⟩, by rw [List.drop_left]⟩

theorem header_new {first : UInt8} (h : first &&& 0x80 ≠ 0) (h' : first &&& 0x40 ≠ 0) (l1 : UInt8)
    (after : Bytes) : header (first :: l1 :: after) =
      if l1 ≤ 191 then some (first &&& 0x3f, some l1.toNat, after)
      else if l1 ≤ 223 then
        match after with
        | [] => none
        | l2 :: after => some (first &&& 0x3f, some (((l1.toNat - 192) <<< 8) + l2.toNat + 192), after)
      else if l1 = 255 then
        (beAt after 0 4).map fun n => (first &&& 0x3f, some n, after.drop 4)
      else some (first &&& 0x3f, none, after) := by
  rw [header, if_neg h, if_pos h']
  rfl

theorem header_old {first : UInt8} (h : first &&& 0x80 ≠ 0) (h' : first &&& 0x40 = 0) (after : Bytes) :
    header (first :: after) =
      if first &&& 3 = 0 then
        (beAt after 0 1).map fun n => ((first >>> 2) &&& 0x0f, some n, after.drop 1)
      else if first &&& 3 = 1 then
        (beAt after 0 2).map fun n => ((first >>> 2) &&& 0x0f, some n, after.drop 2)
      else if first &&& 3 = 2 then
        (beAt after 0 4).map fun n => ((first >>> 2) &&& 0x0f, some n, after.drop 4)
      else some ((first >>> 2) &&& 0x0f, none, after) := by
  rw [header, if_neg h, if_neg (not_not.mpr h')]

theorem header_append {tag : UInt8} {len : Option ℕ} {hd : Bytes} (h : Header tag len hd) (rest : Bytes) :
    header (hd ++ rest) = some (tag, len, rest) := by
  cases h with
  | one n htag hn =>
    obtain ⟨h80, h40, htag'⟩ := bits_of_newOctet tag htag
    rw [List.cons_append, List.cons_append, header_new h80 h40, if_pos hn, htag', List.nil_append]
  | two l1 l2 htag hlow hhigh =>
    obtain ⟨h80, h40, htag'⟩ := bits_of_newOctet tag htag
    have hone : ¬l1 ≤ 191 := by
      rw [UInt8.le_iff_toNat_le] at hlow ⊢
      exact fun h => absurd (hlow.trans h) (by decide)
    rw [List.cons_append, List.cons_append, header_new h80 h40, if_neg hone, if_pos hhigh, htag',
      Nat.shiftLeft_eq]
    rfl
  | five digits htag hlength =>
    obtain ⟨h80, h40, htag'⟩ := bits_of_newOctet tag htag
    rw [List.cons_append, List.cons_append, header_new h80 h40, if_neg (by decide), if_neg (by decide),
      if_pos rfl]
    exact stated_eq_some.mpr ⟨digits, rfl, hlength, htag', rfl⟩
  | stream l1 htag hlow hhigh =>
    obtain ⟨h80, h40, htag'⟩ := bits_of_newOctet tag htag
    have hone : ¬l1 ≤ 191 := by
      rw [UInt8.le_iff_toNat_le] at hlow ⊢
      exact fun h => absurd (hlow.trans h) (by decide)
    have htwo : ¬l1 ≤ 223 := by
      rw [UInt8.le_iff_toNat_le] at hlow ⊢
      exact fun h => absurd (hlow.trans h) (by decide)
    rw [List.cons_append, List.cons_append, header_new h80 h40, if_neg hone, if_neg htwo,
      if_neg (UInt8.ne_of_lt hhigh), htag', List.nil_append]
  | old kind digits htag hkind hlength =>
    obtain ⟨h80, h40, htag', hkind'⟩ := bits_of_oldOctet tag kind (UInt8.lt_trans hkind (by decide)) htag
    rw [List.cons_append, header_old h80 h40, hkind', htag']
    rcases kind_cases kind (UInt8.lt_trans hkind (by decide)) with rfl | rfl | rfl | rfl
    · exact stated_eq_some.mpr ⟨digits, rfl, hlength, rfl, rfl⟩
    · exact stated_eq_some.mpr ⟨digits, rfl, hlength, rfl, rfl⟩
    · exact stated_eq_some.mpr ⟨digits, rfl, hlength, rfl, rfl⟩
    · exact absurd hkind (by decide)
  | oldStream htag =>
    obtain ⟨h80, h40, htag', hkind'⟩ := bits_of_oldOctet tag 3 (by decide) htag
    rw [List.cons_append, header_old h80 h40, hkind', htag']
    rfl

theorem header_eq_some {input rest : Bytes} {tag : UInt8} {len : Option ℕ} :
    header input = some (tag, len, rest) ↔ ∃ hd, Header tag len hd ∧ input = hd ++ rest := by
  constructor
  · intro h
    match input with
    | [] => cases h
    | first :: after =>
      by_cases h80 : first &&& 0x80 = 0
      · rw [header, if_pos h80] at h
        cases h
      -- the second bit tells the old format from the new
      by_cases h40 : first &&& 0x40 = 0
      · obtain ⟨hfirst, htag, hkind⟩ := oldOctet_of_bits first h80 h40
        rw [header_old h80 h40] at h
        generalize first &&& 3 = kind at hfirst hkind h
        generalize (first >>> 2) &&& 0x0f = t at hfirst htag h
        -- the old format states the kind of length in two bits
        rcases kind_cases kind hkind with rfl | rfl | rfl | rfl
        · obtain ⟨digits, rfl, hlength, rfl, rfl⟩ := stated_eq_some.mp h
          exact ⟨first :: digits, hfirst ▸ .old 0 digits htag (by decide) hlength, rfl⟩
        · obtain ⟨digits, rfl, hlength, rfl, rfl⟩ := stated_eq_some.mp h
          exact ⟨first :: digits, hfirst ▸ .old 1 digits htag (by decide) hlength, rfl⟩
        · obtain ⟨digits, rfl, hlength, rfl, rfl⟩ := stated_eq_some.mp h
          exact ⟨first :: digits, hfirst ▸ .old 2 digits htag (by decide) hlength, rfl⟩
        · have h : some (t, none, after) = some (tag, len, rest) := h
          cases h
          exact ⟨[first], hfirst ▸ .oldStream htag, rfl⟩
      · obtain ⟨hfirst, htag⟩ := newOctet_of_bits first h80 h40
        match after with
        | [] =>
          rw [header, if_neg h80, if_pos h40] at h
          cases h
        | l1 :: after =>
          rw [header_new h80 h40] at h
          generalize first &&& 0x3f = t at hfirst htag h
          -- the new one in the value of the next octet
          by_cases hone : l1 ≤ 191
          · rw [if_pos hone] at h
            cases h
            exact ⟨[first, l1], hfirst ▸ .one l1 htag hone, rfl⟩
          rw [if_neg hone] at h
          by_cases htwo : l1 ≤ 223
          · rw [if_pos htwo] at h
            match after with
            | [] => cases h
            | l2 :: after =>
              rw [Nat.shiftLeft_eq] at h
              cases h
              have hlow : 192 ≤ l1 := by
                rw [UInt8.le_iff_toNat_le] at hone ⊢
                exact Nat.lt_of_not_le hone
              exact ⟨[first, l1, l2], hfirst ▸ .two l1 l2 htag hlow htwo, rfl⟩
          rw [if_neg htwo] at h
          by_cases hfive : l1 = 255
          · rw [if_pos hfive] at h
            obtain ⟨digits, rfl, hlength, rfl, rfl⟩ := stated_eq_some.mp h
            exact ⟨first :: l1 :: digits, by rw [hfive, hfirst]; exact .five digits htag hlength, rfl⟩
          · rw [if_neg hfive] at h
            cases h
            have hlow : 224 ≤ l1 := by
              rw [UInt8.le_iff_toNat_le] at htwo ⊢
              exact Nat.lt_of_not_le htwo
            have hhigh : l1 < 255 := by
              rw [UInt8.lt_iff_toNat_lt]
              have hne : l1.toNat ≠ 255 := fun h => hfive (UInt8.toNat_inj.mp h)
              have hlt := l1.toNat_lt
              have h255 : (255 : UInt8).toNat = 255 := rfl
              omega
            exact ⟨[first, l1], hfirst ▸ .stream l1 htag hlow hhigh, rfl⟩
  · rintro ⟨hd, hhd, rfl⟩
    exact header_append hhd rest

theorem Header.ne_nil {tag : UInt8} {len : Option ℕ} {hd : Bytes} (h : Header tag len hd) : hd ≠ [] := by
  cases h
  all_goals exact List.cons_ne_nil _ _

theorem header_exists (tag : UInt8) (n : ℕ) :
    (tag < 64 → n ≤ 191 → ∃ l, Header tag (some n) [newOctet tag, l]) ∧
    (tag < 64 → 192 ≤ n → n ≤ 8383 → ∃ l1 l2, Header tag (some n) [newOctet tag, l1, l2]) ∧
    (tag < 64 → n < 2 ^ 32 → ∃ digits, Header tag (some n) (newOctet tag :: 255 :: digits)) ∧
    ∀ kind, tag < 16 → kind < 3 → n < 256 ^ 2 ^ kind.toNat →
      ∃ digits, Header tag (some n) (oldOctet tag kind :: digits) := by
  have hsize : UInt8.size = 256 := rfl
  refine ⟨fun htag hn => ?_, fun htag hlow hhigh => ?_, fun htag hn => ?_, fun kind htag hkind hn => ?_⟩
  · have hnat : (UInt8.ofNat n).toNat = n := UInt8.toNat_ofNat_of_lt' (by omega)
    have hle : UInt8.ofNat n ≤ 191 := by
      rw [UInt8.le_iff_toNat_le, hnat]
      exact hn
    have hone := Header.one (UInt8.ofNat n) htag hle
    rw [hnat] at hone
    exact ⟨_, hone⟩
  · have hl1 : (UInt8.ofNat (192 + (n - 192) / 256)).toNat = 192 + (n - 192) / 256 :=
      UInt8.toNat_ofNat_of_lt' (by omega)
    have hl2 : (UInt8.ofNat ((n - 192) % 256)).toNat = (n - 192) % 256 :=
      UInt8.toNat_ofNat_of_lt' (by omega)
    have hl1low : 192 ≤ UInt8.ofNat (192 + (n - 192) / 256) := by
      rw [UInt8.le_iff_toNat_le, hl1]
      exact Nat.le_add_right 192 _
    have hl1high : UInt8.ofNat (192 + (n - 192) / 256) ≤ 223 := by
      rw [UInt8.le_iff_toNat_le, hl1]
      show 192 + (n - 192) / 256 ≤ 223
      omega
    have htwo := Header.two _ (UInt8.ofNat ((n - 192) % 256)) htag hl1low hl1high
    have hsum : (192 + (n - 192) / 256 - 192) * 256 + (n - 192) % 256 + 192 = n := by omega
    rw [hl1, hl2, hsum] at htwo
    exact ⟨_, _, htwo⟩
  · obtain ⟨digits, hlength, rfl⟩ := exists_digits (k := 4) hn
    exact ⟨digits, .five digits htag hlength⟩
  · obtain ⟨digits, hlength, rfl⟩ := exists_digits hn
    exact ⟨digits, .old kind digits htag hkind hlength⟩

/-! ## The walk -/

theorem range_zero_eq_some {input body : Bytes} {n : ℕ} :
    range input 0 n = some body ↔ ∃ rest, input = body ++ rest ∧ body.length = n := by
  unfold range
  constructor
  · intro h
    split_ifs at h with hle
    cases h
    exact ⟨input.drop n, (List.take_append_drop n input).symm, List.length_take_of_le hle.2⟩
  · rintro ⟨rest, rfl, rfl⟩
    have hle : 0 ≤ body.length ∧ body.length ≤ (body ++ rest).length := by
      rw [List.length_append]
      omega
    rw [if_pos hle, List.drop_zero, Nat.sub_zero, List.take_left]

theorem Encodes.ne_nil {p : Packet} {b : Bytes} (h : Encodes p b) : b ≠ [] := by
  obtain ⟨hd, body, -, hhd, rfl, -⟩ := h
  exact List.append_ne_nil_of_left_ne_nil hhd.ne_nil body

theorem Streams.ne_nil {p : Packet} {b : Bytes} (h : Streams p b) : b ≠ [] := by
  obtain ⟨hd, -, hhd, rfl, -⟩ := h
  exact List.append_ne_nil_of_left_ne_nil hhd.ne_nil p.head

theorem encoded_nil {ps : List Packet} : Encoded ps [] ↔ ps = [] := by
  constructor
  · intro h
    generalize hb : ([] : Bytes) = b at h
    cases h with
    | nil => rfl
    | cons first more => exact absurd (List.append_eq_nil_iff.mp hb.symm).1 first.ne_nil
  · rintro rfl
    exact .nil

theorem isKeyPacket_any {out : List Packet} :
    (out.any fun p => p.tag = 1 ∨ p.tag = 3) = true ↔ ∃ p ∈ out, isKeyPacket p := List.any_eq_true

theorem packetsWith_append {fuel : ℕ} {out : List Packet} {tag : UInt8} {hd body : Bytes} (rest : Bytes)
    (hhd : Header tag (some body.length) hd) (htag : 0 < tag) :
    packetsWith (fuel + 1) out (hd ++ (body ++ rest)) =
      packetsWith fuel (out ++ [⟨tag, some body, body⟩]) rest := by
  have hheader := header_append hhd (body ++ rest)
  obtain ⟨b, input, hinput⟩ := List.exists_cons_of_ne_nil
    (List.append_ne_nil_of_left_ne_nil hhd.ne_nil (body ++ rest))
  have hne : ¬tag = 0 := (UInt8.ne_of_lt htag).symm
  have hbody : range (body ++ rest) 0 body.length = some body := range_zero_eq_some.mpr ⟨rest, rfl, rfl⟩
  rw [hinput] at hheader ⊢
  rw [packetsWith, hheader]
  show (if tag = 0 then none else _) = _
  rw [if_neg hne, hbody]
  show packetsWith fuel _ (List.drop body.length (body ++ rest)) = _
  rw [List.drop_left]

theorem packetsWith_stream {fuel : ℕ} {out : List Packet} {p : Packet} {b : Bytes} (h : Streams p b) :
    packetsWith (fuel + 1) out b =
      if out.any fun p => p.tag = 1 ∨ p.tag = 3 then some (out ++ [p]) else none := by
  obtain ⟨hd, htag, hhd, rfl, hbody⟩ := h
  have hheader := header_append hhd p.head
  obtain ⟨b, input, hinput⟩ := List.exists_cons_of_ne_nil
    (List.append_ne_nil_of_left_ne_nil hhd.ne_nil p.head)
  have hne : ¬p.tag = 0 := (UInt8.ne_of_lt htag).symm
  have hp : (⟨p.tag, none, p.head⟩ : Packet) = p := by rw [← hbody]
  rw [hinput] at hheader ⊢
  rw [packetsWith, hheader]
  show (if p.tag = 0 then none
    else if _ then some (out ++ [(⟨p.tag, none, p.head⟩ : Packet)]) else none) = _
  rw [if_neg hne, hp]

def Follows (out ps : List Packet) (input : Bytes) : Prop :=
  Encoded ps input ∨ ∃ before last front tail, ps = before ++ [last] ∧ input = front ++ tail ∧
    Encoded before front ∧ Streams last tail ∧ ∃ p ∈ out ++ before, isKeyPacket p

theorem follows_nil {out ps : List Packet} : Follows out ps [] ↔ ps = [] := by
  unfold Follows
  rw [encoded_nil]
  constructor
  · rintro (h | ⟨before, last, front, tail, -, hinput, -, hlast, -⟩)
    · exact h
    · exact absurd (List.append_eq_nil_iff.mp hinput.symm).2 hlast.ne_nil
  · exact .inl

theorem follows_cons {out ps : List Packet} {p : Packet} {b rest : Bytes} (hp : Encodes p b)
    (h : Follows (out ++ [p]) ps rest) : Follows out (p :: ps) (b ++ rest) := by
  rcases h with h | ⟨before, last, front, tail, rfl, rfl, hbefore, hlast, hkey⟩
  · exact .inl (.cons hp h)
  · rw [List.append_assoc] at hkey
    exact .inr ⟨p :: before, last, b ++ front, tail, rfl, (List.append_assoc ..).symm,
      .cons hp hbefore, hlast, hkey⟩

/-- What follows is empty, a stream, or a packet of known length with what follows that. -/
theorem Follows.cases {out ps : List Packet} {input : Bytes} (h : Follows out ps input) :
    (ps = [] ∧ input = []) ∨
    (∃ p, ps = [p] ∧ Streams p input ∧ ∃ q ∈ out, isKeyPacket q) ∨
    ∃ p ps' b rest, ps = p :: ps' ∧ input = b ++ rest ∧ Encodes p b ∧ Follows (out ++ [p]) ps' rest := by
  rcases h with h | ⟨before, last, front, tail, rfl, rfl, hbefore, hlast, hkey⟩
  · cases h with
    | nil => exact .inl ⟨rfl, rfl⟩
    | cons first more => exact .inr (.inr ⟨_, _, _, _, rfl, rfl, first, .inl more⟩)
  · cases hbefore with
    | nil =>
      rw [List.append_nil] at hkey
      exact .inr (.inl ⟨last, rfl, hlast, hkey⟩)
    | cons first more =>
      refine .inr (.inr ⟨_, _, _, _, rfl, List.append_assoc .., first, .inr ?_⟩)
      exact ⟨_, _, _, _, rfl, rfl, more, hlast, by rwa [List.append_assoc]⟩

theorem packetsWith_follows {fuel : ℕ} {out ps : List Packet} {input : Bytes}
    (hfuel : input.length ≤ fuel) (h : Follows out ps input) :
    packetsWith fuel out input = some (out ++ ps) := by
  induction fuel generalizing out ps input with
  | zero =>
    obtain rfl : input = [] := List.length_eq_zero_iff.mp (Nat.le_zero.mp hfuel)
    obtain rfl := follows_nil.mp h
    rw [packetsWith, List.append_nil]
  | succ fuel ih =>
    rcases h.cases with ⟨rfl, rfl⟩ | ⟨p, rfl, hp, hkey⟩ | ⟨p, ps, b, rest, rfl, rfl, hp, hmore⟩
    · rw [packetsWith, List.append_nil]
    · rw [packetsWith_stream hp, if_pos (isKeyPacket_any.mpr hkey)]
    · have hb : 0 < b.length := List.length_pos_iff.mpr hp.ne_nil
      obtain ⟨hd, body, htag, hhd, rfl, heq⟩ := hp
      have hrest : rest.length ≤ fuel := by
        rw [List.length_append] at hfuel
        omega
      have hmore := ih hrest hmore
      rw [List.append_assoc, packetsWith_append rest hhd htag, ← heq, hmore, List.append_assoc]
      rfl

theorem follows_of_packetsWith {fuel : ℕ} {out all : List Packet} {input : Bytes}
    (h : packetsWith fuel out input = some all) : ∃ ps, all = out ++ ps ∧ Follows out ps input := by
  induction fuel generalizing out input with
  | zero =>
    match input with
    | [] =>
      cases h
      exact ⟨[], (List.append_nil _).symm, follows_nil.mpr rfl⟩
    | _ :: _ => cases h
  | succ fuel ih =>
    match input with
    | [] =>
      cases h
      exact ⟨[], (List.append_nil _).symm, follows_nil.mpr rfl⟩
    | b :: input =>
      rw [packetsWith] at h
      obtain ⟨⟨tag, len, after⟩, hheader, h⟩ := Option.bind_eq_some_iff.mp h
      obtain ⟨hd, hhd, hinput⟩ := header_eq_some.mp hheader
      rw [hinput]
      dsimp only at h
      by_cases htag : tag = 0
      · rw [if_pos htag] at h
        cases h
      rw [if_neg htag] at h
      have hpos : 0 < tag := UInt8.pos_iff_ne_zero.mpr htag
      cases len with
      | none =>
        dsimp only at h
        -- an indefinite length is taken in a packet that ends the walk, and no key packet
        split_ifs at h with hkey
        cases h
        have hstream : Streams ⟨tag, none, after⟩ (hd ++ after) := ⟨hd, hpos, hhd, rfl, rfl⟩
        refine ⟨_, rfl, .inr ⟨[], _, [], hd ++ after, rfl, rfl, .nil, hstream, ?_⟩⟩
        rw [List.append_nil]
        exact isKeyPacket_any.mp hkey
      | some n =>
        obtain ⟨body, hbody, h⟩ := Option.bind_eq_some_iff.mp h
        obtain ⟨rest, rfl, rfl⟩ := range_zero_eq_some.mp hbody
        rw [List.drop_left] at h
        obtain ⟨ps, rfl, hfollows⟩ := ih h
        rw [← List.append_assoc]
        exact ⟨_, List.append_assoc .., follows_cons ⟨hd, body, hpos, hhd, rfl, rfl⟩ hfollows⟩

theorem packets_eq_some (input : Bytes) (ps : List Packet) :
    packets input = some ps ↔ ps ≠ [] ∧ Sequence ps input := by
  have hfollows : Follows [] ps input ↔ Sequence ps input := Iff.rfl
  rw [← hfollows]
  unfold packets
  constructor
  · intro h
    obtain ⟨out, hout, h⟩ := Option.bind_eq_some_iff.mp h
    split_ifs at h with hempty
    cases h
    obtain ⟨ps, rfl, hps⟩ := follows_of_packetsWith hout
    exact ⟨hempty, hps⟩
  · rintro ⟨hne, h⟩
    rw [packetsWith_follows (Nat.le_refl _) h]
    exact if_neg hne

/-! ## The walk with its indices -/

namespace Checked
variable {ε : Type}

/-- The length in `after.get(..k)?`, and `&after[k..]`. -/
def stated (tag : UInt8) (after : Bytes) (k : ℕ) : Outcome ε (Option (UInt8 × Option ℕ × Bytes)) :=
  match beAt after 0 k with
  | none => pure none
  | some len => do pure (some (tag, some len, ← slice after k after.length))

def twoOctets (l1 l2 : UInt8) : Outcome ε ℕ := do
  let high ← usizeSub l1.toNat 192
  usizeAdd (← usizeAdd (high <<< 8) l2.toNat) 192

/-- `header`, with a panic where a slice is out of range or the arithmetic wraps. -/
def header : Bytes → Outcome ε (Option (UInt8 × Option ℕ × Bytes))
  | [] => pure none
  | first :: after =>
    if first &&& 0x80 = 0 then
      pure none
    else if first &&& 0x40 ≠ 0 then
      let tag := first &&& 0x3f
      match after with
      | [] => pure none
      | l1 :: after =>
        if l1 ≤ 191 then
          pure (some (tag, some l1.toNat, after))
        else if l1 ≤ 223 then
          match after with
          | [] => pure none
          | l2 :: after => do pure (some (tag, some (← twoOctets l1 l2), after))
        else if l1 = 255 then
          stated tag after 4
        else
          pure (some (tag, none, after))
    else
      let tag := (first >>> 2) &&& 0x0f
      let kind := first &&& 3
      if kind = 0 then
        stated tag after 1
      else if kind = 1 then
        stated tag after 2
      else if kind = 2 then
        stated tag after 4
      else
        pure (some (tag, none, after))

/-- `after.get(..len)?`, and `&after[len..]`. -/
def body (after : Bytes) (len : ℕ) : Outcome ε (Option (Bytes × Bytes)) :=
  match range after 0 len with
  | none => pure none
  | some body => do pure (some (body, ← slice after len after.length))

/-- The loop of `packets`: what is pushed so far and what is left, for so many turns; `none` when
they do not suffice. -/
def packetsLoop : ℕ → List Packet → Bytes → Option (Outcome ε (Option (List Packet)))
  | _, out, [] => some (.ok (some out))
  | 0, _, _ :: _ => none
  | turns + 1, out, b :: input =>
    match header (b :: input) with
    | .ok none => some (.ok none)
    | .ok (some (tag, len, after)) =>
      if tag = 0 then
        some (.ok none)
      else
        match len with
        | some len =>
          match body after len with
          | .ok none => some (.ok none)
          | .ok (some (body, rest)) =>
            packetsLoop turns (out ++ [{ tag, body := some body, head := body }]) rest
          | .err e => some (.err e)
          | .panic => some .panic
        | none =>
          if out.any fun p => p.tag = 1 ∨ p.tag = 3 then
            some (.ok (some (out ++ [{ tag, body := none, head := after }])))
          else
            some (.ok none)
    | .err e => some (.err e)
    | .panic => some .panic

def packets (turns : ℕ) (input : Bytes) : Option (Outcome ε (Option (List Packet))) :=
  (packetsLoop turns [] input).map fun walked => do
    pure ((← walked).bind fun out => if out = [] then none else some out)

end Checked

section InRange
variable {ε : Type}

theorem length_of_beAt {after : Bytes} {k n : ℕ} (h : beAt after 0 k = some n) : k ≤ after.length := by
  obtain ⟨digits, rest, rfl, rfl, -⟩ := beAt_zero_eq_some.mp h
  rw [List.length_append]
  exact Nat.le_add_right _ _

theorem checked_stated (tag : UInt8) (after : Bytes) (k : ℕ) :
    (Checked.stated tag after k : Outcome ε _) =
      .ok ((beAt after 0 k).map fun n => (tag, some n, after.drop k)) := by
  unfold Checked.stated
  cases hlen : beAt after 0 k with
  | none => rfl
  | some n =>
    dsimp only
    rw [slice_back (length_of_beAt hlen)]
    rfl

theorem checked_twoOctets {l1 : UInt8} (l2 : UInt8) (h : ¬l1 ≤ 191) :
    (Checked.twoOctets l1 l2 : Outcome ε ℕ) = .ok (((l1.toNat - 192) <<< 8) + l2.toNat + 192) := by
  have hlow : 192 ≤ l1.toNat := by
    rw [UInt8.le_iff_toNat_le] at h
    exact Nat.lt_of_not_le h
  have hl1 := l1.toNat_lt
  have hl2 := l2.toNat_lt
  unfold Checked.twoOctets
  rw [usizeSub_of_le hlow, Outcome.ok_bind, Nat.shiftLeft_eq,
    usizeAdd_of_lt (by omega), Outcome.ok_bind, usizeAdd_of_lt (by omega)]

/-- No slice of a header is out of range, whatever the input. -/
theorem checked_header (input : Bytes) : (Checked.header input : Outcome ε _) = .ok (header input) := by
  cases input with
  | nil => rfl
  | cons first after =>
    rw [Checked.header, header]
    split_ifs with h80 h40
    · rfl
    · cases after with
      | nil => rfl
      | cons l1 after =>
        dsimp only
        split_ifs with hone htwo hfive
        · rfl
        · cases after with
          | nil => rfl
          | cons l2 after =>
            dsimp only
            rw [checked_twoOctets l2 hone]
            rfl
        · exact checked_stated _ _ 4
        · rfl
    · dsimp only
      split_ifs
      · exact checked_stated _ _ 1
      · exact checked_stated _ _ 2
      · exact checked_stated _ _ 4
      · rfl

theorem checked_body (after : Bytes) (len : ℕ) :
    (Checked.body after len : Outcome ε _) =
      .ok ((range after 0 len).map fun body => (body, after.drop len)) := by
  unfold Checked.body
  cases hbody : range after 0 len with
  | none => rfl
  | some body =>
    obtain ⟨rest, rfl, rfl⟩ := range_zero_eq_some.mp hbody
    dsimp only
    rw [slice_back (by rw [List.length_append]; exact Nat.le_add_right _ _)]
    rfl

theorem Header.two_le {tag : UInt8} {len : ℕ} {hd : Bytes} (h : Header tag (some len) hd) :
    2 ≤ hd.length := by
  cases h with
  | one | two | five => simp
  | old kind digits htag hkind hlength =>
    have hpos : 0 < 2 ^ kind.toNat := Nat.pow_pos (by decide)
    rw [List.length_cons, hlength]
    omega

/-- The loop ends within a turn for every two bytes, and with what `packetsWith` says. -/
theorem packetsLoop_eq {turns fuel : ℕ} {out : List Packet} {input : Bytes}
    (h : input.length ≤ 2 * turns) (hfuel : input.length ≤ fuel) :
    (Checked.packetsLoop turns out input : Option (Outcome ε _)) =
      some (.ok (packetsWith fuel out input)) := by
  induction turns generalizing fuel out input with
  | zero =>
    obtain rfl : input = [] := List.length_eq_zero_iff.mp (by omega)
    rw [Checked.packetsLoop, packetsWith]
  | succ turns ih =>
    cases input with
    | nil => rw [Checked.packetsLoop, packetsWith]
    | cons b input =>
      obtain ⟨fuel, rfl⟩ : ∃ n, fuel = n + 1 := Nat.exists_eq_succ_of_ne_zero (by
        rw [List.length_cons] at hfuel
        omega)
      rw [Checked.packetsLoop, packetsWith, checked_header]
      cases hheader : header (b :: input) with
      | none => rfl
      | some parts =>
        obtain ⟨tag, len, after⟩ := parts
        simp only [Option.bind_eq_bind, Option.bind_some]
        by_cases htag : tag = 0
        · rw [if_pos htag, if_pos htag]
        rw [if_neg htag, if_neg htag]
        cases len with
        | none =>
          dsimp only
          split_ifs with hkey
          · rfl
          · rfl
        | some len =>
          dsimp only
          rw [checked_body]
          cases hbody : range after 0 len with
          | none => rfl
          | some body =>
            obtain ⟨hd, hhd, hinput⟩ := header_eq_some.mp hheader
            obtain ⟨rest, rfl, rfl⟩ := range_zero_eq_some.mp hbody
            have htwo := hhd.two_le
            rw [hinput, List.length_append, List.length_append] at h hfuel
            simp only [Option.map_some, Option.bind_some, List.drop_left]
            exact ih (by omega) (by omega)

theorem checked_packets {turns : ℕ} {input : Bytes} (h : input.length ≤ 2 * turns) :
    (Checked.packets turns input : Option (Outcome ε _)) = some (.ok (packets input)) := by
  unfold Checked.packets packets
  rw [packetsLoop_eq h (Nat.le_refl _)]
  rfl

end InRange

/-- The inputs that the walk takes are the sequences of packets, each under a header that the format
has for it, and it gives those packets. It runs out of neither slices nor turns. -/
theorem packets_exact :
    (∀ tag n, (tag < 64 → n ≤ 191 → ∃ l, Header tag (some n) [newOctet tag, l]) ∧
      (tag < 64 → 192 ≤ n → n ≤ 8383 → ∃ l1 l2, Header tag (some n) [newOctet tag, l1, l2]) ∧
      (tag < 64 → n < 2 ^ 32 → ∃ digits, Header tag (some n) (newOctet tag :: 255 :: digits)) ∧
      ∀ kind, tag < 16 → kind < 3 → n < 256 ^ 2 ^ kind.toNat →
        ∃ digits, Header tag (some n) (oldOctet tag kind :: digits)) ∧
    (∀ input ps, packets input = some ps ↔ ps ≠ [] ∧ Sequence ps input) ∧
    (∀ input, (∀ ps, ps ≠ [] → ¬Sequence ps input) → packets input = none) ∧
    (∀ input, (Checked.header input : Outcome Error _) = .ok (header input)) ∧
    ∀ input turns, input.length ≤ 2 * turns →
      (Checked.packets turns input : Option (Outcome Error _)) = some (.ok (packets input)) := by
  refine ⟨header_exists, packets_eq_some, fun input h => ?_, checked_header,
    fun input turns => checked_packets⟩
  cases hps : packets input with
  | none => rfl
  | some ps =>
    obtain ⟨hne, hsequence⟩ := (packets_eq_some input ps).mp hps
    exact absurd hsequence (h ps hne)

-- a message to two keys, and a stream
example : packets [0xc1, 1, 3, 0x84, 1, 3, 0xd2, 0xe1, 1, 7] =
    some [⟨1, some [3], [3]⟩, ⟨1, some [3], [3]⟩, ⟨18, none, [1, 7]⟩] := by decide +kernel

end Krypto.Inspect.Pgp
