import Krypto.Store.Format

/-! The format of a store file: what `load` accepts, that it reads back what
`persist` writes, and when the image of what it read is the file it read. -/

namespace Krypto.Store
open Effect

/-! ## Lengths as bytes -/

theorem fromLe16_le16 {n : Nat} (h : n < 2 ^ 16) :
    fromLe16 (UInt8.ofNat n) (UInt8.ofNat (n / 256)) = n := by
  simp only [fromLe16, UInt8.toNat_ofNat']
  omega

theorem fromLe32_le32 {n : Nat} (h : n < 2 ^ 32) :
    fromLe32 (UInt8.ofNat n) (UInt8.ofNat (n / 256)) (UInt8.ofNat (n / 65536))
      (UInt8.ofNat (n / 16777216)) = n := by
  simp only [fromLe32, UInt8.toNat_ofNat']
  omega

theorem le16_fromLe16 (b0 b1 : UInt8) : le16 (fromLe16 b0 b1) = [b0, b1] := by
  have h0 := b0.toNat_lt
  have h1 := b1.toNat_lt
  have e0 : UInt8.ofNat (fromLe16 b0 b1) = b0 := by
    rw [← UInt8.toNat_inj, UInt8.toNat_ofNat', fromLe16]
    omega
  have e1 : UInt8.ofNat (fromLe16 b0 b1 / 256) = b1 := by
    rw [← UInt8.toNat_inj, UInt8.toNat_ofNat', fromLe16]
    omega
  rw [le16, e0, e1]

theorem le32_fromLe32 (b0 b1 b2 b3 : UInt8) :
    le32 (fromLe32 b0 b1 b2 b3) = [b0, b1, b2, b3] := by
  have h0 := b0.toNat_lt
  have h1 := b1.toNat_lt
  have h2 := b2.toNat_lt
  have h3 := b3.toNat_lt
  have e0 : UInt8.ofNat (fromLe32 b0 b1 b2 b3) = b0 := by
    rw [← UInt8.toNat_inj, UInt8.toNat_ofNat', fromLe32]
    omega
  have e1 : UInt8.ofNat (fromLe32 b0 b1 b2 b3 / 256) = b1 := by
    rw [← UInt8.toNat_inj, UInt8.toNat_ofNat', fromLe32]
    omega
  have e2 : UInt8.ofNat (fromLe32 b0 b1 b2 b3 / 65536) = b2 := by
    rw [← UInt8.toNat_inj, UInt8.toNat_ofNat', fromLe32]
    omega
  have e3 : UInt8.ofNat (fromLe32 b0 b1 b2 b3 / 16777216) = b3 := by
    rw [← UInt8.toNat_inj, UInt8.toNat_ofNat', fromLe32]
    omega
  rw [le32, e0, e1, e2, e3]

theorem fromLe16_lt (b0 b1 : UInt8) : fromLe16 b0 b1 < 2 ^ 16 := by
  have h0 := b0.toNat_lt
  have h1 := b1.toNat_lt
  simp only [fromLe16]
  omega

theorem fromLe32_lt (b0 b1 b2 b3 : UInt8) : fromLe32 b0 b1 b2 b3 < 2 ^ 32 := by
  have h0 := b0.toNat_lt
  have h1 := b1.toNat_lt
  have h2 := b2.toNat_lt
  have h3 := b3.toNat_lt
  simp only [fromLe32]
  omega

/-! ## One entry, read from the front of what is left -/

def truncated {α : Type} (what : String) : Outcome Error α :=
  .err (.format (.text ("store truncated " ++ what)))

/-- What is read as a name from the front of the remaining bytes, and its length there. -/
def parseName : Bytes → Outcome Error (Str × Nat)
  | b0 :: b1 :: rest =>
    if rest.length < fromLe16 b0 b1 then truncated "(name)"
    else do
      let name ← .ofOption (.format "invalid UTF-8 in key name")
        (Str.fromUtf8 (rest.take (fromLe16 b0 b1)))
      validateName name
      .ok (name, 2 + fromLe16 b0 b1)
  | _ => truncated "(name length)"

def parseBlob : Bytes → Outcome Error (Bytes × Nat)
  | b0 :: b1 :: b2 :: b3 :: rest =>
    if rest.length < fromLe32 b0 b1 b2 b3 then truncated "(blob)"
    else .ok (rest.take (fromLe32 b0 b1 b2 b3), 4 + fromLe32 b0 b1 b2 b3)
  | _ => truncated "(blob length)"

section Cursor
variable {front back : Bytes}

theorem usizeAdd_cursor (h : (front ++ back).length < 2 ^ 63) {i n : Nat} (hi : i ≤ back.length)
    (hn : n < 2 ^ 32) :
    (usizeAdd (front.length + i) n : Outcome Error Nat) = .ok (front.length + (i + n)) := by
  rw [List.length_append] at h
  rw [usizeAdd_of_lt (by omega), Nat.add_assoc]

theorem fits_cursor (h : (front ++ back).length < 2 ^ 63) {i n : Nat} (hi : i ≤ back.length)
    (hn : n < 2 ^ 32) :
    fits (front ++ back) (front.length + i) n = decide (n ≤ back.length - i) := by
  rw [List.length_append] at h
  have hadd : front.length + i + n < 2 ^ 64 := by omega
  simp only [fits, checkedAdd, if_pos hadd, List.length_append, decide_eq_decide]
  omega

theorem loadName_append (h : (front ++ back).length < 2 ^ 63) :
    loadName (front ++ back) front.length =
      (parseName back >>= fun e => .ok (e.1, front.length + e.2)) := by
  have hadd0 {n : Nat} (hn : n < 2 ^ 32) := usizeAdd_cursor h (Nat.zero_le _) hn
  have hindex0 : (index (front ++ back) front.length : Outcome Error UInt8) = index back 0 :=
    index_append front back 0
  simp only [Nat.add_zero, Nat.zero_add] at hadd0
  unfold loadName
  simp only [hadd0 (n := 2) (by decide), Outcome.ok_bind, List.length_append,
    Nat.add_lt_add_iff_left]
  match back, h with
  | [], _ => rfl
  | [_], _ => rfl
  | b0 :: b1 :: rest, h =>
    have h2 : ¬(b0 :: b1 :: rest).length < 2 := by simp
    have hn : fromLe16 b0 b1 < 2 ^ 32 := Nat.lt_trans (fromLe16_lt b0 b1) (by decide)
    have hadd := usizeAdd_cursor h (i := 2) (by simp) hn
    have hfit := fits_cursor h (i := 2) (by simp) hn
    have e0 : (index (b0 :: b1 :: rest) 0 : Outcome Error UInt8) = .ok b0 := rfl
    have e1 : (index (b0 :: b1 :: rest) 1 : Outcome Error UInt8) = .ok b1 := rfl
    simp only [if_neg h2, hindex0, e0, hadd0 (n := 1) (by decide), index_append, e1,
      Outcome.ok_bind, hfit, hadd, slice_append, decide_eq_true_eq, parseName]
    by_cases hfits : rest.length < fromLe16 b0 b1
    · have hnot : ¬fromLe16 b0 b1 ≤ (b0 :: b1 :: rest).length - 2 := Nat.not_le.mpr hfits
      rw [if_pos hnot, if_pos hfits]
      rfl
    · have hle : ¬¬fromLe16 b0 b1 ≤ (b0 :: b1 :: rest).length - 2 :=
        not_not_intro (Nat.le_of_not_lt hfits)
      have hslice : (slice (b0 :: b1 :: rest) 2 (2 + fromLe16 b0 b1) : Outcome Error Bytes) =
          .ok (rest.take (fromLe16 b0 b1)) := by
        rw [slice_of_le (Nat.le_add_right _ _) (by simp only [List.length_cons]; omega),
          Nat.add_sub_cancel_left]
        rfl
      rw [if_neg hle, if_neg hfits, hslice, Outcome.ok_bind]
      cases Str.fromUtf8 (rest.take (fromLe16 b0 b1)) with
      | none => rfl
      | some name => rcases validateName_cases name with hv | ⟨m, hv⟩ <;> simp [hv]

theorem loadBlob_append (h : (front ++ back).length < 2 ^ 63) :
    loadBlob (front ++ back) front.length =
      (parseBlob back >>= fun e => .ok (e.1, front.length + e.2)) := by
  have hadd0 {n : Nat} (hn : n < 2 ^ 32) := usizeAdd_cursor h (Nat.zero_le _) hn
  have hindex0 : (index (front ++ back) front.length : Outcome Error UInt8) = index back 0 :=
    index_append front back 0
  simp only [Nat.add_zero, Nat.zero_add] at hadd0
  unfold loadBlob
  simp only [hadd0 (n := 4) (by decide), Outcome.ok_bind, List.length_append,
    Nat.add_lt_add_iff_left]
  -- the length is four bytes: fewer are refused before any is read
  match back, h with
  | [], _ => rfl
  | [_], _ => rfl
  | [_, _], _ => rfl
  | [_, _, _], _ => rfl
  | b0 :: b1 :: b2 :: b3 :: rest, h =>
    have h4 : ¬(b0 :: b1 :: b2 :: b3 :: rest).length < 4 := by simp
    have hn := fromLe32_lt b0 b1 b2 b3
    have hadd := usizeAdd_cursor h (i := 4) (by simp) hn
    have hfit := fits_cursor h (i := 4) (by simp) hn
    have e0 : (index (b0 :: b1 :: b2 :: b3 :: rest) 0 : Outcome Error UInt8) = .ok b0 := rfl
    have e1 : (index (b0 :: b1 :: b2 :: b3 :: rest) 1 : Outcome Error UInt8) = .ok b1 := rfl
    have e2 : (index (b0 :: b1 :: b2 :: b3 :: rest) 2 : Outcome Error UInt8) = .ok b2 := rfl
    have e3 : (index (b0 :: b1 :: b2 :: b3 :: rest) 3 : Outcome Error UInt8) = .ok b3 := rfl
    simp only [if_neg h4, hindex0, e0, hadd0 (n := 1) (by decide), hadd0 (n := 2) (by decide),
      hadd0 (n := 3) (by decide), index_append, e1, e2, e3, Outcome.ok_bind, hfit, hadd,
      slice_append, decide_eq_true_eq, parseBlob]
    by_cases hfits : rest.length < fromLe32 b0 b1 b2 b3
    · have hnot : ¬fromLe32 b0 b1 b2 b3 ≤ (b0 :: b1 :: b2 :: b3 :: rest).length - 4 :=
        Nat.not_le.mpr hfits
      rw [if_pos hnot, if_pos hfits]
      rfl
    · have hle : ¬¬fromLe32 b0 b1 b2 b3 ≤ (b0 :: b1 :: b2 :: b3 :: rest).length - 4 :=
        not_not_intro (Nat.le_of_not_lt hfits)
      have hslice : (slice (b0 :: b1 :: b2 :: b3 :: rest) 4 (4 + fromLe32 b0 b1 b2 b3) :
          Outcome Error Bytes) = .ok (rest.take (fromLe32 b0 b1 b2 b3)) := by
        rw [slice_of_le (Nat.le_add_right _ _) (by simp only [List.length_cons]; omega),
          Nat.add_sub_cancel_left]
        rfl
      rw [if_neg hle, if_neg hfits, hslice]
      rfl

end Cursor

/-! ## One entry, written and read -/

structure Writable (e : Str × Bytes) : Prop where
  name : ValidName e.1
  blob : e.2.length < 2 ^ 32

def nameBytes (name : Str) : Bytes := le16 (name.asBytes.length % 2 ^ 16) ++ name.asBytes

def blobBytes (blob : Bytes) : Bytes := le32 blob.length ++ blob

def entryOf (e : Str × Bytes) : Bytes := nameBytes e.1 ++ blobBytes e.2

theorem entryBytes_eq (name : Str) (blob : Bytes) :
    entryBytes name blob.length blob = entryOf (name, blob) := by
  simp only [entryBytes, entryOf, nameBytes, blobBytes, List.append_assoc]

theorem ValidName.nameBytes_length {name : Str} (h : ValidName name) :
    name.asBytes.length % 2 ^ 16 = name.asBytes.length := by
  have hle : name.length ≤ 512 := h.length_le
  rw [h.asBytes_length]
  exact Nat.mod_eq_of_lt (by omega)

theorem parseName_nameBytes {name : Str} (h : ValidName name) (back : Bytes) :
    parseName (nameBytes name ++ back) = .ok (name, (nameBytes name).length) := by
  have hlt : name.asBytes.length < 2 ^ 16 := by
    rw [← h.nameBytes_length]
    exact Nat.mod_lt _ (by decide)
  have hfit : ¬(name.asBytes ++ back).length < name.asBytes.length := by simp
  rw [nameBytes, h.nameBytes_length]
  simp only [le16, List.cons_append, List.nil_append, parseName, fromLe16_le16 hlt, if_neg hfit,
    List.take_left, Str.fromUtf8_asBytes, Outcome.ofOption_some, Outcome.ok_bind,
    validateName_eq_ok.mpr h, List.length_cons]
  rw [Nat.add_comm]

theorem parseBlob_blobBytes {blob : Bytes} (h : blob.length < 2 ^ 32) (back : Bytes) :
    parseBlob (blobBytes blob ++ back) = .ok (blob, (blobBytes blob).length) := by
  have hfit : ¬(blob ++ back).length < blob.length := by simp
  simp only [blobBytes, le32, List.cons_append, List.nil_append, parseBlob, fromLe32_le32 h,
    if_neg hfit, List.take_left, List.length_cons]
  rw [Nat.add_comm]

theorem parseName_cases (data : Bytes) :
    (∃ m, parseName data = .err (.format m)) ∨
      ∃ name back, ValidName name ∧ data = nameBytes name ++ back ∧
        parseName data = .ok (name, (nameBytes name).length) := by
  match data with
  | [] => exact Or.inl ⟨_, rfl⟩
  | [_] => exact Or.inl ⟨_, rfl⟩
  | b0 :: b1 :: rest =>
    simp only [parseName]
    split_ifs with hfit
    · exact Or.inl ⟨_, rfl⟩
    cases hname : Str.fromUtf8 (rest.take (fromLe16 b0 b1)) with
    | none => exact Or.inl ⟨_, rfl⟩
    | some name =>
      rcases validateName_cases name with hv | ⟨m, hv⟩
      · right
        have hvalid := validateName_eq_ok.mp hv
        have hbytes : rest.take (fromLe16 b0 b1) = name.asBytes := Str.fromUtf8_eq_some.mp hname
        have hlen : name.asBytes.length = fromLe16 b0 b1 := by
          rw [← hbytes, List.length_take, Nat.min_eq_left (Nat.le_of_not_lt hfit)]
        have hnb : nameBytes name = b0 :: b1 :: name.asBytes := by
          rw [nameBytes, hvalid.nameBytes_length, hlen, le16_fromLe16]
          rfl
        refine ⟨name, rest.drop (fromLe16 b0 b1), hvalid, ?_, ?_⟩
        · rw [hnb, List.cons_append, List.cons_append, ← hbytes, List.take_append_drop]
        · simp only [Outcome.ofOption_some, Outcome.ok_bind, hv, hnb, List.length_cons, hlen]
          rw [Nat.add_comm]
      · exact Or.inl ⟨m, by simp [hv]⟩

theorem parseBlob_cases (data : Bytes) :
    (∃ m, parseBlob data = .err (.format m)) ∨
      ∃ blob back, blob.length < 2 ^ 32 ∧ data = blobBytes blob ++ back ∧
        parseBlob data = .ok (blob, (blobBytes blob).length) := by
  match data with
  | [] => exact Or.inl ⟨_, rfl⟩
  | [_] => exact Or.inl ⟨_, rfl⟩
  | [_, _] => exact Or.inl ⟨_, rfl⟩
  | [_, _, _] => exact Or.inl ⟨_, rfl⟩
  | b0 :: b1 :: b2 :: b3 :: rest =>
    simp only [parseBlob]
    split_ifs with hfit
    · exact Or.inl ⟨_, rfl⟩
    · right
      have hlen : (rest.take (fromLe32 b0 b1 b2 b3)).length = fromLe32 b0 b1 b2 b3 := by
        rw [List.length_take, Nat.min_eq_left (Nat.le_of_not_lt hfit)]
      have hbb : blobBytes (rest.take (fromLe32 b0 b1 b2 b3)) =
          b0 :: b1 :: b2 :: b3 :: rest.take (fromLe32 b0 b1 b2 b3) := by
        rw [blobBytes, hlen, le32_fromLe32]
        rfl
      refine ⟨_, rest.drop (fromLe32 b0 b1 b2 b3), hlen ▸ fromLe32_lt b0 b1 b2 b3, ?_, ?_⟩
      · rw [hbb]
        simp only [List.cons_append, List.take_append_drop]
      · rw [hbb]
        simp only [List.length_cons, hlen]
        rw [Nat.add_comm]

section Loop
variable {front back : Bytes}

theorem loadEntry_entryOf {e : Str × Bytes} (he : Writable e)
    (h : (front ++ (entryOf e ++ back)).length < 2 ^ 63) :
    loadEntry (front ++ (entryOf e ++ back)) front.length =
      .ok (e.1, e.2, (front ++ entryOf e).length) := by
  have hshift : front ++ (entryOf e ++ back) =
      (front ++ nameBytes e.1) ++ (blobBytes e.2 ++ back) := by
    simp only [entryOf, List.append_assoc]
  have hlen : (front ++ nameBytes e.1).length = front.length + (nameBytes e.1).length :=
    List.length_append
  have hname := loadName_append h
  rw [entryOf, List.append_assoc, parseName_nameBytes he.name, ← List.append_assoc (nameBytes e.1),
    ← entryOf] at hname
  rw [hshift] at h
  have hblob := loadBlob_append h
  rw [parseBlob_blobBytes he.blob, ← hshift, hlen] at hblob
  have hstop : (front ++ entryOf e).length =
      front.length + (nameBytes e.1).length + (blobBytes e.2).length := by
    rw [entryOf, List.length_append, List.length_append, Nat.add_assoc]
  simp only [loadEntry, hname, hblob, Outcome.ok_bind, hstop]

theorem loadEntry_cases (h : (front ++ back).length < 2 ^ 63) :
    (∃ m, loadEntry (front ++ back) front.length = .err (.format m)) ∨
      ∃ e rest, Writable e ∧ back = entryOf e ++ rest := by
  have hname := loadName_append h
  rcases parseName_cases back with ⟨m, hm⟩ | ⟨name, back', hvalid, rfl, hp⟩
  · exact Or.inl ⟨m, by simp [loadEntry, hname, hm]⟩
  rw [hp, Outcome.ok_bind] at hname
  have hshift : front ++ (nameBytes name ++ back') = (front ++ nameBytes name) ++ back' :=
    (List.append_assoc _ _ _).symm
  have hblob := loadBlob_append (hshift ▸ h)
  rw [← hshift, List.length_append] at hblob
  rcases parseBlob_cases back' with ⟨m, hm⟩ | ⟨blob, rest, hlt, rfl, -⟩
  · exact Or.inl ⟨m, by simp [loadEntry, hname, hblob, hm]⟩
  · refine Or.inr ⟨(name, blob), rest, ⟨hvalid, hlt⟩, ?_⟩
    rw [entryOf, List.append_assoc]

theorem loadEntries_eq (data : Bytes) (off : Nat) (entries : Entries) :
    loadEntries data off entries =
      if off < data.length then
        loadEntry data off >>= fun e =>
          if e.1 ∈ entries then .err (.format "duplicate key name in store")
          else loadEntries data e.2.2 (entries.insert e.1 e.2.1)
      else .ok entries := by
  rw [loadEntries]
  split_ifs with h
  · split <;> rename_i he <;> simp only [he] <;> rfl
  · rfl

def insertAll (entries : Entries) (es : List (Str × Bytes)) : Entries :=
  es.foldl (fun m e => m.insert e.1 e.2) entries

def Fresh (entries : Entries) : List (Str × Bytes) → Prop
  | [] => True
  | e :: es => e.1 ∉ entries ∧ Fresh (entries.insert e.1 e.2) es

theorem loadEntries_flatMap {es : List (Str × Bytes)} {entries : Entries}
    (hw : ∀ e ∈ es, Writable e) (hf : Fresh entries es)
    (h : (front ++ es.flatMap entryOf).length < 2 ^ 63) :
    loadEntries (front ++ es.flatMap entryOf) front.length entries =
      .ok (insertAll entries es) := by
  induction es generalizing front entries with
  | nil =>
    rw [loadEntries_eq, if_neg (by simp)]
    rfl
  | cons e es ih =>
    rw [List.flatMap_cons] at h ⊢
    have hpos : front.length < (front ++ (entryOf e ++ es.flatMap entryOf)).length := by
      simp [entryOf, nameBytes, le16]
    have hshift : front ++ (entryOf e ++ es.flatMap entryOf) =
        (front ++ entryOf e) ++ es.flatMap entryOf := (List.append_assoc _ _ _).symm
    rw [loadEntries_eq, if_pos hpos, loadEntry_entryOf (hw e List.mem_cons_self) h,
      Outcome.ok_bind]
    dsimp only
    rw [if_neg hf.1, hshift,
      ih (fun e' he' => hw e' (List.mem_cons_of_mem _ he')) hf.2 (hshift ▸ h)]
    rfl

/-- Whatever the loop is given, it reads a list of entries with new names or answers `Format`. -/
theorem loadEntries_cases (entries : Entries) (h : (front ++ back).length < 2 ^ 63) :
    (∃ m, loadEntries (front ++ back) front.length entries = .err (.format m)) ∨
      ∃ es, back = es.flatMap entryOf ∧ (∀ e ∈ es, Writable e) ∧ Fresh entries es := by
  induction hn : back.length using Nat.strong_induction_on generalizing front back entries with
  | _ n ih =>
    rw [loadEntries_eq]
    by_cases hpos : front.length < (front ++ back).length
    swap
    · have hnil : back = [] := by
        rw [List.length_append] at hpos
        exact List.length_eq_zero_iff.mp (by omega)
      exact Or.inr ⟨[], hnil, by simp, trivial⟩
    rw [if_pos hpos]
    rcases loadEntry_cases h with ⟨m, hm⟩ | ⟨e, rest, he, rfl⟩
    · exact Or.inl ⟨m, by rw [hm, Outcome.err_bind]⟩
    rw [loadEntry_entryOf he h, Outcome.ok_bind]
    dsimp only
    by_cases hdup : e.1 ∈ entries
    · exact Or.inl ⟨_, if_pos hdup⟩
    have hshift : front ++ (entryOf e ++ rest) = (front ++ entryOf e) ++ rest :=
      (List.append_assoc _ _ _).symm
    have hlt : rest.length < n := by
      rw [← hn]
      simp [entryOf, nameBytes, le16]
      omega
    rw [if_neg hdup, hshift]
    rcases ih _ hlt _ (hshift ▸ h) rfl with hm | ⟨es, rfl, hw, hf⟩
    · exact Or.inl hm
    · refine Or.inr ⟨e :: es, by rw [List.flatMap_cons], ?_, hdup, hf⟩
      intro e' he'
      rcases List.mem_cons.mp he' with rfl | he'
      · exact he
      · exact hw e' he'

end Loop

end Krypto.Store
