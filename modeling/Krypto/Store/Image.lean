import Krypto.Store.Codec

/-! Whole store files: the image of given contents, in the order of the names
whatever the order of the map, and what `load` makes of any byte string. -/

namespace Krypto.Store
open Effect

/-! ## Maps by what they answer -/

/-- Two maps with the same entries, in any order. -/
def Same (a b : Entries) : Prop := ∀ n, a.lookup n = b.lookup n

theorem Same.refl (a : Entries) : Same a a := fun _ => rfl

theorem Same.symm {a b : Entries} (h : Same a b) : Same b a := fun n => (h n).symm

theorem Same.trans {a b c : Entries} (h : Same a b) (h' : Same b c) : Same a c :=
  fun n => (h n).trans (h' n)

theorem Same.mem {a b : Entries} (h : Same a b) {n : Str} : n ∈ a ↔ n ∈ b := by
  rw [← AList.lookup_isSome, h n, AList.lookup_isSome]

theorem Same.keys {a b : Entries} (h : Same a b) : a.keys.Perm b.keys := by
  refine (List.perm_ext_iff_of_nodup a.keys_nodup b.keys_nodup).mpr fun n => ?_
  rw [← AList.mem_keys, h.mem, AList.mem_keys]

theorem same_insert_insert {a : Entries} {n : Str} {old : Bytes} (h : a.lookup n = some old)
    (blob : Bytes) : Same ((a.insert n blob).insert n old) a := by
  intro m
  by_cases hm : m = n
  · rw [hm, AList.lookup_insert, h]
  · rw [AList.lookup_insert_ne hm, AList.lookup_insert_ne hm]

theorem same_erase_insert {a : Entries} {n : Str} (h : a.lookup n = none) (blob : Bytes) :
    Same ((a.insert n blob).erase n) a := by
  intro m
  by_cases hm : m = n
  · rw [hm, AList.lookup_erase, h]
  · rw [AList.lookup_erase_ne hm, AList.lookup_insert_ne hm]

/-- Undoing an insert, whatever stood there. -/
theorem same_rolled (a : Entries) (n : Str) (blob : Bytes) :
    Same (match a.lookup n with
      | some old => (a.insert n blob).insert n old
      | none => (a.insert n blob).erase n) a := by
  cases hold : a.lookup n with
  | some old => exact same_insert_insert hold blob
  | none => exact same_erase_insert hold blob

theorem same_insert_erase {a : Entries} {n : Str} {old : Bytes} (h : a.lookup n = some old) :
    Same ((a.erase n).insert n old) a := by
  intro m
  by_cases hm : m = n
  · rw [hm, AList.lookup_insert, h]
  · rw [AList.lookup_insert_ne hm, AList.lookup_erase_ne hm]

theorem fresh_iff {entries : Entries} {es : List (Str × Bytes)} :
    Fresh entries es ↔ (es.map Prod.fst).Nodup ∧ ∀ e ∈ es, e.1 ∉ entries := by
  induction es generalizing entries with
  | nil => simp [Fresh]
  | cons e es ih =>
    simp only [Fresh, ih, List.map_cons, List.nodup_cons, List.mem_map, List.mem_cons,
      AList.mem_insert, not_or]
    constructor
    · rintro ⟨he, hn, hes⟩
      refine ⟨⟨?_, hn⟩, ?_⟩
      · rintro ⟨e', he', heq⟩
        exact (hes e' he').1 heq
      · rintro e' (rfl | he')
        · exact he
        · exact (hes e' he').2
    · rintro ⟨⟨hno, hn⟩, hes⟩
      refine ⟨hes e (Or.inl rfl), hn, fun e' he' => ⟨fun heq => hno ⟨e', he', heq⟩, ?_⟩⟩
      exact hes e' (Or.inr he')

theorem fresh_empty {es : List (Str × Bytes)} : Fresh ∅ es ↔ (es.map Prod.fst).Nodup := by
  rw [fresh_iff]
  exact and_iff_left fun e _ => AList.notMem_empty e.1

theorem lookup_insertAll {entries : Entries} {es : List (Str × Bytes)} (h : Fresh entries es)
    (n : Str) (b : Bytes) :
    (insertAll entries es).lookup n = some b ↔ (n, b) ∈ es ∨ entries.lookup n = some b := by
  induction es generalizing entries with
  | nil => simp [insertAll]
  | cons e es ih =>
    rw [insertAll, List.foldl_cons, ← insertAll, ih h.2, List.mem_cons]
    by_cases hn : n = e.1
    · subst hn
      have hnone : entries.lookup e.1 = none := AList.lookup_eq_none.mpr h.1
      have hpair : (e.1, b) = e ↔ e.2 = b := by
        constructor
        · intro he
          rw [← he]
        · rintro rfl
          rfl
      rw [AList.lookup_insert, hnone, hpair, Option.some.injEq]
      tauto
    · have hne : (n, b) ≠ e := fun he => hn (by rw [← he])
      rw [AList.lookup_insert_ne hn]
      tauto

/-! ## The image -/

def listing (entries : Entries) : List (Str × Bytes) :=
  (Str.sort entries.keys).filterMap fun n => (entries.lookup n).map (Prod.mk n)

theorem mem_listing {entries : Entries} {n : Str} {b : Bytes} :
    (n, b) ∈ listing entries ↔ entries.lookup n = some b := by
  simp only [listing, List.mem_filterMap, Str.mem_sort, Option.map_eq_some_iff, Prod.mk.injEq]
  constructor
  · rintro ⟨m, -, c, hc, rfl, rfl⟩
    exact hc
  · intro h
    refine ⟨n, ?_, b, h, rfl, rfl⟩
    rw [← AList.mem_keys, ← AList.lookup_isSome, h]
    rfl

theorem listing_names (entries : Entries) :
    (listing entries).map Prod.fst = Str.sort entries.keys := by
  have hall : ∀ n ∈ Str.sort entries.keys, ∃ b, entries.lookup n = some b := by
    intro n hn
    rw [Str.mem_sort, ← AList.mem_keys, ← AList.lookup_isSome] at hn
    exact Option.isSome_iff_exists.mp hn
  rw [listing, List.map_filterMap]
  generalize Str.sort entries.keys = names at hall
  induction names with
  | nil => rfl
  | cons n names ih =>
    obtain ⟨b, hb⟩ := hall n List.mem_cons_self
    have htail := ih fun m hm => hall m (List.mem_cons_of_mem _ hm)
    rw [List.filterMap_cons, hb]
    simpa using htail

theorem listing_ascending (entries : Entries) :
    ((listing entries).map Prod.fst).Pairwise Str.Lt := by
  rw [listing_names]
  exact Str.sort_ascending entries.keys_nodup

theorem listing_nodup (entries : Entries) : ((listing entries).map Prod.fst).Nodup := by
  rw [listing_names, (Str.perm_sort _).nodup_iff]
  exact entries.keys_nodup

theorem listing_congr {a b : Entries} (h : Same a b) : listing a = listing b := by
  rw [listing, listing, Str.sort_congr h.keys]
  exact List.filterMap_congr fun n _ => by rw [h n]

/-- A list of entries in ascending order of names is the listing of its map. -/
theorem listing_insertAll {es : List (Str × Bytes)}
    (h : (es.map Prod.fst).Pairwise Str.Lt) : listing (insertAll ∅ es) = es := by
  have hnodup : (es.map Prod.fst).Nodup := h.imp fun hlt => (Str.lt_iff.mp hlt).2
  have hlookup := lookup_insertAll (fresh_empty.mpr hnodup)
  have hsort : Str.sort (insertAll ∅ es).keys = es.map Prod.fst := by
    refine Str.sort_eq h ((List.perm_ext_iff_of_nodup hnodup (AList.keys_nodup _)).mpr fun n => ?_)
    rw [← AList.mem_keys, ← AList.lookup_isSome, Option.isSome_iff_exists, List.mem_map]
    constructor
    · rintro ⟨e, he, rfl⟩
      exact ⟨e.2, (hlookup _ _).mpr (Or.inl he)⟩
    · rintro ⟨b, hb⟩
      rcases (hlookup _ _).mp hb with he | he
      · exact ⟨_, he, rfl⟩
      · rw [AList.lookup_empty] at he
        cases he
  rw [listing, hsort, List.filterMap_map]
  refine (List.filterMap_congr fun e he => ?_).trans List.filterMap_some
  show Option.map (Prod.mk e.1) _ = some e
  rw [(hlookup e.1 e.2).mpr (Or.inl he)]
  rfl

def header (salt keyId : Fixed 16) : Bytes :=
  STORE_MAGIC ++ [STORE_VER] ++ salt.toList ++ keyId.toList

theorem header_length (salt keyId : Fixed 16) : (header salt keyId).length = HEADER_LEN := by
  simp [header, STORE_MAGIC, HEADER_LEN]

def Small (entries : Entries) : Prop := ∀ n b, entries.lookup n = some b → b.length < 2 ^ 32

theorem appendEntries_of_small {entries : Entries} {names : List Str} {buf : Bytes}
    (hmem : ∀ n ∈ names, n ∈ entries)
    (hsmall : ∀ n ∈ names, ∀ b, entries.lookup n = some b → b.length < 2 ^ 32) :
    appendEntries entries names buf =
      .ok (buf ++ (names.filterMap fun n => (entries.lookup n).map (Prod.mk n)).flatMap entryOf) := by
  induction names generalizing buf with
  | nil => simp [appendEntries]
  | cons n names ih =>
    obtain ⟨b, hb⟩ := Option.isSome_iff_exists.mp
      (AList.lookup_isSome.mpr (hmem n List.mem_cons_self))
    have hlt := hsmall n List.mem_cons_self b hb
    have htail := @ih (buf ++ entryBytes n b.length b)
      (fun m hm => hmem m (List.mem_cons_of_mem _ hm))
      fun m hm => hsmall m (List.mem_cons_of_mem _ hm)
    rw [entryBytes_eq, List.append_assoc] at htail
    simp only [appendEntries, hb, u32TryFrom, if_pos hlt, Outcome.ok_bind, List.filterMap_cons,
      Option.map_some, List.flatMap_cons]
    rwa [entryBytes_eq]

theorem appendEntries_of_big {entries : Entries} {names : List Str} {buf : Bytes}
    (hmem : ∀ n ∈ names, n ∈ entries)
    (hbig : ∃ n ∈ names, ∃ b, entries.lookup n = some b ∧ ¬b.length < 2 ^ 32) :
    appendEntries entries names buf = .err (.format "blob too big for the store format") := by
  induction names generalizing buf with
  | nil =>
    obtain ⟨n, hn, -⟩ := hbig
    exact absurd hn List.not_mem_nil
  | cons n names ih =>
    obtain ⟨b, hb⟩ := Option.isSome_iff_exists.mp
      (AList.lookup_isSome.mpr (hmem n List.mem_cons_self))
    by_cases hlt : b.length < 2 ^ 32
    · obtain ⟨m, hm, b', hb', hbig'⟩ := hbig
      have hmn : m ∈ names := by
        rcases List.mem_cons.mp hm with rfl | hm
        · rw [hb, Option.some.injEq] at hb'
          exact absurd (hb' ▸ hlt) hbig'
        · exact hm
      simp only [appendEntries, hb, u32TryFrom, if_pos hlt, Outcome.ok_bind]
      exact ih (fun k hk => hmem k (List.mem_cons_of_mem _ hk)) ⟨m, hmn, b', hb', hbig'⟩
    · simp only [appendEntries, hb, u32TryFrom, if_neg hlt]
      rfl

theorem mem_of_mem_sort {entries : Entries} : ∀ n ∈ Str.sort entries.keys, n ∈ entries :=
  fun _ hn => AList.mem_keys.mpr (Str.mem_sort.mp hn)

theorem image_of_small {c : Contents} (h : Small c.entries) :
    image c = .ok (header c.salt c.keyId ++ (listing c.entries).flatMap entryOf) :=
  appendEntries_of_small mem_of_mem_sort fun n _ b hb => h n b hb

theorem image_of_not_small {c : Contents} (h : ¬Small c.entries) :
    image c = .err (.format "blob too big for the store format") := by
  refine appendEntries_of_big mem_of_mem_sort ?_
  simp only [Small, not_forall] at h
  obtain ⟨n, b, hb, hbig⟩ := h
  refine ⟨n, Str.mem_sort.mpr (AList.mem_keys.mp ?_), b, hb, hbig⟩
  rw [← AList.lookup_isSome, hb]
  rfl

theorem small_of_image {c : Contents} {d : Bytes} (h : image c = .ok d) :
    Small c.entries ∧ d = header c.salt c.keyId ++ (listing c.entries).flatMap entryOf := by
  by_cases hs : Small c.entries
  · rw [image_of_small hs] at h
    exact ⟨hs, (Outcome.ok.inj h).symm⟩
  · rw [image_of_not_small hs] at h
    cases h

structure Contents.Same (a b : Contents) : Prop where
  salt : a.salt = b.salt
  keyId : a.keyId = b.keyId
  entries : Store.Same a.entries b.entries

theorem Contents.Same.refl (c : Contents) : c.Same c := ⟨rfl, rfl, Store.Same.refl _⟩

theorem Contents.Same.symm {a b : Contents} (h : a.Same b) : b.Same a :=
  ⟨h.salt.symm, h.keyId.symm, h.entries.symm⟩

theorem Contents.Same.trans {a b c : Contents} (h : a.Same b) (h' : b.Same c) : a.Same c :=
  ⟨h.salt.trans h'.salt, h.keyId.trans h'.keyId, h.entries.trans h'.entries⟩

theorem image_congr {a b : Contents} (h : a.Same b) : image a = image b := by
  by_cases hs : Small a.entries
  · have hs' : Small b.entries := fun n x hx => hs n x ((h.entries n).trans hx)
    rw [image_of_small hs, image_of_small hs', h.salt, h.keyId, listing_congr h.entries]
  · have hs' : ¬Small b.entries := fun hs' => hs fun n x hx => hs' n x ((h.entries n).symm.trans hx)
    rw [image_of_not_small hs, image_of_not_small hs']

/-! ## Loading -/

theorem load_header (salt keyId : Fixed 16) (back : Bytes) :
    load (header salt keyId ++ back) =
      (loadEntries (header salt keyId ++ back) (header salt keyId).length ∅ >>= fun entries =>
        .ok ⟨salt, keyId, entries⟩) := by
  have hlen : ¬(header salt keyId ++ back).length < HEADER_LEN := by
    rw [List.length_append, header_length]
    exact Nat.not_lt.mpr (Nat.le_add_right _ _)
  have hmagic : (slice (header salt keyId ++ back) 0 4 : Outcome Error Bytes) = .ok STORE_MAGIC := by
    rw [slice_of_le (by decide) (Nat.le_trans (by decide) (Nat.le_of_not_lt hlen))]
    simp [header, STORE_MAGIC]
  have hver : (index (header salt keyId ++ back) 4 : Outcome Error UInt8) = .ok STORE_VER := by
    simp [header, STORE_MAGIC, index]
  have hsalt : copy16 (header salt keyId ++ back) 5 (5 + 16) = .ok salt := by
    have hs : (slice (header salt keyId ++ back) 5 (5 + 16) : Outcome Error Bytes) =
        .ok salt.toList := by
      rw [slice_of_le (by decide) (Nat.le_trans (by decide) (Nat.le_of_not_lt hlen))]
      simp [header, STORE_MAGIC, List.take_left' salt.length_eq]
    rw [copy16, hs, Outcome.ok_bind, dif_pos salt.length_eq]
  have hkey : copy16 (header salt keyId ++ back) (5 + 16) HEADER_LEN = .ok keyId := by
    have hfront : (STORE_MAGIC ++ [STORE_VER] ++ salt.toList).length = 21 := by
      simp [STORE_MAGIC]
    have hs : (slice (header salt keyId ++ back) (5 + 16) HEADER_LEN : Outcome Error Bytes) =
        .ok keyId.toList := by
      rw [slice_of_le (by decide) (Nat.le_of_not_lt hlen), header, List.append_assoc,
        List.drop_left' hfront]
      exact congrArg Outcome.ok (List.take_left' keyId.length_eq)
    rw [copy16, hs, Outcome.ok_bind, dif_pos keyId.length_eq]
  have hm : ¬STORE_MAGIC ≠ STORE_MAGIC := not_not_intro rfl
  have hv : ¬STORE_VER ≠ STORE_VER := not_not_intro rfl
  simp only [load, if_neg hlen, hmagic, hver, hsalt, hkey, Outcome.ok_bind, if_neg hm, if_neg hv,
    header_length]

theorem header_of {d : Bytes} (hlen : HEADER_LEN ≤ d.length) (hmagic : d.take 4 = STORE_MAGIC)
    (hver : d[4]? = some STORE_VER) : ∃ salt keyId, d = header salt keyId ++ d.drop HEADER_LEN := by
  have h37 : 37 ≤ d.length := hlen
  have hsalt : ((d.drop 5).take 16).length = 16 := by
    rw [List.length_take, List.length_drop]
    omega
  have hkey : ((d.drop 21).take 16).length = 16 := by
    rw [List.length_take, List.length_drop]
    omega
  refine ⟨⟨_, hsalt⟩, ⟨_, hkey⟩, ?_⟩
  obtain ⟨h4, hver⟩ := List.getElem?_eq_some_iff.mp hver
  have h1 : d.drop 4 = STORE_VER :: d.drop 5 := by
    rw [List.drop_eq_getElem_cons h4, hver]
  have h2 : (d.drop 5).drop 16 = d.drop 21 := List.drop_drop
  have h3 : (d.drop 21).drop 16 = d.drop 37 := List.drop_drop
  calc d = d.take 4 ++ d.drop 4 := (List.take_append_drop 4 d).symm
    _ = STORE_MAGIC ++ STORE_VER :: d.drop 5 := by rw [hmagic, h1]
    _ = STORE_MAGIC ++ STORE_VER :: ((d.drop 5).take 16 ++ ((d.drop 21).take 16 ++ d.drop 37)) := by
      rw [← h3, List.take_append_drop, ← h2, List.take_append_drop]
    _ = header ⟨_, hsalt⟩ ⟨_, hkey⟩ ++ d.drop HEADER_LEN := by
      simp only [header, List.append_assoc, List.cons_append, List.nil_append, HEADER_LEN]

theorem load_header_cases (d : Bytes) :
    (∃ m, load d = .err (.format m)) ∨ ∃ salt keyId back, d = header salt keyId ++ back := by
  by_cases hlen : d.length < HEADER_LEN
  · exact Or.inl ⟨_, if_pos hlen⟩
  have hle : HEADER_LEN ≤ d.length := Nat.le_of_not_lt hlen
  have hslice : (slice d 0 4 : Outcome Error Bytes) = .ok (d.take 4) := by
    rw [slice_of_le (by decide) (Nat.le_trans (by decide) hle)]
    rfl
  have h4 : 4 < d.length := Nat.lt_of_lt_of_le (by decide) hle
  by_cases hmagic : d.take 4 = STORE_MAGIC
  swap
  · exact Or.inl ⟨_, by simp only [load, if_neg hlen, hslice, Outcome.ok_bind, if_pos hmagic]; rfl⟩
  by_cases hver : d[4] = STORE_VER
  swap
  · refine Or.inl ⟨s!"unsupported store version {d[4].toNat}", ?_⟩
    simp only [load, if_neg hlen, hslice, Outcome.ok_bind, hmagic, ne_eq, not_true_eq_false,
      if_false, index_of_lt h4, if_pos hver]
  obtain ⟨salt, keyId, hd⟩ := header_of hle hmagic (List.getElem?_eq_some_iff.mpr ⟨h4, hver⟩)
  exact Or.inr ⟨salt, keyId, _, hd⟩

/-- What `load` makes of a byte string: entries with different names after a header,
or `Format`. -/
theorem load_cases {d : Bytes} (h : d.length < 2 ^ 63) :
    (∃ m, load d = .err (.format m)) ∨
      ∃ (salt keyId : Fixed 16) (es : List (Str × Bytes)),
        d = header salt keyId ++ es.flatMap entryOf ∧ (∀ e ∈ es, Writable e) ∧
          (es.map Prod.fst).Nodup := by
  rcases load_header_cases d with hm | ⟨salt, keyId, back, rfl⟩
  · exact Or.inl hm
  · rcases loadEntries_cases ∅ h with ⟨m, hm⟩ | ⟨es, rfl, hw, hf⟩
    · exact Or.inl ⟨m, by rw [load_header, hm, Outcome.err_bind]⟩
    · exact Or.inr ⟨salt, keyId, es, rfl, hw, fresh_empty.mp hf⟩

theorem load_entries {salt keyId : Fixed 16} {es : List (Str × Bytes)}
    (hw : ∀ e ∈ es, Writable e) (hn : (es.map Prod.fst).Nodup)
    (h : (header salt keyId ++ es.flatMap entryOf).length < 2 ^ 63) :
    load (header salt keyId ++ es.flatMap entryOf) = .ok ⟨salt, keyId, insertAll ∅ es⟩ := by
  rw [load_header, loadEntries_flatMap hw (fresh_empty.mpr hn) h, Outcome.ok_bind]

def Valid (entries : Entries) : Prop := ∀ n ∈ entries, ValidName n

theorem Valid.insert {entries : Entries} (h : Valid entries) {name : Str} (hname : ValidName name)
    (blob : Bytes) : Valid (entries.insert name blob) := by
  intro n hn
  rcases (AList.mem_insert entries).mp hn with rfl | hn
  · exact hname
  · exact h n hn

theorem Valid.erase {entries : Entries} (h : Valid entries) (name : Str) :
    Valid (entries.erase name) := fun n hn => h n (AList.mem_erase.mp hn).2

theorem Valid.same {a b : Entries} (h : Valid a) (hsame : Same b a) : Valid b :=
  fun n hn => h n (hsame.mem.mp hn)

theorem valid_empty : Valid ∅ := fun n hn => absurd hn (AList.notMem_empty n)

theorem valid_insertAll {entries : Entries} (h : Valid entries) {es : List (Str × Bytes)}
    (hes : ∀ e ∈ es, ValidName e.1) : Valid (insertAll entries es) := by
  induction es generalizing entries with
  | nil => exact h
  | cons e es ih =>
    exact ih (h.insert (hes e List.mem_cons_self) e.2) fun e' he' =>
      hes e' (List.mem_cons_of_mem _ he')

theorem load_valid {d : Bytes} {c : Contents} (h : d.length < 2 ^ 63) (hc : load d = .ok c) :
    Valid c.entries := by
  rcases load_cases h with ⟨m, hm⟩ | ⟨salt, keyId, es, rfl, hw, hn⟩
  · rw [hm] at hc
    cases hc
  · rw [load_entries hw hn h] at hc
    cases hc
    exact valid_insertAll valid_empty fun e he => (hw e he).name

theorem load_image {c : Contents} {d : Bytes} (hv : Valid c.entries) (hd : image c = .ok d)
    (h : d.length < 2 ^ 63) : ∃ c', load d = .ok c' ∧ c'.Same c := by
  obtain ⟨hs, rfl⟩ := small_of_image hd
  have hw : ∀ e ∈ listing c.entries, Writable e := by
    rintro ⟨n, b⟩ he
    have hb := mem_listing.mp he
    refine ⟨hv n ?_, hs n b hb⟩
    rw [← AList.lookup_isSome, hb]
    rfl
  refine ⟨_, load_entries hw (listing_nodup _) h, rfl, rfl, fun n => ?_⟩
  ext b
  have hl := lookup_insertAll (fresh_empty.mpr (listing_nodup c.entries)) n b
  rw [AList.lookup_empty, mem_listing] at hl
  simpa using hl

theorem checkedImage_cases (c : Contents) :
    (∃ d, checkedImage c = .ok d ∧ image c = .ok d ∧ d.length ≤ MAX_STORE_BYTES) ∨
      ∃ m, checkedImage c = .err (.format m) := by
  unfold checkedImage
  by_cases h : Small c.entries
  · rw [image_of_small h, Outcome.ok_bind]
    split_ifs with hlen
    · exact Or.inr ⟨_, rfl⟩
    · exact Or.inl ⟨_, rfl, rfl, Nat.le_of_not_lt hlen⟩
  · rw [image_of_not_small h]
    exact Or.inr ⟨_, rfl⟩

theorem checkedImage_eq_ok {c : Contents} {d : Bytes} :
    checkedImage c = .ok d ↔ image c = .ok d ∧ d.length ≤ MAX_STORE_BYTES := by
  constructor
  · intro h
    rcases checkedImage_cases c with ⟨d', h', hi, hlen⟩ | ⟨m, h'⟩
    · obtain rfl := Outcome.ok.inj (h'.symm.trans h)
      exact ⟨hi, hlen⟩
    · rw [h'] at h
      cases h
  · rintro ⟨hi, hlen⟩
    unfold checkedImage
    rw [hi, Outcome.ok_bind, if_neg (Nat.not_lt.mpr hlen)]

theorem isFormat_of_checkedImage {c : Contents} {e : Error} (h : checkedImage c = .err e) :
    e.IsFormat := by
  rcases checkedImage_cases c with ⟨d, h', -⟩ | ⟨m, h'⟩
  · rw [h'] at h
    cases h
  · obtain rfl := Outcome.err.inj (h'.symm.trans h)
    exact trivial

/-- What is written is taken back by `load`, whole. -/
theorem load_checkedImage {c : Contents} {d : Bytes} (hv : Valid c.entries)
    (hd : checkedImage c = .ok d) : ∃ c', load d = .ok c' ∧ c'.Same c := by
  obtain ⟨hi, hlen⟩ := checkedImage_eq_ok.mp hd
  exact load_image hv hi (Nat.lt_of_le_of_lt hlen (by decide))

end Krypto.Store
