import Krypto.Inspect
import Krypto.Store.Grammar

/-! The entries `inspect` finds in a store file are those `SecretStore::load`
reads: two readers, one format. -/

namespace Krypto.Inspect
open Effect Store

/-! ### The framing of an entry -/

structure Framed (e : Bytes × Bytes) : Prop where
  name : e.1.length < 2 ^ 16
  blob : e.2.length < 2 ^ 32

def frame (e : Bytes × Bytes) : Bytes :=
  le16 e.1.length ++ (e.1 ++ (le32 e.2.length ++ e.2))

def raw (e : Str × Bytes) : Bytes × Bytes := (e.1.asBytes, e.2)

theorem framed_raw {e : Str × Bytes} (he : Writable e) : Framed (raw e) where
  name := by
    have hlen : e.1.asBytes.length ≤ 512 := he.name.asBytes_length ▸ he.name.length_le
    exact Nat.lt_of_le_of_lt hlen (by decide)
  blob := he.blob

theorem entryOf_eq {e : Str × Bytes} (he : Writable e) : entryOf e = frame (raw e) := by
  rw [entryOf, nameBytes, he.name.nameBytes_length, blobBytes, frame, raw]
  simp only [List.append_assoc]

theorem flatMap_entryOf {es : List (Str × Bytes)} (hw : ∀ e ∈ es, Writable e) :
    es.flatMap entryOf = (es.map raw).flatMap frame := by
  rw [List.flatMap_map]
  exact List.flatMap_congr fun e he => entryOf_eq (hw e he)

theorem length_frame (e : Bytes × Bytes) : (frame e).length = 6 + e.1.length + e.2.length := by
  simp only [frame, le16, le32, List.length_append, List.length_cons, List.length_nil]
  omega

/-! ### Reading it -/

theorem be_le16 {n : ℕ} (h : n < 2 ^ 16) : be (le16 n).reverse = n := by
  simp only [le16, List.reverse_cons, List.reverse_nil, List.nil_append, List.cons_append, be,
    List.foldl_cons, List.foldl_nil, UInt8.toNat_ofNat']
  omega

theorem be_le32 {n : ℕ} (h : n < 2 ^ 32) : be (le32 n).reverse = n := by
  simp only [le32, List.reverse_cons, List.reverse_nil, List.nil_append, List.cons_append, be,
    List.foldl_cons, List.foldl_nil, UInt8.toNat_ofNat']
  omega

theorem le16_be {b : Bytes} (h : b.length = 2) : le16 (be b.reverse) = b ∧ be b.reverse < 2 ^ 16 := by
  obtain ⟨b0, b1, rfl⟩ := List.length_eq_two.mp h
  have hbe : be [b0, b1].reverse = fromLe16 b0 b1 := by
    simp only [List.reverse_cons, List.reverse_nil, List.nil_append, List.cons_append, be,
      List.foldl_cons, List.foldl_nil, fromLe16]
    omega
  rw [hbe]
  exact ⟨le16_fromLe16 b0 b1, fromLe16_lt b0 b1⟩

theorem le32_be {b : Bytes} (h : b.length = 4) : le32 (be b.reverse) = b ∧ be b.reverse < 2 ^ 32 := by
  obtain ⟨b0, b1, b2, b3, rfl⟩ : ∃ b0 b1 b2 b3, b = [b0, b1, b2, b3] := by
    match b, h with
    | [b0, b1, b2, b3], _ => exact ⟨b0, b1, b2, b3, rfl⟩
  have hbe : be [b0, b1, b2, b3].reverse = fromLe32 b0 b1 b2 b3 := by
    simp only [List.reverse_cons, List.reverse_nil, List.nil_append, List.cons_append, be,
      List.foldl_cons, List.foldl_nil, fromLe32]
    omega
  rw [hbe]
  exact ⟨le32_fromLe32 b0 b1 b2 b3, fromLe32_lt b0 b1 b2 b3⟩

theorem range_cursor {front back b : Bytes} {i n : ℕ} (hi : i = front.length) :
    range (front ++ back) i (i + n) = some b ↔ b.length = n ∧ ∃ rest, back = b ++ rest := by
  rw [range, List.length_append, hi, List.drop_left, Nat.add_sub_cancel_left]
  constructor
  · intro h
    split at h
    next hle =>
      obtain rfl := Option.some.inj h
      refine ⟨?_, back.drop n, (List.take_append_drop n back).symm⟩
      rw [List.length_take]
      omega
    · cases h
  · rintro ⟨rfl, rest, rfl⟩
    rw [if_pos (by simp), List.take_left]

theorem leAt_cursor {front back : Bytes} {i n k : ℕ} (hi : i = front.length) :
    leAt (front ++ back) i n = some k ↔
      ∃ b rest, back = b ++ rest ∧ b.length = n ∧ be b.reverse = k := by
  rw [leAt, Option.map_eq_some_iff]
  constructor
  · rintro ⟨b, hb, rfl⟩
    obtain ⟨hlen, rest, rfl⟩ := (range_cursor hi).mp hb
    exact ⟨b, rest, rfl, hlen, rfl⟩
  · rintro ⟨b, rest, rfl, hlen, rfl⟩
    exact ⟨b, (range_cursor hi).mpr ⟨hlen, rest, rfl⟩, rfl⟩

/-- `inspect` reads an entry exactly where one is framed. -/
theorem storeEntry_eq_some {front back name blob : Bytes} {next : ℕ} :
    storeEntry (front ++ back) front.length = some (name, blob, next) ↔
      Framed (name, blob) ∧ (∃ rest, back = frame (name, blob) ++ rest) ∧
        next = front.length + (frame (name, blob)).length := by
  constructor
  · intro h
    obtain ⟨nameLen, hnameLen, h⟩ := Option.bind_eq_some_iff.mp h
    obtain ⟨name', hname, h⟩ := Option.bind_eq_some_iff.mp h
    obtain ⟨blobLen, hblobLen, h⟩ := Option.bind_eq_some_iff.mp h
    obtain ⟨blob', hblob, h⟩ := Option.bind_eq_some_iff.mp h
    cases h
    -- each field found moves the cursor by its own length
    obtain ⟨b2, back, rfl, hb2, rfl⟩ := (leAt_cursor rfl).mp hnameLen
    rw [← List.append_assoc] at hname hblobLen hblob
    obtain ⟨hnlen, back, rfl⟩ := (range_cursor (by simp [hb2])).mp hname
    rw [← List.append_assoc] at hblobLen hblob
    obtain ⟨b4, back, rfl, hb4, rfl⟩ := (leAt_cursor (by simp [hb2, hnlen]; omega)).mp hblobLen
    rw [← List.append_assoc] at hblob
    obtain ⟨hblen, back, rfl⟩ := (range_cursor (by simp [hb2, hnlen, hb4]; omega)).mp hblob
    obtain ⟨hle2, hlt2⟩ := le16_be hb2
    obtain ⟨hle4, hlt4⟩ := le32_be hb4
    refine ⟨⟨hnlen ▸ hlt2, hblen ▸ hlt4⟩, ⟨back, ?_⟩, ?_⟩
    · rw [frame]
      dsimp only
      rw [hnlen, hblen, hle2, hle4]
      simp only [List.append_assoc]
    · rw [length_frame]
      dsimp only
      omega
  · rintro ⟨⟨hname, hblob⟩, ⟨rest, rfl⟩, rfl⟩
    -- where each field of the frame stands
    have hbytes : front ++ (frame (name, blob) ++ rest) =
        front ++ (le16 name.length ++ (name ++ (le32 blob.length ++ (blob ++ rest)))) := by
      simp only [frame, List.append_assoc]
    have hnameAt : front.length + 2 = (front ++ le16 name.length).length := by simp [le16]
    have hlenAt : front.length + 2 + name.length = (front ++ le16 name.length ++ name).length := by
      simp [le16]
      omega
    have hblobAt : front.length + 2 + name.length + 4 =
        (front ++ le16 name.length ++ name ++ le32 blob.length).length := by
      simp [le16, le32]
      omega
    have hnameLen : leAt (front ++ (frame (name, blob) ++ rest)) front.length 2 =
        some name.length := by
      rw [hbytes]
      exact (leAt_cursor rfl).mpr ⟨_, _, rfl, rfl, be_le16 hname⟩
    have hnameIs : range (front ++ (frame (name, blob) ++ rest)) (front.length + 2)
        (front.length + 2 + name.length) = some name := by
      rw [hbytes, ← List.append_assoc]
      exact (range_cursor hnameAt).mpr ⟨rfl, _, rfl⟩
    have hblobLen : leAt (front ++ (frame (name, blob) ++ rest))
        (front.length + 2 + name.length) 4 = some blob.length := by
      rw [hbytes, ← List.append_assoc, ← List.append_assoc]
      exact (leAt_cursor hlenAt).mpr ⟨_, _, rfl, rfl, be_le32 hblob⟩
    have hblobIs : range (front ++ (frame (name, blob) ++ rest))
        (front.length + 2 + name.length + 4)
        (front.length + 2 + name.length + 4 + blob.length) = some blob := by
      rw [hbytes, ← List.append_assoc, ← List.append_assoc, ← List.append_assoc]
      exact (range_cursor hblobAt).mpr ⟨rfl, _, rfl⟩
    have hnext : front.length + 2 + name.length + 4 + blob.length =
        front.length + (frame (name, blob)).length := by
      rw [length_frame]
      dsimp only
      omega
    simp only [storeEntry, hnameLen, hnameIs, hblobLen, hblobIs, Option.bind_eq_bind,
      Option.bind_some]
    rw [hnext]

/-! ### The walk -/

def Broken (rest : Bytes) : Prop := ∀ e back, Framed e → rest ≠ frame e ++ back

theorem storeEntry_eq_none {front back : Bytes} :
    storeEntry (front ++ back) front.length = none ↔ Broken back := by
  rw [Option.eq_none_iff_forall_ne_some]
  constructor
  · rintro h ⟨name, blob⟩ rest hframed heq
    exact h _ (storeEntry_eq_some.mpr ⟨hframed, ⟨rest, heq⟩, rfl⟩)
  · rintro h ⟨name, blob, next⟩ heq
    obtain ⟨hframed, ⟨rest, hrest⟩, -⟩ := storeEntry_eq_some.mp heq
    exact h _ rest hframed hrest

/-- What a walk over some entries and what stands after them has seen. -/
structure Walked (start : ℕ) (es : List (Bytes × Bytes)) (rest : Bytes) (w₀ w : Walk) : Prop where
  names : w.names = w₀.names ++ es.map Prod.fst
  damaged : w.damaged = if rest = [] then none else some (start + (es.flatMap frame).length)

/-- The walk takes whole entries off the front until none starts there. -/
theorem walkFrom_spec {fuel : ℕ} {front back : Bytes} (hfuel : back.length ≤ fuel) {w : Walk}
    (hw : w.damaged = none) :
    ∃ es rest, (∀ e ∈ es, Framed e) ∧ back = es.flatMap frame ++ rest ∧ (rest = [] ∨ Broken rest) ∧
      Walked front.length es rest w (walkFrom (front ++ back) fuel front.length w) := by
  induction fuel generalizing front back w with
  | zero =>
    have hnil : back = [] := List.eq_nil_of_length_eq_zero (Nat.le_zero.mp hfuel)
    exact ⟨[], [], by simp, by simp [hnil], Or.inl rfl, by simp [walkFrom], by simp [walkFrom, hw]⟩
  | succ fuel ih =>
    by_cases hnil : back = []
    · refine ⟨[], [], by simp, by simp [hnil], Or.inl rfl, ?_, ?_⟩ <;> simp [walkFrom, hnil, hw]
    · have hlt : front.length < (front ++ back).length := by
        have hpos := List.length_pos_iff.mpr hnil
        rw [List.length_append]
        omega
      rw [walkFrom, if_pos hlt]
      cases hentry : storeEntry (front ++ back) front.length with
      | none =>
        refine ⟨[], back, by simp, by simp, Or.inr (storeEntry_eq_none.mp hentry), ?_, ?_⟩
        · simp
        · simp [hnil]
      | some e =>
        obtain ⟨name, blob, next⟩ := e
        obtain ⟨hframed, ⟨rest, rfl⟩, rfl⟩ := storeEntry_eq_some.mp hentry
        have hlen := length_frame (name, blob)
        rw [List.length_append] at hfuel
        have hrest := @ih (front ++ frame (name, blob)) rest (by omega) (w.add name blob) hw
        rw [List.append_assoc, List.length_append] at hrest
        obtain ⟨es, rest', hes, rfl, hend, hwalked⟩ := hrest
        refine ⟨(name, blob) :: es, rest', List.forall_mem_cons.mpr ⟨hframed, hes⟩, ?_, hend, ?_, ?_⟩
        · rw [List.flatMap_cons, List.append_assoc]
        · rw [hwalked.names, Walk.add]
          simp
        · rw [hwalked.damaged, List.flatMap_cons, List.length_append, Nat.add_assoc]

/-- A frame can be told from what stands after it. -/
theorem frame_append_inj {e e' : Bytes × Bytes} {x y : Bytes} (he : Framed e) (he' : Framed e')
    (h : frame e ++ x = frame e' ++ y) : e = e' ∧ x = y := by
  have hread (e : Bytes × Bytes) (he : Framed e) (x : Bytes) :
      storeEntry (frame e ++ x) 0 = some (e.1, e.2, (frame e).length) := by
    have hsome : storeEntry ([] ++ (frame e ++ x)) ([] : Bytes).length =
        some (e.1, e.2, ([] : Bytes).length + (frame e).length) :=
      storeEntry_eq_some.mpr ⟨he, ⟨x, rfl⟩, rfl⟩
    simpa using hsome
  have heq := hread e he x
  rw [h, hread e' he' y] at heq
  have hpair : e' = e := by
    obtain ⟨h1, h2⟩ := Prod.mk.inj (Option.some.inj heq)
    exact Prod.ext h1 (Prod.mk.inj h2).1
  subst hpair
  exact ⟨rfl, List.append_cancel_left h⟩

theorem frames_unique {es es' : List (Bytes × Bytes)} {rest : Bytes} (hes : ∀ e ∈ es, Framed e)
    (hes' : ∀ e ∈ es', Framed e) (hend : rest = [] ∨ Broken rest)
    (h : es.flatMap frame ++ rest = es'.flatMap frame) : es = es' ∧ rest = [] := by
  have hpos (e : Bytes × Bytes) (x : Bytes) : frame e ++ x ≠ [] := by
    intro hnil
    have hlen := congrArg List.length hnil
    rw [List.length_append, length_frame, List.length_nil] at hlen
    omega
  induction es generalizing es' with
  | nil =>
    cases es' with
    | nil => exact ⟨rfl, by simpa using h⟩
    | cons e' es' =>
      rw [List.flatMap_nil, List.nil_append, List.flatMap_cons] at h
      obtain rfl | hbroken := hend
      · exact absurd h.symm (hpos e' _)
      · exact absurd h (hbroken e' _ (hes' e' (by simp)))
  | cons e es ih =>
    cases es' with
    | nil =>
      rw [List.flatMap_cons, List.append_assoc] at h
      exact absurd h (hpos e _)
    | cons e' es' =>
      rw [List.flatMap_cons, List.flatMap_cons, List.append_assoc] at h
      obtain ⟨rfl, htail⟩ := frame_append_inj (hes e (by simp)) (hes' e' (by simp)) h
      obtain ⟨rfl, hrest⟩ := ih (fun x hx => hes x (by simp [hx])) (fun x hx => hes' x (by simp [hx]))
        htail
      exact ⟨rfl, hrest⟩

/-! ### The report -/

theorem printable_asBytes {s : Str} (h : ∀ c ∈ s, Str.Printable c) : printable s.asBytes = s := by
  rw [Str.asBytes_of_printable h, printable, List.map_map]
  refine (List.map_congr_left fun c hc => ?_).trans (List.map_id s)
  have hlow : 32 ≤ c.toNat := UInt32.le_iff_toNat_le.mp (h c hc).1
  have hhigh : c.toNat ≤ 126 := UInt32.le_iff_toNat_le.mp (h c hc).2
  have hbyte : (UInt8.ofNat c.toNat).toNat = c.toNat := by
    rw [UInt8.toNat_ofNat']
    omega
  have hrange : 0x20 ≤ UInt8.ofNat c.toNat ∧ UInt8.ofNat c.toNat < 0x7f := by
    rw [UInt8.le_iff_toNat_le, UInt8.lt_iff_toNat_lt, hbyte]
    exact ⟨hlow, Nat.lt_succ_of_le hhigh⟩
  rw [Function.comp_apply, if_pos hrange, hbyte, Char.ofNat_toNat]
  rfl

theorem store_facts {d : Bytes} (hmagic : ascii "FST1" <+: d) (hlen : HEADER_LEN ≤ d.length) :
    ∃ found, store d = some found ∧
      found.facts.lookup "entries".toList = some (Str.decimal (walkStore d).names.length) ∧
      found.facts.lookup "names".toList =
        (if (walkStore d).names = [] then none else some (shownNames (walkStore d).names)) ∧
      found.facts.lookup "damaged".toList =
        (walkStore d).damaged.map fun k => "at byte ".toList ++ Str.decimal k := by
  rw [store, if_neg (not_not_intro hmagic)]
  dsimp only
  rw [if_neg (Nat.not_lt.mpr hlen)]
  by_cases hnames : (walkStore d).names = [] <;> cases hdamaged : (walkStore d).damaged <;>
    exact ⟨_, rfl, by simp [hnames, Finding.fact, Finding.new, List.lookup_cons]⟩

theorem walkStore_spec {d : Bytes} (hlen : HEADER_LEN ≤ d.length) :
    ∃ (es : List (Bytes × Bytes)) (rest : Bytes), (∀ e ∈ es, Framed e) ∧
      d = d.take HEADER_LEN ++ (es.flatMap frame ++ rest) ∧ (rest = [] ∨ Broken rest) ∧ (walkStore d).names = es.map Prod.fst ∧
      (walkStore d).damaged =
        if rest = [] then none else some (HEADER_LEN + (es.flatMap frame).length) := by
  have hfront : (d.take HEADER_LEN).length = HEADER_LEN := by
    rw [List.length_take]
    omega
  have hback : (d.drop HEADER_LEN).length ≤ d.length := by
    rw [List.length_drop]
    omega
  have hwalk := @walkFrom_spec d.length (d.take HEADER_LEN) (d.drop HEADER_LEN) hback
    { names := [], algs := [], damaged := none } rfl
  rw [List.take_append_drop, hfront] at hwalk
  obtain ⟨es, rest, hes, hdrop, hend, hnames, hdamaged⟩ := hwalk
  refine ⟨es, rest, hes, ?_, hend, hnames.trans (List.nil_append _), hdamaged⟩
  rw [← hdrop, List.take_append_drop]

/-- A file that loads is its header and the entries that are loaded, and the walk finds those. -/
theorem entries_of_load {d : Bytes} (hlt : d.length < 2 ^ 63) {c : Contents} (hc : load d = .ok c)
    {es : List (Bytes × Bytes)} {rest : Bytes} (hes : ∀ e ∈ es, Framed e)
    (hd : d = d.take HEADER_LEN ++ (es.flatMap frame ++ rest)) (hend : rest = [] ∨ Broken rest) :
    rest = [] ∧ ∃ loaded : List (Str × Bytes), es = loaded.map raw ∧
      d = header c.salt c.keyId ++ loaded.flatMap entryOf ∧ (∀ e ∈ loaded, Writable e) ∧
      (loaded.map Prod.fst).Nodup ∧ ∀ n b, c.entries.lookup n = some b ↔ (n, b) ∈ loaded := by
  obtain ⟨m, hm⟩ | ⟨salt, keyId, loaded, hloaded, hw, hn⟩ := load_cases hlt
  · rw [hm] at hc
    cases hc
  · have hcontents := load_entries hw hn (hloaded ▸ hlt)
    rw [← hloaded, hc] at hcontents
    cases hcontents
    have hhead : d.take HEADER_LEN = header salt keyId := by
      rw [hloaded, List.take_left' (header_length salt keyId)]
    have hframes : es.flatMap frame ++ rest = (loaded.map raw).flatMap frame := by
      rw [← flatMap_entryOf hw]
      rw [hhead, hloaded] at hd
      exact (List.append_cancel_left hd).symm
    have hraw : ∀ e ∈ loaded.map raw, Framed e := by
      intro x hx
      obtain ⟨e, he, rfl⟩ := List.mem_map.mp hx
      exact framed_raw (hw e he)
    obtain ⟨heq, hrest⟩ := frames_unique hes hraw hend hframes
    refine ⟨hrest, loaded, heq, hloaded, hw, hn, fun n b => ?_⟩
    have hlookup := lookup_insertAll (fresh_empty.mpr hn) n b
    rw [AList.lookup_empty] at hlookup
    simpa using hlookup

theorem keys_perm {entries : Entries} {loaded : List (Str × Bytes)}
    (hn : (loaded.map Prod.fst).Nodup)
    (hlookup : ∀ n b, entries.lookup n = some b ↔ (n, b) ∈ loaded) :
    entries.keys.Perm (loaded.map Prod.fst) := by
  refine (List.perm_ext_iff_of_nodup entries.keys_nodup hn).mpr fun n => ?_
  rw [← AList.mem_keys, ← AList.lookup_isSome, Option.isSome_iff_exists]
  constructor
  · rintro ⟨b, hb⟩
    exact List.mem_map.mpr ⟨(n, b), (hlookup n b).mp hb, rfl⟩
  · intro hmem
    obtain ⟨⟨n, b⟩, he, rfl⟩ := List.mem_map.mp hmem
    exact ⟨b, (hlookup n b).mpr he⟩

theorem raw_injective : Function.Injective raw := by
  rintro ⟨n, b⟩ ⟨n', b'⟩ h
  obtain ⟨hname, hblob⟩ := Prod.mk.inj h
  exact Prod.ext (Str.asBytes_injective hname) hblob

theorem loaded_of_framed {es : List (Bytes × Bytes)} (hes : ∀ e ∈ es, Framed e)
    (hvalid : ∀ e ∈ es, ∃ name, Str.fromUtf8 e.1 = some name ∧ validateName name = .ok ()) :
    ∃ loaded : List (Str × Bytes), es = loaded.map raw ∧ ∀ e ∈ loaded, Writable e := by
  induction es with
  | nil => exact ⟨[], rfl, by simp⟩
  | cons e es ih =>
    obtain ⟨hframed, hframeds⟩ := List.forall_mem_cons.mp hes
    obtain ⟨⟨name, hname, hallowed⟩, hvalids⟩ := List.forall_mem_cons.mp hvalid
    obtain ⟨loaded, rfl, hw⟩ := ih hframeds hvalids
    refine ⟨(name, e.2) :: loaded, ?_, List.forall_mem_cons.mpr ⟨?_, hw⟩⟩
    · rw [List.map_cons, raw, ← Str.fromUtf8_eq_some.mp hname]
    · exact ⟨validateName_eq_ok.mp hallowed, hframed.blob⟩

/-- A file that is whole entries with different allowed names after a header loads as those. -/
theorem load_of_entries {d : Bytes} (hlt : d.length < 2 ^ 63) (hlen : HEADER_LEN ≤ d.length)
    (hmagic : ascii "FST1" <+: d) (hver : d[4]? = some 1) {es : List (Bytes × Bytes)}
    (hes : ∀ e ∈ es, Framed e) (hd : d = d.take HEADER_LEN ++ es.flatMap frame)
    (hvalid : ∀ e ∈ es, ∃ name, Str.fromUtf8 e.1 = some name ∧ validateName name = .ok ())
    (hn : (es.map Prod.fst).Nodup) :
    ∃ c, load d = .ok c ∧ ∀ n b, c.entries.lookup n = some b ↔ (n.asBytes, b) ∈ es := by
  have htake : d.take 4 = STORE_MAGIC := by
    have h := List.prefix_iff_eq_take.mp hmagic
    rw [show ascii "FST1" = STORE_MAGIC by decide +kernel] at h
    exact h.symm
  obtain ⟨salt, keyId, hheader⟩ := header_of hlen htake hver
  obtain ⟨loaded, rfl, hw⟩ := loaded_of_framed hes hvalid
  have hfile : d = header salt keyId ++ loaded.flatMap entryOf := by
    have hdrop : d.drop HEADER_LEN = (loaded.map raw).flatMap frame :=
      List.append_cancel_left ((List.take_append_drop HEADER_LEN d).trans hd)
    rw [flatMap_entryOf hw, ← hdrop]
    exact hheader
  have hnodup : (loaded.map Prod.fst).Nodup := by
    rw [List.map_map] at hn
    have hcomp : Prod.fst ∘ raw = Str.asBytes ∘ (Prod.fst : Str × Bytes → Str) := rfl
    rw [hcomp, ← List.map_map] at hn
    exact hn.of_map _
  refine ⟨⟨salt, keyId, insertAll ∅ loaded⟩, ?_, fun n b => ?_⟩
  · rw [hfile] at hlt ⊢
    exact load_entries hw hnodup hlt
  · have hlookup := lookup_insertAll (fresh_empty.mpr hnodup) n b
    rw [AList.lookup_empty] at hlookup
    have hraw : (n.asBytes, b) ∈ loaded.map raw ↔ (n, b) ∈ loaded :=
      (List.mem_map_of_injective raw_injective : raw (n, b) ∈ loaded.map raw ↔ _)
    rw [hraw]
    simpa using hlookup

/-- The report on a store file and `load` agree: on what both can read, and where neither can. -/
theorem store_report (d : Slice) (hmagic : ascii "FST1" <+: d.bytes)
    (hlen : HEADER_LEN ≤ d.bytes.length) :
    ∃ (found : Finding) (es : List (Bytes × Bytes)), store d.bytes = some found ∧
      (∀ e ∈ es, Framed e) ∧ (walkStore d.bytes).names = es.map Prod.fst ∧
      found.facts.lookup "names".toList = (if (walkStore d.bytes).names = [] then none
        else some (shownNames (walkStore d.bytes).names)) ∧
      (∀ c, load d.bytes = .ok c → found.facts.lookup "damaged".toList = none ∧
        found.facts.lookup "entries".toList = some (Str.decimal c.entries.keys.length) ∧
        ∃ loaded : List (Str × Bytes), d.bytes = header c.salt c.keyId ++ loaded.flatMap entryOf ∧
          (∀ n b, c.entries.lookup n = some b ↔ (n, b) ∈ loaded) ∧
          (walkStore d.bytes).names.map printable = loaded.map Prod.fst) ∧
      (found.facts.lookup "damaged".toList = none → d.bytes[4]? = some 1 →
        (∀ n ∈ (walkStore d.bytes).names,
          ∃ name, Str.fromUtf8 n = some name ∧ validateName name = .ok ()) →
        (walkStore d.bytes).names.Nodup →
        ∃ c, load d.bytes = .ok c ∧ ∀ n b, c.entries.lookup n = some b ↔ (n.asBytes, b) ∈ es) ∧
      ∀ text, found.facts.lookup "damaged".toList = some text →
        ∃ k < d.bytes.length, text = "at byte ".toList ++ Str.decimal k ∧
          d.bytes.take k = d.bytes.take HEADER_LEN ++ es.flatMap frame ∧ Broken (d.bytes.drop k) ∧
          ∃ m, load d.bytes = .err (.format m) := by
  obtain ⟨found, hfound, hentries, hshownNames, hdamaged⟩ := store_facts hmagic hlen
  obtain ⟨es, rest, hes, hd, hend, hnames, hwalk⟩ := walkStore_spec hlen
  rw [hwalk] at hdamaged
  refine ⟨found, es, hfound, hes, hnames, hshownNames, ?_, ?_, ?_⟩
  -- the file loads: the walk finds what `load` read, and no damage
  · intro c hc
    obtain ⟨rfl, loaded, rfl, hloaded, hw, hn, hlookup⟩ :=
      entries_of_load d.length_lt hc hes hd hend
    have hshown : (walkStore d.bytes).names.map printable = loaded.map Prod.fst := by
      rw [hnames, List.map_map, List.map_map]
      exact List.map_congr_left fun e he => printable_asBytes (hw e he).name.printable
    have hcount : c.entries.keys.length = loaded.length := by
      rw [(keys_perm hn hlookup).length_eq, List.length_map]
    refine ⟨hdamaged, ?_, loaded, hloaded, hlookup, hshown⟩
    rw [hentries, hnames, hcount, List.length_map, List.length_map]
  -- no damage: the entries found are the file, so `load` reads them
  · intro hnone hver hvalid hn
    have hrest : rest = [] := by
      by_contra hne
      rw [if_neg hne] at hdamaged
      rw [hdamaged] at hnone
      cases hnone
    rw [hnames] at hvalid hn
    refine load_of_entries d.length_lt hlen hmagic hver hes ?_ ?_ hn
    · rwa [hrest, List.append_nil] at hd
    · exact fun e he => hvalid e.1 (List.mem_map_of_mem he)
  -- damage: the byte named is where the entries found end, and there `load` fails too
  · intro text htext
    have hne : rest ≠ [] := by
      rintro rfl
      rw [hdamaged] at htext
      cases htext
    rw [if_neg hne, Option.map_some] at hdamaged
    have hk : HEADER_LEN + (es.flatMap frame).length =
        (d.bytes.take HEADER_LEN ++ es.flatMap frame).length := by
      rw [List.length_append, List.length_take, Nat.min_eq_left hlen]
    have hsplit : d.bytes = (d.bytes.take HEADER_LEN ++ es.flatMap frame) ++ rest := by
      rw [List.append_assoc]
      exact hd
    refine ⟨HEADER_LEN + (es.flatMap frame).length, ?_, ?_, ?_, ?_, ?_⟩
    · have hpos := List.length_pos_iff.mpr hne
      have htotal := congrArg List.length hsplit
      rw [List.length_append] at htotal
      omega
    · rw [hdamaged] at htext
      exact (Option.some.inj htext).symm
    · rw [hk]
      exact (congrArg (List.take _) hsplit).trans List.take_left
    · rw [hk]
      have hdrop := (congrArg (List.drop _) hsplit).trans List.drop_left
      exact hdrop ▸ hend.resolve_left hne
    · obtain hm | ⟨salt, keyId, loaded, hloaded, hw, hn⟩ := load_cases d.length_lt
      · exact hm
      · have hload := load_entries hw hn (hloaded ▸ d.length_lt)
        rw [← hloaded] at hload
        exact absurd (entries_of_load d.length_lt hload hes hd hend).1 hne

def twoEntries : List (Str × Bytes) := [(['a'], [1, 2]), (['b'], [3])]

def wholeStore : Slice where
  bytes := header (.fill 16 7) (.fill 16 9) ++ twoEntries.flatMap entryOf
  length_lt := by decide +kernel

/-- A third entry, of which there is one byte. -/
def damagedStore : Slice where
  bytes := wholeStore.bytes ++ [1]
  length_lt := by decide +kernel

theorem store_report_sample :
    (∃ found c, store wholeStore.bytes = some found ∧ load wholeStore.bytes = .ok c ∧
      found.facts.lookup "damaged".toList = none ∧
      found.facts.lookup "entries".toList = some (Str.decimal c.entries.keys.length) ∧
      (walkStore wholeStore.bytes).names.map printable = [['a'], ['b']] ∧
      c.entries.lookup ['a'] = some [1, 2] ∧ c.entries.lookup ['b'] = some [3]) ∧
    ∃ found m, store damagedStore.bytes = some found ∧ load damagedStore.bytes = .err (.format m) ∧
      found.facts.lookup "damaged".toList = some "at byte 54".toList := by
  have hmagic (tail : Bytes) : ascii "FST1" <+: ascii "FST1" ++ tail := List.prefix_append _ _
  constructor
  · obtain ⟨found, es, hfound, -, -, -, hloads, hreads, -⟩ :=
      store_report wholeStore (hmagic _) (by decide +kernel)
    have hwhole : found.facts.lookup "damaged".toList = none := by
      have hfact : (store wholeStore.bytes).map (·.facts.lookup "damaged".toList) = some none := by
        decide +kernel
      rw [hfound] at hfact
      exact Option.some.inj hfact
    obtain ⟨c, hc, -⟩ := hreads hwhole rfl (by decide +kernel) (by decide +kernel)
    obtain ⟨-, hcount, -⟩ := hloads c hc
    have hentries : (do let c ← load wholeStore.bytes
                        .ok (c.entries.lookup ['a'], c.entries.lookup ['b'])) =
        (.ok (some [1, 2], some [3]) : Outcome Error _) := by decide +kernel
    rw [hc] at hentries
    obtain ⟨ha, hb⟩ := Prod.mk.inj (Outcome.ok.inj hentries)
    exact ⟨found, c, hfound, hc, hwhole, hcount, by decide +kernel, ha, hb⟩
  · obtain ⟨found, es, hfound, -, -, -, -, -, hdamaged⟩ :=
      store_report damagedStore (hmagic _) (by decide +kernel)
    have hat : found.facts.lookup "damaged".toList = some "at byte 54".toList := by
      have hfact : (store damagedStore.bytes).map (·.facts.lookup "damaged".toList) =
          some (some "at byte 54".toList) := by decide +kernel
      rw [hfound] at hfact
      exact Option.some.inj hfact
    obtain ⟨k, -, -, -, -, m, hm⟩ := hdamaged _ hat
    exact ⟨found, m, hfound, hm, hat⟩

end Krypto.Inspect
