import Krypto.Store.Session

/-! The grammar of a store file, and that `load` accepts it and nothing else. -/

namespace Krypto.Store
open Effect

/-- Bytes that entries tile to the last one: each a name after its length in two bytes and a
blob after its length in four, little-endian. -/
inductive Tiled : Bytes → List (Str × Bytes) → Prop where
  | nil : Tiled [] []
  | cons {l0 l1 b0 b1 b2 b3 : UInt8} {name : Str} {blob rest : Bytes} {es : List (Str × Bytes)}
      (hpos : 1 ≤ name.length) (hmax : name.length ≤ 512) (hprint : ∀ c ∈ name, ' ' ≤ c ∧ c ≤ '~')
      (hname : name.length = l0.toNat + 256 * l1.toNat)
      (hblob : blob.length =
        b0.toNat + 256 * b1.toNat + 65536 * b2.toNat + 16777216 * b3.toNat)
      (hrest : Tiled rest es) :
      Tiled (l0 :: l1 :: (name.asBytes ++ b0 :: b1 :: b2 :: b3 :: (blob ++ rest)))
        ((name, blob) :: es)

/-- `FST1`, version 1, salt, key id, and entries with different names. -/
def Fst1 (d : Bytes) (salt keyId : Fixed 16) (es : List (Str × Bytes)) : Prop :=
  (∃ rest, d = [0x46, 0x53, 0x54, 0x31] ++ [1] ++ salt.toList ++ keyId.toList ++ rest ∧
    Tiled rest es) ∧ (es.map Prod.fst).Nodup

theorem tiled_iff {d : Bytes} {es : List (Str × Bytes)} :
    Tiled d es ↔ d = es.flatMap entryOf ∧ ∀ e ∈ es, Writable e := by
  constructor
  · intro h
    induction h with
    | nil => simp
    | @cons l0 l1 b0 b1 b2 b3 name blob rest es hpos hmax hprint hname hblob hrest ih =>
      obtain ⟨rfl, hw⟩ := ih
      have hne : name ≠ [] := List.ne_nil_of_length_pos hpos
      have hvalid : ValidName name := ⟨hne, hmax, hprint⟩
      have hnb : nameBytes name = l0 :: l1 :: name.asBytes := by
        rw [nameBytes, hvalid.nameBytes_length, hvalid.asBytes_length, hname, ← fromLe16,
          le16_fromLe16]
        rfl
      have hbb : blobBytes blob = b0 :: b1 :: b2 :: b3 :: blob := by
        rw [blobBytes, hblob, ← fromLe32, le32_fromLe32]
        rfl
      refine ⟨?_, ?_⟩
      · rw [List.flatMap_cons, entryOf, hnb, hbb]
        simp only [List.cons_append, List.append_assoc]
      · intro e he
        rcases List.mem_cons.mp he with rfl | he
        · refine ⟨hvalid, ?_⟩
          show blob.length < 2 ^ 32
          rw [hblob]
          exact fromLe32_lt b0 b1 b2 b3
        · exact hw e he
  · rintro ⟨rfl, hw⟩
    induction es with
    | nil => exact .nil
    | cons e es ih =>
      obtain ⟨name, blob⟩ := e
      have he := hw (name, blob) List.mem_cons_self
      have hvalid : ValidName name := he.name
      have hlen : name.length < 2 ^ 16 := Nat.lt_of_le_of_lt hvalid.length_le (by decide)
      have hrest := ih fun e' he' => hw e' (List.mem_cons_of_mem _ he')
      have htiled := Tiled.cons (List.length_pos_of_ne_nil hvalid.ne_nil) hvalid.length_le
        hvalid.printable (fromLe16_le16 hlen).symm (fromLe32_le32 he.blob).symm hrest
      have hentry : entryOf (name, blob) = le16 name.length ++ name.asBytes ++ le32 blob.length ++
          blob := by
        rw [entryOf, nameBytes, hvalid.nameBytes_length, hvalid.asBytes_length, blobBytes]
        simp only [List.append_assoc]
      rw [List.flatMap_cons, hentry]
      simpa only [le16, le32, List.cons_append, List.nil_append, List.append_assoc] using htiled

theorem fst1_iff {d : Bytes} {salt keyId : Fixed 16} {es : List (Str × Bytes)} :
    Fst1 d salt keyId es ↔ d = header salt keyId ++ es.flatMap entryOf ∧
      (∀ e ∈ es, Writable e) ∧ (es.map Prod.fst).Nodup := by
  unfold Fst1
  constructor
  · rintro ⟨⟨rest, rfl, ht⟩, hn⟩
    obtain ⟨rfl, hw⟩ := tiled_iff.mp ht
    exact ⟨rfl, hw, hn⟩
  · rintro ⟨rfl, hw, hn⟩
    exact ⟨⟨_, rfl, tiled_iff.mpr ⟨rfl, hw⟩⟩, hn⟩

theorem flatMap_entryOf_injective {es es' : List (Str × Bytes)} (hw : ∀ e ∈ es, Writable e)
    (hw' : ∀ e ∈ es', Writable e) (h : es.flatMap entryOf = es'.flatMap entryOf) : es = es' := by
  have hpos (e : Str × Bytes) (rest : Bytes) : entryOf e ++ rest ≠ [] := by
    simp [entryOf, nameBytes, le16]
  induction es generalizing es' with
  | nil =>
    cases es' with
    | nil => rfl
    | cons e' es' => exact absurd h.symm (hpos e' _)
  | cons e es ih =>
    cases es' with
    | nil => exact absurd h (hpos e _)
    | cons e' es' =>
      rw [List.flatMap_cons, List.flatMap_cons] at h
      have he := hw e List.mem_cons_self
      have he' := hw' e' List.mem_cons_self
      have hname : (e.1, (nameBytes e.1).length) = (e'.1, (nameBytes e'.1).length) := by
        have hp := parseName_nameBytes he.name (blobBytes e.2 ++ es.flatMap entryOf)
        have hp' := parseName_nameBytes he'.name (blobBytes e'.2 ++ es'.flatMap entryOf)
        rw [entryOf, entryOf, List.append_assoc, List.append_assoc] at h
        rw [h, hp'] at hp
        exact (Outcome.ok.inj hp).symm
      have hfst : e.1 = e'.1 := (Prod.mk.inj hname).1
      rw [entryOf, entryOf, List.append_assoc, List.append_assoc, hfst] at h
      have hblobs := List.append_cancel_left h
      have hb := parseBlob_blobBytes he.blob (es.flatMap entryOf)
      have hb' := parseBlob_blobBytes he'.blob (es'.flatMap entryOf)
      rw [hblobs, hb'] at hb
      have hsnd : e'.2 = e.2 := (Prod.mk.inj (Outcome.ok.inj hb)).1
      rw [hsnd] at hblobs
      have htail := ih (fun x hx => hw x (List.mem_cons_of_mem _ hx))
        (fun x hx => hw' x (List.mem_cons_of_mem _ hx)) (List.append_cancel_left hblobs)
      rw [htail, Prod.ext hfst hsnd.symm]

section Handles
variable {ι : Type} [DecidableEq ι]

theorem Reachable.valid {P : Primitives} {me : ι} {path : Bytes} {st : SecretStore}
    (h : SecretStore.Reachable P me path st) : st.path = path ∧ Valid st.entries := by
  obtain ⟨E, master, p, p', l, s, hrun, hst⟩ := h
  have hs := good_of_serves P hrun
  exact ⟨hs.path st hst, hs.valid st hst⟩

theorem Reachable.fits {P : Primitives} {me : ι} {path : Bytes} {st : SecretStore}
    (h : SecretStore.Reachable P me path st) : Fits st.toContents := by
  obtain ⟨E, master, p, p', l, s, hrun, hst⟩ := h
  exact (good_of_serves P hrun).fits st hst

/-- `load` accepts exactly the grammar, reads exactly its entries, and answers `Format` for
everything else; so every name a handle holds or lists is allowed. The image of what was read is
the file it was read from when, and only when, the entries stand in the order of their names. -/
theorem load_grammar (d : Slice) :
    (∀ c, load d.bytes = .ok c → ∃ es, Fst1 d.bytes c.salt c.keyId es ∧
      ∀ n b, c.entries.lookup n = some b ↔ (n, b) ∈ es) ∧
    (∀ salt keyId es, Fst1 d.bytes salt keyId es → ∃ c, load d.bytes = .ok c ∧ c.salt = salt ∧
      c.keyId = keyId ∧ (∀ n b, c.entries.lookup n = some b ↔ (n, b) ∈ es) ∧
      (image c = .ok d.bytes ↔ (es.map Prod.fst).Pairwise Str.Lt)) ∧
    ((¬∃ salt keyId es, Fst1 d.bytes salt keyId es) → ∃ m, load d.bytes = .err (.format m)) ∧
    ∀ (P : Primitives) (me : ι) (path : Bytes) (st : SecretStore),
      SecretStore.Reachable P me path st →
        (∀ n ∈ st.entries, validateName n = .ok ()) ∧
        ∀ start, ∀ n ∈ st.list start, validateName n = .ok () := by
  -- the map of entries with different names has just those entries
  have hlookup {es : List (Str × Bytes)} (hn : (es.map Prod.fst).Nodup) (n : Str) (b : Bytes) :
      (insertAll ∅ es).lookup n = some b ↔ (n, b) ∈ es := by
    have h := lookup_insertAll (fresh_empty.mpr hn) n b
    rw [AList.lookup_empty] at h
    simpa using h
  refine ⟨?_, ?_, ?_, ?_⟩
  · intro c hc
    rcases load_cases d.length_lt with ⟨m, hm⟩ | ⟨salt, keyId, es, hd, hw, hn⟩
    · rw [hm] at hc
      cases hc
    · have hlt := d.length_lt
      rw [hd] at hc hlt ⊢
      rw [load_entries hw hn hlt] at hc
      cases hc
      exact ⟨es, fst1_iff.mpr ⟨rfl, hw, hn⟩, hlookup hn⟩
  · intro salt keyId es h
    obtain ⟨hd, hw, hn⟩ := fst1_iff.mp h
    have hlt := d.length_lt
    rw [hd] at hlt ⊢
    refine ⟨_, load_entries hw hn hlt, rfl, rfl, hlookup hn, ?_⟩
    have hsmall : Small (insertAll ∅ es) := fun n b hb => (hw _ ((hlookup hn n b).mp hb)).blob
    rw [image_of_small hsmall]
    have hlisted : ∀ e ∈ listing (insertAll ∅ es), Writable e := by
      rintro ⟨n, b⟩ he
      exact hw _ ((hlookup hn n b).mp (mem_listing.mp he))
    constructor
    -- the image lists the entries by name, and a list is read back in one way only
    · intro himage
      have heq := List.append_cancel_left (Outcome.ok.inj himage)
      rw [← flatMap_entryOf_injective hlisted hw heq]
      exact listing_ascending _
    · intro hasc
      rw [listing_insertAll hasc]
  · intro hno
    rcases load_cases d.length_lt with hm | ⟨salt, keyId, es, hd, hw, hn⟩
    · exact hm
    · exact absurd ⟨salt, keyId, es, fst1_iff.mpr ⟨hd, hw, hn⟩⟩ hno
  · intro P me path st hst
    have hv := (Reachable.valid hst).2
    refine ⟨fun n hn => validateName_eq_ok.mpr (hv n hn), fun start n hn => ?_⟩
    have hmem := (List.mem_filter.mp (Str.mem_sort.mp hn)).1
    exact validateName_eq_ok.mpr (hv n (AList.mem_keys.mpr hmem))

end Handles
end Krypto.Store
