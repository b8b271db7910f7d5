import Krypto.Aead.Verdict
import Krypto.Inspect.Entries
import Krypto.Inspect.Nested

/-! What `inspect` tells of a blob or a store file, and that no nonce, ciphertext,
tag or salt has a part in it. -/

namespace Krypto.Inspect
open Effect Store

/-! ## Blobs -/

section Blobs
variable {b b' : Bytes}

theorem getD_take {i n : ℕ} (h : i < n) (b : Bytes) : (b.take n).getD i 0 = b.getD i 0 := by
  rw [List.getD_eq_getElem?_getD, List.getD_eq_getElem?_getD, List.getElem?_take_of_lt h]

theorem fields_eq (hhead : b.take 22 = b'.take 22) : byteAt b 4 = byteAt b' 4 ∧
    byteAt b 5 = byteAt b' 5 ∧ (b.drop 6).take 16 = (b'.drop 6).take 16 := by
  have h4 : byteAt (b.take 22) 4 = byteAt b 4 := getD_take (by decide) b
  have h4' : byteAt (b'.take 22) 4 = byteAt b' 4 := getD_take (by decide) b'
  have h5 : byteAt (b.take 22) 5 = byteAt b 5 := getD_take (by decide) b
  have h5' : byteAt (b'.take 22) 5 = byteAt b' 5 := getD_take (by decide) b'
  refine ⟨by rw [← h4, ← h4', hhead], by rw [← h5, ← h5', hhead], ?_⟩
  have hid (b : Bytes) : (b.drop 6).take 16 = (b.take 22).drop 6 := by rw [List.drop_take]
  rw [hid, hid, hhead]

theorem verdict_congr (hlen : b.length = b'.length) (hmagic : Aead.MAGIC <+: b)
    (hmagic' : Aead.MAGIC <+: b') (hhead : b.take 22 = b'.take 22) :
    Aead.verdict b = Aead.verdict b' := by
  have hblob : (b.length < 54 ∨ ¬[0x46, 0x41, 0x46, 0x4e] <+: b) ↔
      (b'.length < 54 ∨ ¬[0x46, 0x41, 0x46, 0x4e] <+: b') := by
    rw [hlen]
    exact or_congr_right (not_congr (iff_of_true hmagic hmagic'))
  obtain ⟨h4, h5, hid⟩ := fields_eq hhead
  unfold byteAt at h4 h5
  unfold Aead.verdict
  simp only [hblob, h4, h5, hid]

theorem blob_eq (hmagic : Aead.MAGIC <+: b) : blob b = some (
    let found := Finding.new "krypto blob (krypto::seal)"
    match Aead.verdict b with
    | .notBlob => found.fact "header" "cut short"
    | .changed => { found.fact "header"
        "changed: a format or an algorithm this krypto does not know" with changed := true }
    | .header _ id => (((found.fact "format" (Str.decimal (byteAt b 4).toNat)).fact "algorithm"
        (algName (byteAt b 5))).fact "key id" (Hex.encode id)).fact "bytes" (Str.decimal b.length)) := by
  have hread : ascii "FAFN" <+: b := hmagic
  obtain ⟨hformat, hauth⟩ := Aead.blobKeyId_reads b
  rw [blob, if_neg (not_not.mpr hread)]
  cases hv : Aead.verdict b with
  | notBlob =>
    obtain ⟨m, hm⟩ := hformat.mpr hv
    rw [hm]
  | changed => rw [hauth hv]
  | header alg id => rw [Aead.blobKeyId_verdict hv]

theorem blob_congr (hlen : b.length = b'.length) (hmagic : Aead.MAGIC <+: b)
    (hmagic' : Aead.MAGIC <+: b') (hhead : b.take 22 = b'.take 22) : blob b = blob b' := by
  obtain ⟨h4, h5, -⟩ := fields_eq hhead
  rw [blob_eq hmagic, blob_eq hmagic', verdict_congr hlen hmagic hmagic' hhead, h4, h5, hlen]

theorem inspectAt_blob (lib : Lib) (depth : ℕ) {found : Finding} (h : blob b = some found) :
    inspectAt lib b depth = found := by
  rw [inspectAt_eq, inspectOne, recognizers, List.findSome?_cons, h]
  rfl

end Blobs

/-! ## Store files -/

/-- Entries with the same names and the same lengths, in blobs that start alike, and the same end:
none, or one where no entry starts. -/
inductive Alike : Bytes → Bytes → Prop
  | nil : Alike [] []
  | entry {name blob blob' rest rest' : Bytes} (framed : Framed (name, blob))
    (hlen : blob.length = blob'.length) (hhead : blob.take 6 = blob'.take 6) (more : Alike rest rest') :
    Alike (frame (name, blob) ++ rest) (frame (name, blob') ++ rest')
  | damaged {rest rest' : Bytes} (hne : rest ≠ []) (hne' : rest' ≠ []) (h : Broken rest)
    (h' : Broken rest') : Alike rest rest'

/-- Store files that agree on their version, their key id and, but for the blobs' contents, on
their entries; or that are both cut short. -/
structure AlikeStores (d d' : Bytes) : Prop where
  magic : ascii "FST1" <+: d
  magic' : ascii "FST1" <+: d'
  fields : d.length < HEADER_LEN ∧ d'.length < HEADER_LEN ∨
    HEADER_LEN ≤ d.length ∧ HEADER_LEN ≤ d'.length ∧ byteAt d 4 = byteAt d' 4 ∧
      (d.drop 21).take 16 = (d'.drop 21).take 16 ∧ Alike (d.drop HEADER_LEN) (d'.drop HEADER_LEN)

section Stores

theorem Walk.add_congr (w : Walk) (name : Bytes) {blob blob' : Bytes} (hlen : blob.length = blob'.length)
    (hhead : blob.take 6 = blob'.take 6) : w.add name blob = w.add name blob' := by
  have h5 : byteAt (blob.take 6) 5 = byteAt blob 5 := getD_take (by decide) blob
  have h5' : byteAt (blob'.take 6) 5 = byteAt blob' 5 := getD_take (by decide) blob'
  have hmagic (b : Bytes) : ascii "FAFN" <+: b ↔ ascii "FAFN" <+: b.take 6 := by
    rw [List.prefix_take_iff]
    exact (and_iff_left (by decide +kernel)).symm
  unfold Walk.add
  simp only [hmagic blob, hmagic blob', hhead, hlen, ← h5, ← h5']

theorem lt_length_append (front : Bytes) {back : Bytes} (hne : back ≠ []) :
    front.length < (front ++ back).length := by
  have hpos := List.length_pos_iff.mpr hne
  rw [List.length_append]
  omega

theorem walkFrom_nil (front : Bytes) (fuel : ℕ) (w : Walk) :
    walkFrom (front ++ []) fuel front.length w = w := by
  cases fuel with
  | zero => rfl
  | succ fuel => rw [walkFrom, List.append_nil, if_neg (Nat.lt_irrefl _)]

theorem walkFrom_broken {front rest : Bytes} {fuel : ℕ} (hne : rest ≠ []) (h : Broken rest)
    (hfuel : rest.length ≤ fuel) (w : Walk) :
    walkFrom (front ++ rest) fuel front.length w = { w with damaged := some front.length } := by
  have hpos := List.length_pos_iff.mpr hne
  obtain ⟨fuel, rfl⟩ := Nat.exists_eq_succ_of_ne_zero (by omega : fuel ≠ 0)
  rw [walkFrom, if_pos (lt_length_append front hne), storeEntry_eq_none.mpr h]

theorem walkFrom_frame {front rest name blob : Bytes} {fuel : ℕ} (framed : Framed (name, blob))
    (w : Walk) : walkFrom (front ++ (frame (name, blob) ++ rest)) (fuel + 1) front.length w =
      walkFrom ((front ++ frame (name, blob)) ++ rest) fuel (front ++ frame (name, blob)).length
        (w.add name blob) := by
  have hne : frame (name, blob) ++ rest ≠ [] := by
    intro hnil
    have hlen := congrArg List.length hnil
    rw [List.length_append, length_frame, List.length_nil] at hlen
    omega
  have hentry : storeEntry (front ++ (frame (name, blob) ++ rest)) front.length =
      some (name, blob, front.length + (frame (name, blob)).length) :=
    storeEntry_eq_some.mpr ⟨framed, ⟨rest, rfl⟩, rfl⟩
  rw [walkFrom, if_pos (lt_length_append front hne), hentry, List.append_assoc, List.length_append]

/-- The two walks go in step, and end at the same place. -/
theorem walkFrom_alike {back back' : Bytes} (h : Alike back back') {front front' : Bytes}
    (hfront : front.length = front'.length) {fuel fuel' : ℕ} (hfuel : back.length ≤ fuel)
    (hfuel' : back'.length ≤ fuel') (w : Walk) :
    walkFrom (front ++ back) fuel front.length w = walkFrom (front' ++ back') fuel' front'.length w := by
  induction h generalizing front front' fuel fuel' w with
  | nil => rw [walkFrom_nil, walkFrom_nil]
  | damaged hne hne' h h' => rw [walkFrom_broken hne h hfuel, walkFrom_broken hne' h' hfuel', hfront]
  | @entry name blob blob' rest rest' framed hlen hhead more ih =>
    have framed' : Framed (name, blob') := ⟨framed.name, hlen ▸ framed.blob⟩
    have hframe := length_frame (name, blob)
    have hframe' := length_frame (name, blob')
    rw [List.length_append] at hfuel hfuel'
    obtain ⟨fuel, rfl⟩ := Nat.exists_eq_succ_of_ne_zero (by omega : fuel ≠ 0)
    obtain ⟨fuel', rfl⟩ := Nat.exists_eq_succ_of_ne_zero (by omega : fuel' ≠ 0)
    rw [walkFrom_frame framed, walkFrom_frame framed', w.add_congr name hlen hhead]
    apply ih
    · rw [List.length_append, List.length_append, hfront, hframe, hframe']
      dsimp only
      rw [hlen]
    · omega
    · omega

theorem walkStore_alike {d d' : Bytes} (hlen : HEADER_LEN ≤ d.length) (hlen' : HEADER_LEN ≤ d'.length)
    (h : Alike (d.drop HEADER_LEN) (d'.drop HEADER_LEN)) : walkStore d = walkStore d' := by
  have hheader {d : Bytes} (hlen : HEADER_LEN ≤ d.length) : (d.take HEADER_LEN).length = HEADER_LEN :=
    List.length_take_of_le hlen
  have hback (d : Bytes) : (d.drop HEADER_LEN).length ≤ d.length := by
    rw [List.length_drop]
    exact Nat.sub_le _ _
  have hwalk := walkFrom_alike h ((hheader hlen).trans (hheader hlen').symm) (hback d) (hback d')
    { names := [], algs := [], damaged := none }
  rw [List.take_append_drop, List.take_append_drop, hheader hlen, hheader hlen'] at hwalk
  exact hwalk

theorem store_congr {d d' : Bytes} (h : AlikeStores d d') : store d = store d' := by
  rw [store, store, if_neg (not_not.mpr h.magic), if_neg (not_not.mpr h.magic')]
  dsimp only
  rcases h.fields with ⟨hshort, hshort'⟩ | ⟨hlen, hlen', hversion, hid, halike⟩
  · rw [if_pos hshort, if_pos hshort']
  · rw [if_neg (Nat.not_lt.mpr hlen), if_neg (Nat.not_lt.mpr hlen'), hversion, hid,
      walkStore_alike hlen hlen' halike]

theorem store_isSome {d : Bytes} (hmagic : ascii "FST1" <+: d) : ∃ found, store d = some found := by
  rw [store, if_neg (not_not.mpr hmagic)]
  dsimp only
  split
  · exact ⟨_, rfl⟩
  · split
    · exact ⟨_, rfl⟩
    · exact ⟨_, rfl⟩

theorem blob_of_store {d : Bytes} (hmagic : ascii "FST1" <+: d) : blob d = none := by
  have hother : ¬ascii "FAFN" <+: d := by
    intro hblob
    have heq := List.prefix_of_prefix_length_le hblob hmagic (by decide +kernel)
    exact absurd heq (by decide +kernel)
  exact if_pos hother

theorem inspectAt_store (lib : Lib) (depth : ℕ) {d : Bytes} {found : Finding}
    (hmagic : ascii "FST1" <+: d) (h : store d = some found) : inspectAt lib d depth = found := by
  rw [inspectAt_eq, inspectOne, recognizers, List.findSome?_cons, blob_of_store hmagic]
  dsimp only
  rw [List.findSome?_cons, h]
  rfl

/-! ### Files that are cut short -/

theorem Broken.take {rest : Bytes} (h : Broken rest) (n : ℕ) : Broken (rest.take n) := by
  intro e back he heq
  apply h e (back ++ rest.drop n) he
  rw [← List.append_assoc, ← heq, List.take_append_drop]

theorem broken_take_frame {e : Bytes × Bytes} (he : Framed e) {n : ℕ} (hn : n < (frame e).length) :
    Broken ((frame e).take n) := by
  intro e' back he' heq
  have hwhole : frame e ++ [] = frame e' ++ (back ++ (frame e).drop n) := by
    rw [← List.append_assoc, ← heq, List.take_append_drop, List.append_nil]
  obtain ⟨rfl, hnil⟩ := frame_append_inj he he' hwhole
  have hlen := congrArg List.length heq
  rw [List.length_take, List.length_append] at hlen
  omega

theorem Alike.take {back back' : Bytes} (h : Alike back back') (n : ℕ) :
    Alike (back.take n) (back'.take n) := by
  induction h generalizing n with
  | nil =>
    rw [List.take_nil]
    exact .nil
  | @damaged rest rest' hne hne' h h' =>
    cases n with
    | zero => exact .nil
    | succ n =>
      have htake {rest : Bytes} (hne : rest ≠ []) : rest.take (n + 1) ≠ [] := by
        rw [Ne, List.take_eq_nil_iff, not_or]
        exact ⟨Nat.succ_ne_zero n, hne⟩
      exact .damaged (htake hne) (htake hne') (h.take _) (h'.take _)
  | @entry name blob blob' rest rest' framed hlen hhead more ih =>
    have framed' : Framed (name, blob') := ⟨framed.name, hlen ▸ framed.blob⟩
    have hframes : (frame (name, blob)).length = (frame (name, blob')).length := by
      rw [length_frame, length_frame]
      dsimp only
      rw [hlen]
    by_cases hn : n < (frame (name, blob)).length
    · have hn' : n < (frame (name, blob')).length := hframes ▸ hn
      rw [List.take_append_of_le_length (Nat.le_of_lt hn), List.take_append_of_le_length (Nat.le_of_lt hn')]
      cases n with
      | zero => exact .nil
      | succ n =>
        have htake {b : Bytes} (hb : n + 1 < b.length) : b.take (n + 1) ≠ [] := by
          rw [Ne, List.take_eq_nil_iff, not_or]
          exact ⟨Nat.succ_ne_zero n, List.ne_nil_of_length_pos (by omega)⟩
        exact .damaged (htake hn) (htake hn') (broken_take_frame framed hn) (broken_take_frame framed' hn')
    · have hle := Nat.le_of_not_lt hn
      have hle' : (frame (name, blob')).length ≤ n := hframes ▸ hle
      rw [List.take_append, List.take_append, List.take_of_length_le hle, List.take_of_length_le hle',
        hframes]
      exact .entry framed hlen hhead (ih _)

theorem AlikeStores.take {d d' : Bytes} (h : AlikeStores d d') {n : ℕ} (hn : 4 ≤ n) :
    AlikeStores (d.take n) (d'.take n) := by
  have hmagic {d : Bytes} (hd : ascii "FST1" <+: d) : ascii "FST1" <+: d.take n := by
    rw [List.prefix_take_iff]
    exact ⟨hd, (by decide +kernel : (ascii "FST1").length ≤ 4).trans hn⟩
  refine ⟨hmagic h.magic, hmagic h.magic', ?_⟩
  rcases h.fields with ⟨hshort, hshort'⟩ | ⟨hlen, hlen', hversion, hid, halike⟩
  · exact .inl ⟨(List.length_take_le' n d).trans_lt hshort, (List.length_take_le' n d').trans_lt hshort'⟩
  · by_cases hcut : n < HEADER_LEN
    · refine .inl ⟨?_, ?_⟩
      · exact (List.length_take_le n d).trans_lt hcut
      · exact (List.length_take_le n d').trans_lt hcut
    · have hle : HEADER_LEN ≤ n := Nat.le_of_not_lt hcut
      have hheader : HEADER_LEN = 37 := rfl
      have hlong {d : Bytes} (hd : HEADER_LEN ≤ d.length) : HEADER_LEN ≤ (d.take n).length := by
        rw [List.length_take]
        exact Nat.le_min.mpr ⟨hle, hd⟩
      have hid' (d : Bytes) : ((d.take n).drop 21).take 16 = (d.drop 21).take 16 := by
        rw [List.drop_take, List.take_take, Nat.min_eq_left (by omega)]
      have hversion' (d : Bytes) : byteAt (d.take n) 4 = byteAt d 4 := getD_take (by omega) d
      refine .inr ⟨hlong hlen, hlong hlen', ?_, ?_, ?_⟩
      · rw [hversion', hversion', hversion]
      · rw [hid', hid', hid]
      · rw [List.drop_take, List.drop_take]
        exact halike.take _

end Stores

/-- `inspect` does not see what is secret: of a blob it sees the length and the first 22 bytes, of a
store file neither the salt nor more than 6 bytes of a blob, also where the file is cut short. -/
theorem inspect_blind (lib : Lib) :
    (∀ b b' : Bytes, ascii "FAFN" <+: b → ascii "FAFN" <+: b' → b.length = b'.length →
      b.take 22 = b'.take 22 → inspect lib b = inspect lib b') ∧
    ∀ d d' : Bytes, AlikeStores d d' → inspect lib d = inspect lib d' ∧
      ∀ n, 4 ≤ n → inspect lib (d.take n) = inspect lib (d'.take n) := by
  constructor
  · intro b b' hmagic hmagic' hlen hhead
    have hblob := blob_eq (b := b) hmagic
    have hsame := blob_congr hlen hmagic hmagic' hhead
    exact (inspectAt_blob lib 0 hblob).trans (inspectAt_blob lib 0 (hsame ▸ hblob)).symm
  · have hstores (d d' : Bytes) (h : AlikeStores d d') : inspect lib d = inspect lib d' := by
      obtain ⟨found, hfound⟩ := store_isSome h.magic
      have hfound' : store d' = some found := (store_congr h).symm.trans hfound
      exact (inspectAt_store lib 0 h.magic hfound).trans (inspectAt_store lib 0 h.magic' hfound').symm
    exact fun d d' h => ⟨hstores d d' h, fun n hn => hstores _ _ (h.take hn)⟩

/-- A blob with `b` in its nonce, its ciphertext and its tag. -/
def filledBlob (b : UInt8) : Bytes :=
  Aead.headerBytes .aes256Gcm (.fill 16 7) (List.replicate 12 b) ++ List.replicate 20 b

/-- A store of that blob, with `b` in its salt. -/
def filledStore (b : UInt8) : Bytes := header (.fill 16 b) (.fill 16 9) ++ entryOf (['a'], filledBlob b)

theorem filledStore_alike (b b' : UInt8) : AlikeStores (filledStore b) (filledStore b') := by
  have hlen (b : UInt8) : (filledBlob b).length = 74 := rfl
  have hw (b : UInt8) : Writable (['a'], filledBlob b) := ⟨validateName_eq_ok.mp rfl, by rw [hlen]; decide⟩
  have hlong (b : UInt8) : HEADER_LEN ≤ (filledStore b).length := by
    rw [filledStore, List.length_append, header_length]
    exact Nat.le_add_right _ _
  have hframe (b : UInt8) : (filledStore b).drop HEADER_LEN = frame (raw (['a'], filledBlob b)) ++ [] := by
    rw [← entryOf_eq (hw b), List.append_nil]
    exact List.drop_left' (header_length _ _)
  have halike : Alike ((filledStore b).drop HEADER_LEN) ((filledStore b').drop HEADER_LEN) := by
    rw [hframe, hframe]
    exact .entry (framed_raw (hw b)) rfl rfl .nil
  exact ⟨⟨_, rfl⟩, ⟨_, rfl⟩, .inr ⟨hlong b, hlong b', rfl, rfl, halike⟩⟩

theorem inspect_blind_sample :
    inspect asciiLib (filledBlob 1) = inspect asciiLib (filledBlob 2) ∧
    inspect asciiLib (filledStore 1) = inspect asciiLib (filledStore 2) ∧
    ∀ n, 4 ≤ n → inspect asciiLib ((filledStore 1).take n) = inspect asciiLib ((filledStore 2).take n) := by
  obtain ⟨hblobs, hstores⟩ := inspect_blind asciiLib
  have hmagic (b : UInt8) : ascii "FAFN" <+: filledBlob b := ⟨_, rfl⟩
  obtain ⟨hwhole, hcut⟩ := hstores _ _ (filledStore_alike 1 2)
  exact ⟨hblobs _ _ (hmagic 1) (hmagic 2) rfl rfl, hwhole, hcut⟩

end Krypto.Inspect
