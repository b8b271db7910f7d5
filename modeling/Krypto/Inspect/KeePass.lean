import Krypto.Inspect.Entries
import Krypto.Inspect.Files

/-! The header of a KeePass database: what the walk over its fields finds, and
which key derivation is named when the parameters hold more than one id. -/

namespace Krypto.Inspect.Files
open Effect Store

/-! ### The walk with its indices -/

namespace Checked
variable {ε : Type}

def u16 (b : Bytes) : Outcome ε ℕ := do
  let low ← index b 0
  let high ← index b 1
  pure (be [high, low])

def u32 (b : Bytes) : Outcome ε ℕ :=
  if b.length = 4 then .ok (be b.reverse) else .panic

def number (read : Bytes → Outcome ε ℕ) (input : Bytes) (i n : ℕ) : Outcome ε (Option ℕ) :=
  match range input i (i + n) with
  | none => pure none
  | some b => do pure (some (← read b))

/-- The loop of `keepass`, for so many turns; `none` when they do not suffice. -/
def keepassFields (wide : Bool) (input : Bytes) : ℕ → ℕ → Kdbx → Option (Outcome ε Kdbx)
  | 0, pos, k =>
    match input[pos]? with
    | none => some (.ok k)
    | some _ => none
  | turns + 1, pos, k =>
    match input[pos]? with
    | none => some (.ok k)
    | some id =>
      let len := if wide then number u32 input (pos + 1) 4 else number u16 input (pos + 1) 2
      let dataAt := if wide then pos + 5 else pos + 3
      match len with
      | .ok len =>
        match len.bind fun len => range input dataAt (dataAt + len) with
        | none => some (.ok k)
        | some data =>
          if id = 0 then some (.ok k)
          else keepassFields wide input turns (dataAt + data.length) (k.add wide id data)
      | .err e => some (.err e)
      | .panic => some .panic

end Checked

def wide (major : Option ℕ) : Bool :=
  match major with
  | some m => decide (4 ≤ m)
  | none => false

def Kdbx.report (major minor : Option ℕ) (k : Kdbx) : Finding :=
  let found := Finding.new "KeePass database (KDBX)"
  let found := match major, minor with
    | some major, some minor => found.fact "version" (Str.decimal major ++ ['.'] ++ Str.decimal minor)
    | _, _ => found
  let found := match k.cipher with
    | some cipher => found.fact "cipher" cipher
    | none => found
  match k.kdf with
  | some kdf => found.fact "key from" kdf
  | none => found

theorem keepass_eq (input : Bytes) : keepass input =
    (keepassFields (wide (leAt input 10 2)) input input.length 12 ⟨none, none⟩).report
      (leAt input 10 2) (leAt input 8 2) := rfl

/-- `keepass`, with a panic where an index is out of range. -/
def Checked.keepass {ε : Type} (turns : ℕ) (input : Bytes) : Option (Outcome ε Finding) :=
  match (number u16 input 8 2 : Outcome ε _), (number u16 input 10 2 : Outcome ε _) with
  | .ok minor, .ok major =>
    (keepassFields (wide major) input turns 12 ⟨none, none⟩).map fun walked => do
      pure ((← walked).report major minor)
  | _, _ => some .panic

section InRange
variable {ε : Type}

theorem length_of_range {input b : Bytes} {i n : ℕ} (h : range input i (i + n) = some b) :
    b.length = n ∧ i + n ≤ input.length := by
  unfold range at h
  split_ifs at h with hle
  obtain rfl := Option.some.inj h
  rw [List.length_take, List.length_drop]
  omega

theorem number_u16 (input : Bytes) (i : ℕ) :
    (Checked.number Checked.u16 input i 2 : Outcome ε _) = .ok (leAt input i 2) := by
  unfold Checked.number leAt
  cases hrange : range input i (i + 2) with
  | none => rfl
  | some b =>
    obtain ⟨b0, b1, rfl⟩ := List.length_eq_two.mp (length_of_range hrange).1
    rfl

theorem number_u32 (input : Bytes) (i : ℕ) :
    (Checked.number Checked.u32 input i 4 : Outcome ε _) = .ok (leAt input i 4) := by
  unfold Checked.number leAt
  cases hrange : range input i (i + 4) with
  | none => rfl
  | some b =>
    have hlen := (length_of_range hrange).1
    have hread : (Checked.u32 b : Outcome ε ℕ) = .ok (be b.reverse) := if_pos hlen
    dsimp only
    rw [hread]
    rfl

def fieldAt (wide : Bool) (input : Bytes) (pos : ℕ) : Option Bytes :=
  if wide then (leAt input (pos + 1) 4).bind fun len => range input (pos + 5) (pos + 5 + len)
  else (leAt input (pos + 1) 2).bind fun len => range input (pos + 3) (pos + 3 + len)

def fieldEnd (wide : Bool) (pos : ℕ) (data : Bytes) : ℕ :=
  (if wide then pos + 5 else pos + 3) + data.length

theorem fieldEnd_le {wide : Bool} {input data : Bytes} {pos : ℕ}
    (h : fieldAt wide input pos = some data) :
    pos + 3 ≤ fieldEnd wide pos data ∧ fieldEnd wide pos data ≤ input.length := by
  unfold fieldAt at h
  unfold fieldEnd
  cases wide with
  | true =>
    obtain ⟨len, -, hdata⟩ := Option.bind_eq_some_iff.mp h
    obtain ⟨hlen, hle⟩ := length_of_range hdata
    simp only [if_true, hlen]
    omega
  | false =>
    obtain ⟨len, -, hdata⟩ := Option.bind_eq_some_iff.mp h
    obtain ⟨hlen, hle⟩ := length_of_range hdata
    simp only [Bool.false_eq_true, if_false, hlen]
    omega

theorem keepassFields_past {wide : Bool} {input : Bytes} {fuel pos : ℕ} {k : Kdbx}
    (h : input.length ≤ pos) : keepassFields wide input fuel pos k = k := by
  cases fuel with
  | zero => rfl
  | succ fuel => rw [keepassFields, List.getElem?_eq_none h]

theorem keepassFields_step {wide : Bool} {input : Bytes} {fuel pos : ℕ} {k : Kdbx} {id : UInt8}
    (h : input[pos]? = some id) :
    keepassFields wide input (fuel + 1) pos k =
      match fieldAt wide input pos with
      | none => k
      | some data =>
        if id = 0 then k
        else keepassFields wide input fuel (fieldEnd wide pos data) (k.add wide id data) := by
  cases wide with
  | true =>
    rw [keepassFields, h]
    rfl
  | false =>
    rw [keepassFields, h]
    rfl

theorem checked_step {wide : Bool} {input : Bytes} {turns pos : ℕ} {k : Kdbx} {id : UInt8}
    (h : input[pos]? = some id) :
    (Checked.keepassFields wide input (turns + 1) pos k : Option (Outcome ε Kdbx)) =
      match fieldAt wide input pos with
      | none => some (.ok k)
      | some data =>
        if id = 0 then some (.ok k)
        else Checked.keepassFields wide input turns (fieldEnd wide pos data) (k.add wide id data) := by
  cases wide with
  | true =>
    rw [Checked.keepassFields, h]
    dsimp only
    rw [if_pos rfl, number_u32]
    rfl
  | false =>
    rw [Checked.keepassFields, h]
    dsimp only
    rw [if_neg Bool.false_ne_true, number_u16]
    rfl

/-- The loop indexes nothing out of range, and every turn but the last takes three bytes or more. -/
theorem walk_ends {wide : Bool} {input : Bytes} {turns fuel pos : ℕ} {k : Kdbx}
    (hturns : input.length ≤ pos + 3 * turns) (hfuel : input.length ≤ pos + fuel) :
    (Checked.keepassFields wide input turns pos k : Option (Outcome ε Kdbx)) =
      some (.ok (keepassFields wide input fuel pos k)) := by
  induction turns generalizing fuel pos k with
  | zero =>
    have hpast : input.length ≤ pos := by omega
    rw [Checked.keepassFields, keepassFields_past hpast, List.getElem?_eq_none hpast]
  | succ turns ih =>
    cases hid : input[pos]? with
    | none =>
      have hpast : input.length ≤ pos := List.getElem?_eq_none_iff.mp hid
      rw [Checked.keepassFields, keepassFields_past hpast, hid]
    | some id =>
      obtain ⟨hlt, -⟩ := List.getElem?_eq_some_iff.mp hid
      obtain ⟨fuel, rfl⟩ := Nat.exists_eq_succ_of_ne_zero (by omega : fuel ≠ 0)
      rw [checked_step hid, keepassFields_step hid]
      cases hdata : fieldAt wide input pos with
      | none => rfl
      | some data =>
        dsimp only
        obtain ⟨hstep, -⟩ := fieldEnd_le hdata
        split_ifs with hzero
        · rfl
        · exact ih (by omega) (by omega)

theorem checked_keepass {input : Bytes} {turns : ℕ} (h : input.length ≤ 12 + 3 * turns) :
    (Checked.keepass turns input : Option (Outcome ε Finding)) = some (.ok (keepass input)) := by
  have hwalk : (Checked.keepassFields (wide (leAt input 10 2)) input turns 12 ⟨none, none⟩ :
      Option (Outcome ε Kdbx)) = some (.ok (keepassFields (wide (leAt input 10 2)) input input.length 12
        ⟨none, none⟩)) := walk_ends h (Nat.le_add_left input.length 12)
  unfold Checked.keepass
  rw [number_u16, number_u16]
  dsimp only
  rw [hwalk, keepass_eq]
  rfl

end InRange

/-! ### A header as it is written -/

section Written

def lengthBytes (wide : Bool) (n : ℕ) : Bytes := if wide then le32 n else le16 n

/-- A field whose length its version has room for. -/
structure Field (wide : Bool) where
  id : UInt8
  data : Bytes
  fits : data.length < if wide then 2 ^ 32 else 2 ^ 16

def Field.bytes {wide : Bool} (f : Field wide) : Bytes :=
  f.id :: (lengthBytes wide f.data.length ++ f.data)

/-- An outer header: the signature, the version, and fields up to one with the id 0. -/
structure Header where
  minor : ℕ
  major : ℕ
  minor_lt : minor < 2 ^ 16
  major_lt : major < 2 ^ 16
  fields : List (Field (wide (some major)))
  ids : ∀ f ∈ fields, f.id ≠ 0
  last : Field (wide (some major))
  last_id : last.id = 0

def signature : Bytes := [0x03, 0xd9, 0xa2, 0x9a, 0x67, 0xfb, 0x4b, 0xb5]

def Header.bytes (h : Header) : Bytes :=
  signature ++ (le16 h.minor ++ (le16 h.major ++ (h.fields.flatMap Field.bytes ++ h.last.bytes)))

end Written

/-! ### What the walk finds in it -/

section Walk
variable {wide : Bool}

theorem length_field (f : Field wide) (pos : ℕ) :
    fieldEnd wide pos f.data = pos + f.bytes.length := by
  unfold fieldEnd Field.bytes lengthBytes
  cases wide with
  | true =>
    simp only [if_true, List.length_cons, List.length_append, le32, List.length_nil]
    omega
  | false =>
    simp only [Bool.false_eq_true, if_false, List.length_cons, List.length_append, le16,
      List.length_nil]
    omega

theorem fieldAt_bytes (front : Bytes) (f : Field wide) (back : Bytes) :
    fieldAt wide (front ++ (f.bytes ++ back)) front.length = some f.data := by
  have hcons : front ++ (f.bytes ++ back) =
      (front ++ [f.id]) ++ (lengthBytes wide f.data.length ++ (f.data ++ back)) := by
    simp [Field.bytes]
  obtain ⟨id, data, fits⟩ := f
  unfold fieldAt
  rw [hcons]
  unfold lengthBytes
  cases wide with
  | true =>
    have hlen : leAt ((front ++ [id]) ++ (le32 data.length ++ (data ++ back)))
        (front.length + 1) 4 = some data.length :=
      (leAt_cursor (by simp)).mpr ⟨_, _, rfl, rfl, be_le32 fits⟩
    simp only [if_true, hlen, Option.bind_some]
    rw [← List.append_assoc]
    exact (range_cursor (by simp [le32])).mpr ⟨rfl, back, rfl⟩
  | false =>
    have hlen : leAt ((front ++ [id]) ++ (le16 data.length ++ (data ++ back)))
        (front.length + 1) 2 = some data.length :=
      (leAt_cursor (by simp)).mpr ⟨_, _, rfl, rfl, be_le16 fits⟩
    simp only [Bool.false_eq_true, if_false, hlen, Option.bind_some]
    rw [← List.append_assoc]
    exact (range_cursor (by simp [le16])).mpr ⟨rfl, back, rfl⟩

theorem walk_field (front : Bytes) (f : Field wide) (back : Bytes) (fuel : ℕ) (k : Kdbx) :
    keepassFields wide (front ++ (f.bytes ++ back)) (fuel + 1) front.length k =
      if f.id = 0 then k
      else keepassFields wide (front ++ (f.bytes ++ back)) fuel (front ++ f.bytes).length
        (k.add wide f.id f.data) := by
  have hid : (front ++ (f.bytes ++ back))[front.length]? = some f.id := by
    rw [List.getElem?_append_right (Nat.le_refl _), Nat.sub_self]
    rfl
  rw [keepassFields_step hid, fieldAt_bytes]
  dsimp only
  rw [length_field, List.length_append]

/-- The walk adds the fields in order, and ends at the one with the id 0. -/
theorem walk_fields {fields : List (Field wide)} (hids : ∀ f ∈ fields, f.id ≠ 0) {last : Field wide}
    (hlast : last.id = 0) (front back : Bytes) {fuel : ℕ} (hfuel : fields.length < fuel) (k : Kdbx) :
    keepassFields wide (front ++ (fields.flatMap Field.bytes ++ (last.bytes ++ back))) fuel
      front.length k = fields.foldl (fun k f => k.add wide f.id f.data) k := by
  induction fields generalizing front fuel k with
  | nil =>
    obtain ⟨fuel, rfl⟩ := Nat.exists_eq_succ_of_ne_zero (by omega : fuel ≠ 0)
    rw [List.flatMap_nil, List.nil_append, walk_field, if_pos hlast]
    rfl
  | cons f fields ih =>
    obtain ⟨hf, hfields⟩ := List.forall_mem_cons.mp hids
    rw [List.length_cons] at hfuel
    obtain ⟨fuel, rfl⟩ := Nat.exists_eq_succ_of_ne_zero (by omega : fuel ≠ 0)
    rw [List.flatMap_cons, List.append_assoc, walk_field, if_neg hf, ← List.append_assoc,
      ih hfields _ (by omega)]
    rfl

end Walk

/-! ### What the fields say -/

section Named

/-- The first four bytes of the ids of the ciphers. -/
def ciphers : List (Bytes × String) :=
  [([0x31, 0xc1, 0xf2, 0xe6], "AES-256-CBC"), ([0xd6, 0x03, 0x8a, 0x2b], "ChaCha20"),
    ([0xad, 0x68, 0xf2, 0x9f], "Twofish")]

/-- The first four bytes of the ids of the key derivations, in the order they are looked for. -/
def derivations : List (Bytes × String) :=
  [([0xc9, 0xd9, 0xf3, 0x9a], "AES-KDF"), ([0xef, 0x63, 0x6d, 0xdf], "Argon2d"),
    ([0x9e, 0x29, 0x8b, 0x19], "Argon2id")]

def firstNamed (test : Bytes → Bool) (known : List (Bytes × String)) : String :=
  ((known.find? fun d => test d.1).map Prod.snd).getD "unknown"

def cipherName (id : Bytes) : String := firstNamed (fun d => decide (d <+: id)) ciphers

def kdfName (id : Bytes) : String := firstNamed (fun d => decide (d <+: id)) derivations

/-- The key derivation found anywhere in the parameters. -/
def kdfFound (data : Bytes) : String := firstNamed (fun d => has data d) derivations

theorem firstNamed_cons (test : Bytes → Bool) (d : Bytes × String) (known : List (Bytes × String)) :
    firstNamed test (d :: known) = if test d.1 then d.2 else firstNamed test known := by
  unfold firstNamed
  rw [List.find?_cons]
  cases test d.1 <;> rfl

theorem firstNamed_mem (test : Bytes → Bool) (known : List (Bytes × String)) :
    firstNamed test known ∈ known.map Prod.snd ++ ["unknown"] := by
  unfold firstNamed
  cases hfind : known.find? fun d => test d.1 with
  | none => simp
  | some d =>
    apply List.mem_append_left
    exact List.mem_map_of_mem (List.mem_of_find?_eq_some hfind)

/-- A wider test names the same as a narrower one unless it holds of something tried before. -/
theorem firstNamed_iff {wider exact : Bytes → Bool} (hwider : ∀ d, exact d → wider d)
    {known : List (Bytes × String)} (hnames : (known.map Prod.snd ++ ["unknown"]).Nodup) :
    firstNamed wider known = firstNamed exact known ↔
      ∀ d ∈ (known.takeWhile fun d => !exact d.1).map Prod.fst, ¬wider d := by
  induction known with
  | nil => simp [firstNamed]
  | cons d known ih =>
    obtain ⟨hnew, hrest⟩ := List.nodup_cons.mp hnames
    rw [firstNamed_cons, firstNamed_cons, List.takeWhile_cons]
    by_cases hexact : exact d.1
    · simp [hexact, hwider d.1 hexact]
    · have hkeep : (!exact d.1) = true := by simpa using hexact
      rw [if_neg hexact, if_pos hkeep, List.map_cons, List.forall_mem_cons]
      by_cases htest : wider d.1
      · rw [if_pos htest]
        have hne : d.2 ≠ firstNamed exact known := by
          intro heq
          rw [heq] at hnew
          exact hnew (firstNamed_mem exact known)
        exact iff_of_false hne fun h => h.1 htest
      · rw [if_neg htest, ih hrest]
        exact (and_iff_right htest).symm

theorem add_cipher {wide : Bool} (f : Field wide) (k : Kdbx) : (k.add wide f.id f.data).cipher =
    if f.id = 2 then some (cipherName f.data) else k.cipher := by
  have hname : cipherName f.data =
      if [0x31, 0xc1, 0xf2, 0xe6] <+: f.data then "AES-256-CBC"
      else if [0xd6, 0x03, 0x8a, 0x2b] <+: f.data then "ChaCha20"
      else if [0xad, 0x68, 0xf2, 0x9f] <+: f.data then "Twofish"
      else "unknown" := by
    unfold cipherName ciphers
    rw [firstNamed_cons, firstNamed_cons, firstNamed_cons]
    simp only [decide_eq_true_eq]
    rfl
  unfold Kdbx.add
  rw [hname]
  by_cases htwo : f.id = 2
  · rw [if_pos htwo, if_pos htwo]
  · rw [if_neg htwo, if_neg htwo]
    split_ifs <;> rfl

theorem add_kdf {wide : Bool} (f : Field wide) (k : Kdbx) : (k.add wide f.id f.data).kdf =
    if f.id = 11 then some (kdfFound f.data)
    else if f.id = 6 ∧ ¬wide then some "AES-KDF"
    else k.kdf := by
  have hfound : kdfFound f.data =
      if has f.data [0xc9, 0xd9, 0xf3, 0x9a] then "AES-KDF"
      else if has f.data [0xef, 0x63, 0x6d, 0xdf] then "Argon2d"
      else if has f.data [0x9e, 0x29, 0x8b, 0x19] then "Argon2id"
      else "unknown" := by
    unfold kdfFound derivations
    rw [firstNamed_cons, firstNamed_cons, firstNamed_cons]
    rfl
  unfold Kdbx.add
  rw [hfound]
  by_cases htwo : f.id = 2
  · have heleven : ¬f.id = 11 := by
      rw [htwo]
      decide
    have hsix : ¬(f.id = 6 ∧ ¬wide) := by
      rw [htwo]
      exact fun h => absurd h.1 (by decide)
    rw [if_pos htwo, if_neg heleven, if_neg hsix]
  · rw [if_neg htwo]
    split_ifs <;> rfl

def lastOf {wide : Bool} (kind : Field wide → Bool) (fields : List (Field wide)) :
    Option (Field wide) := (fields.filter kind).getLast?

def cipherField {wide : Bool} (f : Field wide) : Bool := f.id = 2

def kdfField {wide : Bool} (f : Field wide) : Bool := f.id = 11 ∨ (f.id = 6 ∧ ¬wide)

def named {wide : Bool} (read : Bytes → String) (fields : List (Field wide)) : Kdbx where
  cipher := (lastOf cipherField fields).map fun f => cipherName f.data
  kdf := (lastOf kdfField fields).map fun f => if f.id = 11 then read f.data else "AES-KDF"

theorem lastOf_append {wide : Bool} (kind : Field wide → Bool) (fields : List (Field wide))
    (f : Field wide) : lastOf kind (fields ++ [f]) =
      if kind f then some f else lastOf kind fields := by
  unfold lastOf
  rw [List.filter_append, List.filter_singleton]
  split_ifs with hf
  · rw [hf]
    simp
  · simp [hf]

theorem foldl_add {wide : Bool} (fields : List (Field wide)) :
    fields.foldl (fun k f => k.add wide f.id f.data) ⟨none, none⟩ = named kdfFound fields := by
  induction fields using List.reverseRecOn with
  | nil => rfl
  | append_singleton fields f ih =>
    rw [List.foldl_append, List.foldl_cons, List.foldl_nil, ih]
    have hcipher : ((named kdfFound fields).add wide f.id f.data).cipher =
        (named kdfFound (fields ++ [f])).cipher := by
      rw [add_cipher]
      unfold named
      dsimp only
      rw [lastOf_append]
      by_cases htwo : f.id = 2
      · rw [if_pos htwo, if_pos (by simp [cipherField, htwo])]
        rfl
      · rw [if_neg htwo, if_neg (by simp [cipherField, htwo])]
    have hkdf : ((named kdfFound fields).add wide f.id f.data).kdf =
        (named kdfFound (fields ++ [f])).kdf := by
      rw [add_kdf]
      unfold named
      dsimp only
      rw [lastOf_append]
      by_cases heleven : f.id = 11
      · rw [if_pos heleven, if_pos (by simp [kdfField, heleven])]
        simp [heleven]
      · rw [if_neg heleven]
        by_cases hsix : f.id = 6 ∧ ¬wide
        · rw [if_pos hsix, if_pos (by simpa [kdfField] using Or.inr hsix)]
          simp [heleven]
        · rw [if_neg hsix, if_neg (by simpa [kdfField, heleven] using hsix)]
    exact congrArg₂ Kdbx.mk hcipher hkdf

theorem keepass_bytes (h : Header) (rest : Bytes) : keepass (h.bytes ++ rest) =
    (named kdfFound h.fields).report (some h.major) (some h.minor) := by
  have hbytes : h.bytes ++ rest = signature ++ (le16 h.minor ++ (le16 h.major ++
      (h.fields.flatMap Field.bytes ++ (h.last.bytes ++ rest)))) := by
    simp [Header.bytes]
  have hminor : leAt (h.bytes ++ rest) 8 2 = some h.minor := by
    rw [hbytes]
    exact (leAt_cursor rfl).mpr ⟨_, _, rfl, rfl, be_le16 h.minor_lt⟩
  have hmajor : leAt (h.bytes ++ rest) 10 2 = some h.major := by
    rw [hbytes, ← List.append_assoc]
    exact (leAt_cursor rfl).mpr ⟨_, _, rfl, rfl, be_le16 h.major_lt⟩
  have hcount : h.fields.length ≤ (h.fields.flatMap Field.bytes).length := by
    rw [List.length_flatMap, ← List.length_map (f := fun f => (Field.bytes f).length)]
    apply List.length_le_sum_of_one_le
    intro n hn
    obtain ⟨f, -, rfl⟩ := List.mem_map.mp hn
    simp [Field.bytes]
  have hfuel : h.fields.length < (h.bytes ++ rest).length := by
    rw [hbytes]
    simp only [List.length_append, Field.bytes, List.length_cons]
    omega
  have hwalk : keepassFields (wide (some h.major)) (h.bytes ++ rest) (h.bytes ++ rest).length 12
      ⟨none, none⟩ = named kdfFound h.fields := by
    rw [← foldl_add, ← walk_fields h.ids h.last_id (signature ++ (le16 h.minor ++ le16 h.major)) rest
      hfuel, hbytes]
    simp only [List.append_assoc]
    rfl
  rw [keepass_eq, hminor, hmajor, hwalk]

end Named

/-! ### The parameters of the key derivation -/

section Derivation

structure Variant where
  kind : UInt8
  key : Bytes
  value : Bytes
  kind_ne : kind ≠ 0
  key_lt : key.length < 2 ^ 31
  value_lt : value.length < 2 ^ 31

def Variant.bytes (v : Variant) : Bytes :=
  v.kind :: (le32 v.key.length ++ (v.key ++ (le32 v.value.length ++ v.value)))

/-- Parameters with a `$UUID`: their version, the entries before and behind it, and a zero. -/
structure Parameters where
  version : Fixed 2
  front : List Variant
  uuid : Fixed 16
  back : List Variant
  others : ∀ v ∈ front ++ back, v.key ≠ ascii "$UUID"

def uuidEntry (uuid : Fixed 16) : Variant where
  kind := 0x42
  key := ascii "$UUID"
  value := uuid.toList
  kind_ne := by decide
  key_lt := by decide
  value_lt := by
    rw [uuid.length_eq]
    decide

def Parameters.bytes (p : Parameters) : Bytes :=
  p.version.toList ++ (p.front.flatMap Variant.bytes ++ ((uuidEntry p.uuid).bytes ++
    (p.back.flatMap Variant.bytes ++ [0])))

def earlier (uuid : Bytes) : List Bytes :=
  (derivations.takeWhile fun d => decide ¬d.1 <+: uuid).map Prod.fst

theorem uuid_within (p : Parameters) : p.uuid.toList <:+: p.bytes := by
  apply List.infix_iff_prefix_suffix.mpr
  apply Exists.intro (p.uuid.toList ++ (p.back.flatMap Variant.bytes ++ [0]))
  apply And.intro (List.prefix_append _ _)
  apply Exists.intro (p.version.toList ++ (p.front.flatMap Variant.bytes ++
    (0x42 :: (le32 5 ++ (ascii "$UUID" ++ le32 16)))))
  have hkey : (ascii "$UUID").length = 5 := by decide
  simp [Parameters.bytes, Variant.bytes, uuidEntry, p.uuid.length_eq, hkey]

theorem kdfFound_iff (p : Parameters) : kdfFound p.bytes = kdfName p.uuid.toList ↔
    ∀ d ∈ earlier p.uuid.toList, ¬d <:+: p.bytes := by
  have hwider : ∀ d, decide (d <+: p.uuid.toList) = true → has p.bytes d = true := by
    intro d hd
    exact has_eq_true.mpr ((of_decide_eq_true hd).isInfix.trans (uuid_within p))
  unfold kdfFound kdfName
  rw [firstNamed_iff hwider (by decide)]
  unfold earlier
  simp only [has_eq_true, decide_not]

theorem report_inj {major minor : Option ℕ} {cipher : Option String} {kdf kdf' : String}
    (h : Kdbx.report major minor ⟨cipher, some kdf⟩ = Kdbx.report major minor ⟨cipher, some kdf'⟩) :
    kdf = kdf' := by
  have hfacts := congrArg Finding.facts h
  have hlast := List.append_cancel_left hfacts
  have hvalue := congrArg Prod.snd (List.cons.inj hlast).1
  exact String.toList_injective hvalue

theorem kdfField_wide {wide : Bool} (hwide : wide = true) {fields : List (Field wide)} {f : Field wide}
    (h : lastOf kdfField fields = some f) : f.id = 11 := by
  have hmem := List.mem_of_getLast? h
  obtain ⟨-, hkind⟩ := List.mem_filter.mp hmem
  unfold kdfField at hkind
  rw [decide_eq_true_iff] at hkind
  exact hkind.resolve_right fun hsix => hsix.2 hwide

/-- What `keepass` says of a header. The walk ends without an index out of range; version and fields
decide the report, whatever follows; and the derivation named is that of the `$UUID` if and only if
no id looked for earlier stands in the parameters. -/
theorem keepass_header (h : Header) (rest : Bytes) :
    (∀ input turns, input.length ≤ 12 + 3 * turns →
      (Checked.keepass turns input : Option (Outcome Error Finding)) = some (.ok (keepass input))) ∧
    keepass (h.bytes ++ rest) = (named kdfFound h.fields).report (some h.major) (some h.minor) ∧
    ∀ p : Parameters, 4 ≤ h.major → (lastOf kdfField h.fields).map Field.data = some p.bytes →
      (keepass (h.bytes ++ rest) =
          (named (fun _ => kdfName p.uuid.toList) h.fields).report (some h.major) (some h.minor) ↔
        ∀ d ∈ earlier p.uuid.toList, ¬d <:+: p.bytes) := by
  apply And.intro
  · intro input turns hturns
    exact checked_keepass hturns
  apply And.intro (keepass_bytes h rest)
  intro p hmajor hparameters
  obtain ⟨f, hf, hdata⟩ := Option.map_eq_some_iff.mp hparameters
  have heleven : f.id = 11 := kdfField_wide (decide_eq_true hmajor) hf
  have hnamed : ∀ read, named read h.fields =
      ⟨(lastOf cipherField h.fields).map fun f => cipherName f.data, some (read p.bytes)⟩ := by
    intro read
    unfold named
    rw [hf, Option.map_some, if_pos heleven, hdata]
  rw [keepass_bytes, hnamed, hnamed, ← kdfFound_iff]
  constructor
  · exact report_inj
  · intro hsame
    rw [hsame]

/-- Argon2id, with a salt that begins with the id of AES-KDF. -/
def salted : Parameters where
  version := ⟨[0x00, 0x01], rfl⟩
  front := []
  uuid := ⟨[0x9e, 0x29, 0x8b, 0x19, 0x56, 0xdb, 0x47, 0x73, 0xb2, 0x3d, 0xfc, 0x3e, 0xc6, 0xf0, 0xa1,
    0xe6], rfl⟩
  back := [⟨0x42, ascii "S", [0xc9, 0xd9, 0xf3, 0x9a] ++ List.replicate 28 0x5a, by decide, by decide,
    by decide⟩]
  others := by decide

def saltedHeader : Header where
  minor := 0
  major := 4
  minor_lt := by decide
  major_lt := by decide
  fields := [⟨2, [0xd6, 0x03, 0x8a, 0x2b, 0x8b, 0x6f, 0x4c, 0xb5, 0xa5, 0x24, 0x33, 0x9a, 0x31, 0xdb,
    0xb5, 0x9a], by decide⟩, ⟨11, salted.bytes, by decide⟩]
  ids := by decide
  last := ⟨0, [0x0d, 0x0a, 0x0d, 0x0a], by decide⟩
  last_id := rfl

theorem salted_misnamed :
    kdfName salted.uuid.toList = "Argon2id" ∧
    keepass saltedHeader.bytes = Kdbx.report (some 4) (some 0) ⟨some "ChaCha20", some "AES-KDF"⟩ ∧
    keepass saltedHeader.bytes ≠ Kdbx.report (some 4) (some 0) ⟨some "ChaCha20", some "Argon2id"⟩ := by
  decide

end Derivation

end Krypto.Inspect.Files
