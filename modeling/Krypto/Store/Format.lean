import Krypto.Effect.Kernel
import Krypto.Store.Name

/-! `store.rs`: the bytes of a store file, as `persist` builds them and as
`load` reads them. -/

namespace Krypto.Store
open Effect

def STORE_MAGIC : Bytes := [0x46, 0x53, 0x54, 0x31]

def STORE_VER : UInt8 := 1

def HEADER_LEN : Nat := 4 + 1 + 16 + 16

def MAX_STORE_BYTES : Nat := 16 * 1024 * 1024

abbrev Entries := AList fun _ : Str => Bytes

instance : DecidableEq Entries := fun a b =>
  decidable_of_iff (a.entries = b.entries) AList.ext_iff.symm

structure Contents where
  salt : Fixed 16
  keyId : Fixed 16
  entries : Entries
  deriving DecidableEq

def le16 (n : Nat) : Bytes := [UInt8.ofNat n, UInt8.ofNat (n / 256)]

def le32 (n : Nat) : Bytes :=
  [UInt8.ofNat n, UInt8.ofNat (n / 256), UInt8.ofNat (n / 65536), UInt8.ofNat (n / 16777216)]

def fromLe16 (b0 b1 : UInt8) : Nat := b0.toNat + 256 * b1.toNat

def fromLe32 (b0 b1 b2 b3 : UInt8) : Nat :=
  b0.toNat + 256 * b1.toNat + 65536 * b2.toNat + 16777216 * b3.toNat

def u32TryFrom (n : Nat) : Outcome Error Nat :=
  if n < 2 ^ 32 then .ok n else .err (.format "blob too big for the store format")

/-- The bytes of one entry; the length of the name is cut to 16 bits. -/
def entryBytes (name : Str) (blen : Nat) (blob : Bytes) : Bytes :=
  le16 (name.asBytes.length % 2 ^ 16) ++ name.asBytes ++ le32 blen ++ blob

def appendEntries (entries : Entries) : List Str → Bytes → Outcome Error Bytes
  | [], buf => .ok buf
  | name :: names, buf =>
    match entries.lookup name with
    | none => .panic
    | some blob => do
      let blen ← u32TryFrom blob.length
      appendEntries entries names (buf ++ entryBytes name blen blob)

def image (c : Contents) : Outcome Error Bytes :=
  appendEntries c.entries (Str.sort c.entries.keys)
    (STORE_MAGIC ++ [STORE_VER] ++ c.salt.toList ++ c.keyId.toList)

/-- `persist` up to the write. -/
def checkedImage (c : Contents) : Outcome Error Bytes := do
  let buf ← image c
  if MAX_STORE_BYTES < buf.length then
    .err (.format s!"the store would grow past {MAX_STORE_BYTES} bytes, which `open` refuses")
  else
    .ok buf

/-- `Some(end) if end <= len`, for `end = off + n` -/
def fits (data : Bytes) (off n : Nat) : Bool :=
  match checkedAdd off n with
  | some stop => decide (stop ≤ data.length)
  | none => false

def loadName (data : Bytes) (off : Nat) : Outcome Error (Str × Nat) := do
  if data.length < (← usizeAdd off 2) then
    .err (.format "store truncated (name length)")
  else
    let nlen := fromLe16 (← index data off) (← index data (← usizeAdd off 1))
    let off ← usizeAdd off 2
    if ¬fits data off nlen then
      .err (.format "store truncated (name)")
    else
      let stop ← usizeAdd off nlen
      let name ← .ofOption (.format "invalid UTF-8 in key name")
        (Str.fromUtf8 (← slice data off stop))
      validateName name
      .ok (name, stop)

def loadBlob (data : Bytes) (off : Nat) : Outcome Error (Bytes × Nat) := do
  if data.length < (← usizeAdd off 4) then
    .err (.format "store truncated (blob length)")
  else
    let blen := fromLe32 (← index data off) (← index data (← usizeAdd off 1))
      (← index data (← usizeAdd off 2)) (← index data (← usizeAdd off 3))
    let off ← usizeAdd off 4
    if ¬fits data off blen then
      .err (.format "store truncated (blob)")
    else
      let stop ← usizeAdd off blen
      .ok (← slice data off stop, stop)

/-- One turn of the loop of `load`. -/
def loadEntry (data : Bytes) (off : Nat) : Outcome Error (Str × Bytes × Nat) := do
  let (name, off) ← loadName data off
  let (blob, off) ← loadBlob data off
  .ok (name, blob, off)

theorem le_of_usizeAdd {a b n : Nat} (h : (usizeAdd a b : Outcome Error Nat) = .ok n) :
    a + b ≤ n := by
  unfold usizeAdd at h
  split_ifs at h
  cases h
  exact Nat.le_refl _

theorem loadName_progress {data : Bytes} {off : Nat} {e : Str × Nat}
    (h : loadName data off = .ok e) : off < e.2 := by
  simp only [loadName, Outcome.bind_eq_ok] at h
  obtain ⟨_, _, h⟩ := h
  split_ifs at h
  simp only [Outcome.bind_eq_ok] at h
  obtain ⟨_, _, _, _, _, _, off1, h1, h⟩ := h
  split_ifs at h
  simp only [Outcome.bind_eq_ok] at h
  obtain ⟨stop, h2, _, _, _, _, _, _, h⟩ := h
  cases h
  have hle1 := le_of_usizeAdd h1
  have hle2 := le_of_usizeAdd h2
  show off < stop
  omega

theorem loadBlob_progress {data : Bytes} {off : Nat} {e : Bytes × Nat}
    (h : loadBlob data off = .ok e) : off < e.2 := by
  simp only [loadBlob, Outcome.bind_eq_ok] at h
  obtain ⟨_, _, h⟩ := h
  split_ifs at h
  simp only [Outcome.bind_eq_ok] at h
  obtain ⟨_, _, _, _, _, _, _, _, _, _, _, _, _, _, off1, h1, h⟩ := h
  split_ifs at h
  simp only [Outcome.bind_eq_ok] at h
  obtain ⟨stop, h2, _, _, h⟩ := h
  cases h
  have hle1 := le_of_usizeAdd h1
  have hle2 := le_of_usizeAdd h2
  show off < stop
  omega

/-- The cursor moves on, so the loop ends. -/
theorem loadEntry_progress {data : Bytes} {off : Nat} {e : Str × Bytes × Nat}
    (h : loadEntry data off = .ok e) : off < e.2.2 := by
  simp only [loadEntry, Outcome.bind_eq_ok] at h
  obtain ⟨x, hx, y, hy, he⟩ := h
  cases he
  exact Nat.lt_trans (loadName_progress hx) (loadBlob_progress hy)

def loadEntries (data : Bytes) (off : Nat) (entries : Entries) : Outcome Error Entries :=
  if off < data.length then
    match _h : loadEntry data off with
    | .err e => .err e
    | .panic => .panic
    | .ok (name, blob, off') =>
      if name ∈ entries then
        .err (.format "duplicate key name in store")
      else
        loadEntries data off' (entries.insert name blob)
  else
    .ok entries
termination_by data.length - off
decreasing_by
  have hlt : off < off' := loadEntry_progress _h
  omega

def copy16 (data : Bytes) (i j : Nat) : Outcome Error (Fixed 16) := do
  let b ← slice data i j
  if h : b.length = 16 then .ok ⟨b, h⟩ else .panic

def load (data : Bytes) : Outcome Error Contents := do
  if data.length < HEADER_LEN then
    .err (.format "store header truncated")
  else if (← slice data 0 4) ≠ STORE_MAGIC then
    .err (.format "wrong store magic")
  else if (← index data 4) ≠ STORE_VER then
    .err (.format s!"unsupported store version {(← index data 4).toNat}")
  else
    let salt ← copy16 data 5 (5 + 16)
    let keyId ← copy16 data (5 + 16) HEADER_LEN
    .ok ⟨salt, keyId, ← loadEntries data HEADER_LEN ∅⟩

end Krypto.Store
