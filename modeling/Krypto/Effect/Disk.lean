import Mathlib.Algebra.Group.Nat.Defs
import Mathlib.Data.List.Basic
import Mathlib.Logic.Function.Basic

/-! A directory of files on a disk: what is on the medium, and the updates of the
directory that are not there yet. Names are of any type. -/

namespace Krypto.Effect

abbrev Bytes := List UInt8

inductive Update (ν : Type) where
  | link (n : ν) (inode : Nat)
  | unlink (n : ν)
  | move (src dst : ν) (inode : Nat)

namespace Update
variable {ν : Type} [DecidableEq ν]

def apply (dir : ν → Option Nat) : Update ν → ν → Option Nat
  | link n i => Function.update dir n (some i)
  | unlink n => Function.update dir n none
  | move src dst i => Function.update (Function.update dir src none) dst (some i)

def Touches (u : Update ν) (n : ν) : Prop :=
  match u with
  | link m _ => m = n
  | unlink m => m = n
  | move src dst _ => src = n ∨ dst = n

def Below (bound : Nat) : Update ν → Prop
  | link _ i => i < bound
  | unlink _ => True
  | move _ _ i => i < bound

theorem apply_of_not_touches {u : Update ν} {n : ν} (h : ¬u.Touches n) (dir : ν → Option Nat) :
    u.apply dir n = dir n := by
  cases u with
  | link m i => exact Function.update_of_ne (fun e => h e.symm) _ _
  | unlink m => exact Function.update_of_ne (fun e => h e.symm) _ _
  | move src dst i =>
    simp only [Touches, not_or] at h
    rw [apply, Function.update_of_ne (fun e => h.2 e.symm), Function.update_of_ne fun e => h.1 e.symm]

theorem apply_below {bound : Nat} {u : Update ν} (hu : u.Below bound) {dir : ν → Option Nat}
    (hdir : ∀ n i, dir n = some i → i < bound) : ∀ n i, u.apply dir n = some i → i < bound := by
  intro n i h
  cases u with
  | link m j =>
    by_cases hn : n = m
    · subst hn
      obtain rfl : j = i := by simpa [apply] using h
      exact hu
    · exact hdir n i (by simpa [apply, Function.update_of_ne hn] using h)
  | unlink m =>
    by_cases hn : n = m
    · simp [apply, hn] at h
    · exact hdir n i (by simpa [apply, Function.update_of_ne hn] using h)
  | move src dst j =>
    by_cases hd : n = dst
    · subst hd
      obtain rfl : j = i := by simpa [apply] using h
      exact hu
    · rw [apply, Function.update_of_ne hd] at h
      by_cases hs : n = src
      · simp [hs] at h
      · exact hdir n i (by simpa [Function.update_of_ne hs] using h)

omit [DecidableEq ν] in
theorem Below.mono {a b : Nat} {u : Update ν} (h : u.Below a) (hab : a ≤ b) : u.Below b := by
  cases u with
  | link => exact Nat.lt_of_lt_of_le h hab
  | unlink => trivial
  | move => exact Nat.lt_of_lt_of_le h hab

end Update

structure Disk (ν : Type) [DecidableEq ν] where
  /-- The directory on the medium. -/
  durable : ν → Option Nat
  /-- The updates made since the directory was last synced, oldest first. -/
  unsynced : List (Update ν)
  content : Nat → Bytes
  /-- Whether a file was synced since it was last written. -/
  clean : Nat → Bool
  mode : Nat → Nat
  /-- No inode from here on is in use. -/
  fresh : Nat
  durable_lt : ∀ n i, durable n = some i → i < fresh
  unsynced_lt : ∀ u ∈ unsynced, u.Below fresh

namespace Disk
variable {ν : Type} [DecidableEq ν]

def empty : Disk ν where
  durable _ := none
  unsynced := []
  content _ := []
  clean _ := true
  mode _ := 0
  fresh := 0
  durable_lt _ _ h := by cases h
  unsynced_lt _ h := by cases h

/-- The directory as running programs see it. -/
def dir (d : Disk ν) : ν → Option Nat := d.unsynced.foldl Update.apply d.durable

def stored (d : Disk ν) (n : ν) : Option Bytes := (d.dir n).map d.content

theorem foldl_below {bound : Nat} {us : List (Update ν)} (hu : ∀ u ∈ us, u.Below bound)
    {dir : ν → Option Nat} (hdir : ∀ n i, dir n = some i → i < bound) :
    ∀ n i, us.foldl Update.apply dir n = some i → i < bound := by
  induction us generalizing dir with
  | nil => exact hdir
  | cons u us ih =>
    exact ih (fun v hv => hu v (List.mem_cons_of_mem _ hv))
      (Update.apply_below (hu u List.mem_cons_self) hdir)

theorem foldl_not_touches {us : List (Update ν)} {n : ν} (hu : ∀ u ∈ us, ¬u.Touches n)
    (dir : ν → Option Nat) : us.foldl Update.apply dir n = dir n := by
  induction us generalizing dir with
  | nil => rfl
  | cons u us ih =>
    rw [List.foldl_cons, ih fun v hv => hu v (List.mem_cons_of_mem _ hv),
      Update.apply_of_not_touches (hu u List.mem_cons_self)]

theorem dir_lt (d : Disk ν) {n : ν} {i : Nat} (h : d.dir n = some i) : i < d.fresh :=
  foldl_below d.unsynced_lt d.durable_lt n i h

def update (d : Disk ν) (u : Update ν) (h : u.Below d.fresh) : Disk ν :=
  { d with
    unsynced := d.unsynced ++ [u]
    unsynced_lt := by
      intro v hv
      rcases List.mem_append.mp hv with hv | hv
      · exact d.unsynced_lt v hv
      · exact List.mem_singleton.mp hv ▸ h }

def allocate (d : Disk ν) (mode : Nat) : Disk ν :=
  { d with
    content := Function.update d.content d.fresh []
    clean := Function.update d.clean d.fresh false
    mode := Function.update d.mode d.fresh mode
    fresh := d.fresh + 1
    durable_lt := fun n i h => Nat.lt_succ_of_lt (d.durable_lt n i h)
    unsynced_lt := fun u h => (d.unsynced_lt u h).mono (Nat.le_succ _) }

theorem below_link (d : Disk ν) (n : ν) (mode : Nat) :
    (Update.link n d.fresh).Below (d.allocate mode).fresh := Nat.lt_succ_self _

theorem below_unlink (d : Disk ν) (n : ν) : (Update.unlink n).Below d.fresh := trivial

theorem below_move (d : Disk ν) {src : ν} {i : Nat} (h : d.dir src = some i) (dst : ν) :
    (Update.move src dst i).Below d.fresh := d.dir_lt h

def create (d : Disk ν) (n : ν) (mode : Nat) : Disk ν :=
  (d.allocate mode).update (.link n d.fresh) (d.below_link n mode)

def write (d : Disk ν) (i : Nat) (data : Bytes) : Disk ν :=
  { d with
    content := Function.update d.content i data
    clean := Function.update d.clean i false }

def sync (d : Disk ν) (i : Nat) : Disk ν := { d with clean := Function.update d.clean i true }

def chmod (d : Disk ν) (i mode : Nat) : Disk ν := { d with mode := Function.update d.mode i mode }

def syncDir (d : Disk ν) : Disk ν :=
  { d with
    durable := d.dir
    unsynced := []
    durable_lt := fun _ _ h => d.dir_lt h
    unsynced_lt := fun _ h => absurd h List.not_mem_nil }

def remove (d : Disk ν) (n : ν) : Disk ν := d.update (.unlink n) (d.below_unlink n)

def rename (d : Disk ν) (src dst : ν) (i : Nat) (h : d.dir src = some i) : Disk ν :=
  d.update (.move src dst i) (d.below_move h dst)

/-! ## What each operation does to the directory and to the content -/

@[simp] theorem update_dir (d : Disk ν) (u : Update ν) (h : u.Below d.fresh) :
    (d.update u h).dir = u.apply d.dir := by
  simp [dir, update, List.foldl_append]

@[simp] theorem update_content (d : Disk ν) (u : Update ν) (h : u.Below d.fresh) :
    (d.update u h).content = d.content := rfl

@[simp] theorem allocate_dir (d : Disk ν) (mode : Nat) : (d.allocate mode).dir = d.dir := rfl

@[simp] theorem allocate_content (d : Disk ν) (mode : Nat) :
    (d.allocate mode).content = Function.update d.content d.fresh [] := rfl

@[simp] theorem write_dir (d : Disk ν) (i : Nat) (data : Bytes) : (d.write i data).dir = d.dir := rfl

@[simp] theorem write_content (d : Disk ν) (i : Nat) (data : Bytes) :
    (d.write i data).content = Function.update d.content i data := rfl

@[simp] theorem sync_dir (d : Disk ν) (i : Nat) : (d.sync i).dir = d.dir := rfl

@[simp] theorem sync_content (d : Disk ν) (i : Nat) : (d.sync i).content = d.content := rfl

@[simp] theorem chmod_dir (d : Disk ν) (i mode : Nat) : (d.chmod i mode).dir = d.dir := rfl

@[simp] theorem chmod_content (d : Disk ν) (i mode : Nat) :
    (d.chmod i mode).content = d.content := rfl

@[simp] theorem syncDir_dir (d : Disk ν) : d.syncDir.dir = d.dir := rfl

@[simp] theorem syncDir_content (d : Disk ν) : d.syncDir.content = d.content := rfl

theorem stored_create_of_ne (d : Disk ν) {m n : ν} (h : m ≠ n) (mode : Nat) :
    (d.create n mode).stored m = d.stored m := by
  simp only [stored, create, update_dir, allocate_dir, update_content, allocate_content,
    Update.apply, Function.update_of_ne h]
  cases hm : d.dir m with
  | none => rfl
  | some i => simp [Function.update_of_ne (Nat.ne_of_lt (d.dir_lt hm))]

theorem stored_update_of_not_touches (d : Disk ν) {u : Update ν} (hu : u.Below d.fresh) {n : ν}
    (h : ¬u.Touches n) : (d.update u hu).stored n = d.stored n := by
  rw [stored, stored, update_dir, Update.apply_of_not_touches h, update_content]

theorem stored_remove_of_ne (d : Disk ν) {m n : ν} (h : m ≠ n) :
    (d.remove n).stored m = d.stored m :=
  d.stored_update_of_not_touches _ fun e => h e.symm

theorem stored_rename (d : Disk ν) (dst : ν) {src : ν} {i : Nat} (h : d.dir src = some i) :
    (d.rename src dst i h).stored dst = some (d.content i) := by
  simp [stored, rename, Update.apply]

theorem stored_write_of_ne (d : Disk ν) {n : ν} {i : Nat} (h : d.dir n ≠ some i) (data : Bytes) :
    (d.write i data).stored n = d.stored n := by
  cases hn : d.dir n with
  | none => simp [stored, hn]
  | some j =>
    have hj : j ≠ i := fun e => h (e ▸ hn)
    simp [stored, hn, Function.update_of_ne hj]

@[simp] theorem stored_sync (d : Disk ν) (i : Nat) (n : ν) :
    (d.sync i).stored n = d.stored n := rfl

@[simp] theorem stored_chmod (d : Disk ν) (i mode : Nat) (n : ν) :
    (d.chmod i mode).stored n = d.stored n := rfl

@[simp] theorem stored_syncDir (d : Disk ν) (n : ν) : d.syncDir.stored n = d.stored n := rfl

end Disk
end Krypto.Effect
