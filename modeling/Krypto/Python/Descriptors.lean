import Krypto.Python.Calls

/-! The files that Python code has open through its store objects: the locks of the stores it
refers to, and no others. -/

namespace Krypto.Python
open Effect Store Protocol

variable {α β : Type} {F : Finset Nat} {v v' : Values} {r s : Ref}

/-! ### The locks of the store objects -/

namespace Values

def lockOf : Object MasterKey → Option Nat
  | .secretStore (some h) _ => h.lock
  | _ => none

def lockAt (v : Values) (s : Ref) : Option Nat := (v.objects s).bind lockOf

/-- The open files are the locks of the store objects, each that of one. -/
structure Locks (F : Finset Nat) (v : Values) : Prop where
  mem : ∀ f, f ∈ F ↔ ∃ s, v.lockAt s = some f
  once : ∀ s s' f, v.lockAt s = some f → v.lockAt s' = some f → s = s'
  fresh : ∀ r, v.fresh ≤ r → v.objects r = none

theorem Locks.congr (h : Locks F v) (hlock : ∀ s, v'.lockAt s = v.lockAt s)
    (hfresh : ∀ r, v'.fresh ≤ r → v'.objects r = none) : Locks F v' where
  mem f := by simp only [hlock, h.mem]
  once s s' f hs hs' := h.once s s' f (hlock s ▸ hs) (hlock s' ▸ hs')
  fresh := hfresh

theorem lockAt_write (v : Values) (r s : Ref) (o : Object MasterKey) :
    (v.write r o).lockAt s = if s = r then lockOf o else v.lockAt s := by
  unfold lockAt write
  by_cases hs : s = r
  · simp [hs]
  · simp [hs]

theorem Locks.write_fresh (h : Locks F v) {o₀ : Object MasterKey} (hr : v.objects r = some o₀) (o : Object MasterKey) :
    ∀ s, v.fresh ≤ s → (v.write r o).objects s = none := by
  intro s hs
  have hne : s ≠ r := by
    rintro rfl
    rw [h.fresh s hs] at hr
    cases hr
  exact (Function.update_of_ne hne _ _).trans (h.fresh s hs)

theorem Locks.write (h : Locks F v) {o o₀ : Object MasterKey} (hr : v.objects r = some o₀) (hlock : lockOf o = lockOf o₀) :
    Locks F (v.write r o) := by
  refine h.congr (fun s => ?_) (h.write_fresh hr o)
  rw [lockAt_write]
  split_ifs with hs
  · rw [hs, lockAt, hr]
    exact hlock
  · rfl

theorem lockAt_alloc (v : Values) (s : Ref) (o : Object MasterKey) :
    (v.alloc o).lockAt s = if s = v.fresh then lockOf o else v.lockAt s := lockAt_write v v.fresh s o

theorem Locks.lockAt_fresh (h : Locks F v) : v.lockAt v.fresh = none := by
  rw [lockAt, h.fresh v.fresh le_rfl]
  rfl

theorem Locks.alloc_fresh (h : Locks F v) (o : Object MasterKey) (s : Ref) (hs : (v.alloc o).fresh ≤ s) :
    (v.alloc o).objects s = none := by
  have hle : v.fresh + 1 ≤ s := hs
  exact (Function.update_of_ne (Nat.ne_of_gt hle) _ _).trans (h.fresh s (Nat.le_of_succ_le hle))

theorem Locks.alloc (h : Locks F v) {o : Object MasterKey} (hlock : lockOf o = none) : Locks F (v.alloc o) := by
  refine h.congr (fun s => ?_) (h.alloc_fresh o)
  rw [lockAt_alloc]
  split_ifs with hs
  · rw [hlock, hs, h.lockAt_fresh]
  · rfl

/-- A store object loses its handle, and the handle's lock is closed. -/
theorem Locks.lose (h : Locks F v) (hr : ∀ s, v'.lockAt s = if s = r then none else v.lockAt s)
    (hfresh : ∀ r, v'.fresh ≤ r → v'.objects r = none) : Locks (F.filter fun f => v.lockAt r ≠ some f) v' := by
  refine ⟨fun f => ?_, fun s s' f hs hs' => ?_, hfresh⟩
  · rw [Finset.mem_filter, h.mem]
    constructor
    · rintro ⟨⟨s, hs⟩, hne⟩
      refine ⟨s, ?_⟩
      rw [hr, if_neg, hs]
      rintro rfl
      exact hne hs
    · rintro ⟨s, hs⟩
      rw [hr] at hs
      split_ifs at hs with he
      exact ⟨⟨s, hs⟩, fun h' => he (h.once s r f hs h')⟩
  · rw [hr] at hs hs'
    split_ifs at hs hs'
    exact h.once s s' f hs hs'

end Values

/-! ### What a call does to them -/

open Values

/-- `p` makes calls on open files only, and leaves the locks of the store objects open and nothing else. -/
def Tidy (p : Py Values α) : Prop := ∀ F v, Locks F v → Uses F (p v) fun r F' => ∀ a v', r = .ok (a, v') → Locks F' v'

theorem Tidy.bind {p : Py Values α} {f : α → Py Values β} (hp : Tidy p) (hf : ∀ a, Tidy (f a)) : Tidy (p >>= f) := by
  intro F v h
  apply follows_bind
  refine (hp F v h).imp fun r F' hr => ?_
  cases r with
  | ok x =>
    obtain ⟨a | a, v'⟩ := x
    · rintro b w hw
      cases hw
      exact hr _ _ rfl
    · exact hf a F' v' (hr _ _ rfl)
  | err e => exact fun a v' he => by cases he
  | panic => exact fun a v' he => by cases he

section Runs
variable (P : Primitives) (hmac : (key : Fixed 32) → (data : Bytes) → Fixed 32)

variable {ι : Type} [DecidableEq ι] {me : ι} {E : (kernel Bytes me).Env} {p p' : Process Bytes ι}
  {trace : List (Statement × Except Exception Result)}

end Runs
end Krypto.Python
