import Krypto.Effect.Kernel
import Krypto.Effect.Protocol
import Mathlib.Data.Finset.Basic

/-! The files that a program has open, followed along its calls whatever is replied to them: it
makes calls on no others, and what it opened and closed is known where it ends. -/

namespace Krypto.Effect

variable {ν ε ε' α β : Type}

namespace Call

def file : Call ν → Option Nat
  | tryLock f | fstat f | read f _ | write f _ | sync f | close f => some f
  | _ => none

def opened : (op : Call ν) → op.Reply → Option Nat
  | openCreate _ _, .ok f => some f
  | openRead _, .ok f => some f
  | createNew _ _, .ok f => some f
  | _, _ => none

/-- A call that neither opens nor closes a file, nor is made on one. -/
def Aside : Call ν → Prop
  | getrandom _ | lockPages _ | processId | stat _ | chmod _ _ | rename _ _ | remove _ | openDir | syncDir => True
  | _ => False

def after (F : Finset Nat) (op : Call ν) (y : op.Reply) : Finset Nat :=
  match op.opened y, op with
  | some f, _ => insert f F
  | none, close f => F.erase f
  | none, _ => F

end Call

/-- With `F` open, calls are made on open files only, and a file that is opened is a new one. -/
def descriptors (ν : Type) : Protocol (Call.Reply (ν := ν)) (Finset Nat) where
  allows F op := ∀ f, op.file = some f → f ∈ F
  sees F op y := ∀ f, op.opened y = some f → f ∉ F
  after := Call.after

abbrev Uses (F : Finset Nat) (p : Prog (Call.Reply (ν := ν)) ε α) (Q : Outcome ε α → Finset Nat → Prop) : Prop :=
  (descriptors ν).Follows F p Q

section Rules
variable {F : Finset Nat}

end Rules

/-! ### In the kernel -/

section Kernel
variable [DecidableEq ν] {ι : Type} [DecidableEq ι] {me : ι} {F : Finset Nat} {s : Process ν ι}

structure Process.Has (s : Process ν ι) (F : Finset Nat) : Prop where
  files : ∀ f, s.files f ≠ none ↔ f ∈ F
  fresh : ∀ f ∈ F, f < s.nextFile

omit [DecidableEq ι] in
theorem Process.Has.openFile (h : s.Has F) (inode : Nat) : s.nextFile ∉ F ∧ (s.openFile inode).Has (insert s.nextFile F) := by
  have hnew : s.nextFile ∉ F := fun hf => Nat.lt_irrefl _ (h.fresh _ hf)
  refine ⟨hnew, fun f => ?_, fun f hf => ?_⟩
  · rw [Finset.mem_insert]
    unfold Process.openFile
    dsimp only
    by_cases hf : f = s.nextFile
    · rw [hf, Function.update_self]
      simp
    · rw [Function.update_of_ne hf, h.files f, or_iff_right hf]
  · rcases Finset.mem_insert.mp hf with rfl | hf
    · exact Nat.lt_succ_self _
    · exact Nat.lt_succ_of_lt (h.fresh f hf)

omit [DecidableEq ι] in
theorem Process.Has.of_files (h : s.Has F) {s' : Process ν ι} (hfiles : s'.files = s.files) (hnext : s'.nextFile = s.nextFile) :
    s'.Has F := ⟨fun f => by rw [hfiles]; exact h.files f, fun f hf => hnext ▸ h.fresh f hf⟩

theorem Process.Has.step (h : s.Has F) (op : Call ν) (c : op.Choice) :
    (∀ f, op.opened (Process.step me op c s).1 = some f → f ∉ F) ∧
      (Process.step me op c s).2.Has (op.after F (Process.step me op c s).1) := by
  have hmoves := Process.step_moves me op c s
  generalize hs' : (Process.step me op c s).2 = s' at hmoves
  cases op with
  | openCreate n mode =>
    cases c with
    | some e => exact ⟨fun f hf => (by cases hf), hs' ▸ h⟩
    | none =>
      subst hs'
      simp only [Process.step]
      cases s.disk.dir n with
      | some i =>
        obtain ⟨hnew, hhas⟩ := h.openFile i
        exact ⟨fun f hf => Option.some.inj hf ▸ hnew, hhas⟩
      | none =>
        obtain ⟨hnew, hhas⟩ := Process.Has.openFile (s := { s with disk := s.disk.create n mode }) (h.of_files rfl rfl) s.disk.fresh
        exact ⟨fun f hf => Option.some.inj hf ▸ hnew, hhas⟩
  | openRead n =>
    cases c with
    | some e => exact ⟨fun f hf => (by cases hf), hs' ▸ h⟩
    | none =>
      subst hs'
      simp only [Process.step]
      cases s.disk.dir n with
      | some i =>
        obtain ⟨hnew, hhas⟩ := h.openFile i
        exact ⟨fun f hf => Option.some.inj hf ▸ hnew, hhas⟩
      | none => exact ⟨fun f hf => (by cases hf), h⟩
  | createNew n mode =>
    cases c with
    | some e => exact ⟨fun f hf => (by cases hf), hs' ▸ h⟩
    | none =>
      subst hs'
      simp only [Process.step]
      cases s.disk.dir n with
      | some i => exact ⟨fun f hf => (by cases hf), h⟩
      | none =>
        obtain ⟨hnew, hhas⟩ := Process.Has.openFile (s := { s with disk := s.disk.create n mode }) (h.of_files rfl rfl) s.disk.fresh
        exact ⟨fun f hf => Option.some.inj hf ▸ hnew, hhas⟩
  | close f =>
    subst hs'
    refine ⟨fun g hg => (by cases hg), fun g => ?_, fun g hg => h.fresh g (Finset.mem_of_mem_erase hg)⟩
    show Function.update s.files f none g ≠ none ↔ g ∈ F.erase f
    rw [Finset.mem_erase]
    by_cases hg : g = f
    · rw [hg, Function.update_self]
      simp
    · rw [Function.update_of_ne hg, h.files g, and_iff_right hg]
  | _ =>
    refine ⟨fun f hf => (by cases hf), ?_⟩
    cases hmoves
    all_goals exact h.of_files rfl rfl

def OnOpen (op : Call ν) (s _ : Process ν ι) : Prop := ∀ f, op.file = some f → s.files f ≠ none

theorem Uses.wp {E : (kernel ν me).Env} {p : Prog (Call.Reply (ν := ν)) ε α} {Q : Outcome ε α → Finset Nat → Prop}
    (h : Uses F p Q) (hs : s.Has F) :
    Effect.wp (kernel ν me) E OnOpen p (fun r s' => ∃ F', Q r F' ∧ s'.Has F') s := by
  refine Protocol.Follows.wp (B := fun F (s : Process ν ι) => s.Has F) h hs fun F op c s hop _ hs => ?_
  obtain ⟨hnew, hhas⟩ := @Process.Has.step _ _ _ _ me _ _ hs op c
  exact ⟨hnew, hhas, fun f hf => (hs.files f).mpr (hop f hf)⟩

end Kernel
end Krypto.Effect
