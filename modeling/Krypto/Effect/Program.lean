import Mathlib.Logic.Basic

/-! Programs that call their environment, as trees. A leaf is how the program
ends; an inner node is one call, with a subtree for every reply to it. One tree
serves every semantics: alone, cut short by a crash, or interleaved with others. -/

namespace Krypto.Effect

inductive Outcome (ε α : Type) where
  | ok (a : α)
  | err (e : ε)
  | panic
  deriving DecidableEq, Repr

namespace Outcome
variable {ε ε' α β : Type}

def bind (x : Outcome ε α) (f : α → Outcome ε β) : Outcome ε β :=
  match x with
  | ok a => f a
  | err e => err e
  | panic => panic

instance : Monad (Outcome ε) where
  pure := ok
  bind := bind

@[simp] theorem pure_eq (a : α) : (pure a : Outcome ε α) = ok a := rfl

@[simp] theorem ok_bind (a : α) (f : α → Outcome ε β) : (ok a >>= f) = f a := rfl

@[simp] theorem err_bind (e : ε) (f : α → Outcome ε β) : (err e >>= f) = err e := rfl

@[simp] theorem panic_bind (f : α → Outcome ε β) : ((panic : Outcome ε α) >>= f) = panic := rfl

instance : LawfulMonad (Outcome ε) :=
  LawfulMonad.mk' _ (fun x => by cases x <;> rfl) (fun _ _ => rfl)
    (fun x _ _ => by cases x <;> rfl)

def attempt : Outcome ε α → Outcome ε' (Except ε α)
  | ok a => ok (.ok a)
  | err e => ok (.error e)
  | panic => panic

/-- `opt.ok_or(e)?` -/
def ofOption (e : ε) : Option α → Outcome ε α
  | some a => ok a
  | none => err e

@[simp] theorem ofOption_some (e : ε) (a : α) : ofOption e (some a) = ok a := rfl

theorem ofOption_eq_ok {e : ε} {o : Option α} {a : α} : ofOption e o = .ok a ↔ o = some a := by
  cases o <;> simp [ofOption]

@[simp] theorem ofOption_none (e : ε) : ofOption e (none : Option α) = err e := rfl

theorem ok_ne_panic (a : α) : (ok a : Outcome ε α) ≠ panic := fun h => by cases h

theorem err_ne_panic (e : ε) : (err e : Outcome ε α) ≠ panic := fun h => by cases h

theorem ofOption_ne_panic (e : ε) (o : Option α) : ofOption e o ≠ panic := by
  cases o with
  | none => exact err_ne_panic e
  | some a => exact ok_ne_panic a

theorem bind_ne_panic {x : Outcome ε α} {f : α → Outcome ε β} (hx : x ≠ panic)
    (hf : ∀ a, f a ≠ panic) : (x >>= f) ≠ panic := by
  cases x with
  | ok a => exact hf a
  | err e => exact err_ne_panic e
  | panic => exact absurd rfl hx

theorem bind_eq_ok {x : Outcome ε α} {f : α → Outcome ε β} {b : β} :
    (x >>= f) = ok b ↔ ∃ a, x = ok a ∧ f a = ok b := by
  cases x <;> simp

end Outcome

inductive Prog {Op : Type} (Reply : Op → Type) (ε α : Type) : Type where
  | done (r : Outcome ε α)
  | call (op : Op) (next : Reply op → Prog Reply ε α)

namespace Prog
variable {Op : Type} {Reply : Op → Type} {ε ε' α β : Type}

def andThen : Prog Reply ε α → (Outcome ε α → Prog Reply ε' β) → Prog Reply ε' β
  | done r, k => k r
  | call op next, k => call op fun y => (next y).andThen k

/-- What `?` does with a result: a value goes on, an error or a panic ends the program. -/
def onOk (f : α → Prog Reply ε β) : Outcome ε α → Prog Reply ε β
  | .ok a => f a
  | .err e => done (.err e)
  | .panic => done .panic

instance : Monad (Prog Reply ε) where
  pure a := done (.ok a)
  bind p f := p.andThen (onOk f)

theorem bind_def (p : Prog Reply ε α) (f : α → Prog Reply ε β) :
    (p >>= f) = p.andThen (onOk f) := rfl

def throw (e : ε) : Prog Reply ε α := done (.err e)

def perform (op : Op) : Prog Reply ε (Reply op) := call op fun y => done (.ok y)

/-- `if let Err(e) = p` -/
def attempt (p : Prog Reply ε α) : Prog Reply ε' (Except ε α) :=
  p.andThen fun r => done r.attempt

/-- Run `cleanup` when `p` ends in an error, as `Drop` does with what `p` owned. -/
def onErr (p : Prog Reply ε α) (cleanup : Prog Reply ε Unit) : Prog Reply ε α :=
  p.andThen fun
    | .err e => cleanup.andThen fun _ => done (.err e)
    | r => done r

def always (p : Prog Reply ε α) (cleanup : Prog Reply ε Unit) : Prog Reply ε α :=
  p.andThen fun r => cleanup.andThen fun _ => done r

theorem andThen_assoc {ε'' γ : Type} (p : Prog Reply ε α) (k : Outcome ε α → Prog Reply ε' β)
    (l : Outcome ε' β → Prog Reply ε'' γ) :
    (p.andThen k).andThen l = p.andThen fun r => (k r).andThen l := by
  induction p with
  | done r => rfl
  | call op next ih => exact congrArg (call op) (funext ih)

theorem bind_assoc {γ : Type} (p : Prog Reply ε α) (f : α → Prog Reply ε β) (g : β → Prog Reply ε γ) :
    ((p >>= f) >>= g) = p >>= fun a => f a >>= g := by
  rw [bind_def, bind_def, andThen_assoc, bind_def]
  congr 1
  funext r
  cases r <;> rfl

end Prog
end Krypto.Effect
