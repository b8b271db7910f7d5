import Krypto.Effect.Kernel

/-! The crate's errors, and the steps every module takes through its environment. -/

namespace Krypto
open Effect

/-- The text of an error. A character shown with `{:?}` stays a character: how
it is escaped is the formatter's. -/
inductive Message where
  | text (s : String)
  | quoting (before : String) (c : Char) (after : String)
  deriving DecidableEq

instance : Coe String Message := ⟨.text⟩

inductive Error where
  | io (e : IoError)
  | hardening (m : Message)
  | format (m : Message)
  | auth
  | keyNotFound
  | wrongKey
  deriving DecidableEq

def Error.IsFormat : Error → Prop
  | .format _ => True
  | _ => False

/-- A function that makes system calls and returns a `Result`. -/
abbrev Action (ν α : Type) := Prog (Call.Reply (ν := ν)) Error α

variable {ν α : Type}

def ask (op : Call ν) : Action ν op.Reply := Prog.perform op

def lift (r : Outcome Error α) : Action ν α := .done r

@[simp] theorem lift_ok_bind {β : Type} (a : α) (f : α → Action ν β) :
    (lift (.ok a) >>= f) = f a := rfl

@[simp] theorem lift_err_bind {β : Type} (e : Error) (f : α → Action ν β) :
    (lift (.err e) >>= f) = lift (.err e) := rfl

@[simp] theorem lift_panic_bind {β : Type} (f : α → Action ν β) :
    (lift .panic >>= f) = lift .panic := rfl

def orIo : Except IoError α → Action ν α
  | .ok a => pure a
  | .error e => Prog.throw (.io e)

@[simp] theorem orIo_ok_bind {β : Type} (a : α) (f : α → Action ν β) :
    (orIo (.ok a) >>= f) = f a := rfl

@[simp] theorem orIo_error_bind {β : Type} (e : IoError) (f : α → Action ν β) :
    (orIo (.error e) >>= f) = Prog.throw (.io e) := rfl

def fill (n : Nat) (what : String) : Action ν (Fixed n) := do
  match ← ask (.getrandom n) with
  | .ok b => pure b
  | .error e => Prog.throw (.hardening (what ++ e))

/-- `LockedPages::new`; nothing is mapped for no bytes. -/
def lockedPages (len : Nat) : Action ν Unit := do
  if len = 0 then
    pure ()
  else
    match ← ask (.lockPages len) with
    | .ok () => pure ()
    | .error e => Prog.throw (.hardening e)

def dropFile (f : Nat) : Action ν Unit := do
  let _ ← ask (.close f)
  pure ()

end Krypto
