import Krypto.Effect.Quiet
import Mathlib.Data.Nat.Notation

/-! Functions that call themselves. The body of one is a program whose calls are
the nested ones. Nothing says that it ends, or that it ends in a value. -/

namespace Krypto.Effect
variable {L A ε α β : Type}

/-- The body of a function from `A` to `β`. A nested call is labelled by where it is made. -/
abbrev Body (L A ε β : Type) := A → Prog (fun _ : L × A => β) ε β

namespace Prog
variable {Op : Type} {Reply : Op → Type}

/-- The program where `f` answers the calls; it does not return where an answer does not. -/
def answer (f : L × A → Option (Outcome ε β)) :
    Prog (fun _ : L × A => β) ε α → Option (Outcome ε α)
  | done r => some r
  | call op next =>
    match f op with
    | some (.ok b) => (next b).answer f
    | some (.err e) => some (.err e)
    | some .panic => some .panic
    | none => none

/-- A call that the program makes, if the replies before it are the right ones. -/
inductive Asks : Prog Reply ε α → Op → Prop
  | here {op : Op} {next : Reply op → Prog Reply ε α} : Asks (call op next) op
  | later {op op' : Op} {next : Reply op → Prog Reply ε α} (y : Reply op) (h : Asks (next y) op') :
    Asks (call op next) op'

theorem answer_returns {f : L × A → Option (Outcome ε β)} {p : Prog (fun _ : L × A => β) ε α}
    (h : ∀ op, p.Asks op → ∃ r, f op = some r) : ∃ r, p.answer f = some r := by
  induction p with
  | done r => exact ⟨r, rfl⟩
  | call op next ih =>
    obtain ⟨r, hr⟩ := h op (.here)
    rw [answer, hr]
    cases r with
    | ok b => exact ih b fun op' h' => h op' (.later b h')
    | err e => exact ⟨.err e, rfl⟩
    | panic => exact ⟨.panic, rfl⟩

theorem answer_congr {f g : L × A → Option (Outcome ε β)} {p : Prog (fun _ : L × A => β) ε α}
    (h : ∀ op, p.Asks op → f op = g op) : p.answer f = p.answer g := by
  induction p with
  | done r => rfl
  | call op next ih =>
    rw [answer, answer, h op (.here)]
    cases hg : g op with
    | none => rfl
    | some r =>
      cases r with
      | ok b => exact ih b fun op' h' => h op' (.later b h')
      | err e => rfl
      | panic => rfl

theorem answer_bind {f : L × A → Option (Outcome ε β)} {p : Prog (fun _ : L × A => β) ε α} {a : α}
    {γ : Type} {k : α → Prog (fun _ : L × A => β) ε γ} (h : p.answer f = some (.ok a)) :
    (p >>= k).answer f = (k a).answer f := by
  induction p with
  | done r =>
    obtain rfl : r = .ok a := Option.some.inj h
    rfl
  | call op next ih =>
    rw [bind_def, andThen, answer]
    rw [answer] at h
    cases hop : f op with
    | none => rw [hop] at h; cases h
    | some r =>
      rw [hop] at h
      cases r with
      | ok b => exact ih b h
      | err e => cases h
      | panic => cases h

end Prog

theorem Quiet.asks {Op : Type} {Reply : Op → Type} {N : Op → Prop} {p : Prog Reply ε α}
    {Q : Outcome ε α → Prop} {op : Op} (h : Quiet N (fun _ _ => True) p Q) (hasks : p.Asks op) :
    N op := by
  induction hasks with
  | here => exact h.1
  | later y _ ih => exact ih (h.2 y trivial)

namespace Body
variable {body : Body L A ε β}

/-- The function, at most `fuel` calls deep. -/
def unroll (body : Body L A ε β) : ℕ → A → Option (Outcome ε β)
  | 0, _ => none
  | fuel + 1, a => (body a).answer fun c => body.unroll fuel c.2

inductive Chain (body : Body L A ε β) : A → List L → A → Prop
  | nil (a : A) : Chain body a [] a
  | cons {a b c : A} {l : L} {ls : List L} (h : (body a).Asks (l, b)) (rest : Chain body b ls c) :
    Chain body a (l :: ls) c

/-- Where every nested call is at a smaller argument, the function returns. -/
theorem unroll_returns (size : A → ℕ) (h : ∀ a c, (body a).Asks c → size c.2 < size a) {fuel : ℕ}
    {a : A} (hfuel : size a < fuel) : ∃ r, body.unroll fuel a = some r := by
  induction fuel generalizing a with
  | zero => exact absurd hfuel (Nat.not_lt_zero _)
  | succ fuel ih =>
    refine Prog.answer_returns fun c hc => ih ?_
    have hless := h a c hc
    omega

theorem Chain.keeps {I : A → Prop} (h : ∀ a c, I a → (body a).Asks c → I c.2) {a b : A} {ls : List L}
    (hchain : body.Chain a ls b) (ha : I a) : I b := by
  induction hchain with
  | nil a => exact ha
  | cons hasks _ ih => exact ih (h _ _ ha hasks)

end Body
end Krypto.Effect
