import Krypto.Effect.Quiet

/-! What a program knows says which calls it may make, and a reply says what it knows then. A
program that follows such a protocol, whatever is replied, keeps all that the protocol keeps. -/

namespace Krypto.Effect

variable {Op X σ ε ε' α β : Type} {Reply : Op → Type}

structure Protocol (Reply : Op → Type) (X : Type) where
  allows : X → Op → Prop
  /-- The replies there can be. -/
  sees : X → (op : Op) → Reply op → Prop
  after : X → (op : Op) → Reply op → X

/-- Knowing `x`, `p` makes only calls that the protocol allows, and it ends in `Q` with what is then
known. -/
def Protocol.Follows (U : Protocol Reply X) (x : X) : Prog Reply ε α → (Outcome ε α → X → Prop) → Prop
  | .done r, Q => Q r x
  | .call op next, Q => U.allows x op ∧ ∀ y, U.sees x op y → U.Follows (U.after x op y) (next y) Q

namespace Protocol
variable {U : Protocol Reply X} {x : X} {p : Prog Reply ε α}

theorem follows_andThen {k : Outcome ε α → Prog Reply ε' β} {Q : Outcome ε' β → X → Prop}
    (h : U.Follows x p fun r x' => U.Follows x' (k r) Q) : U.Follows x (p.andThen k) Q := by
  induction p generalizing x with
  | done r => exact h
  | call op next ih => exact ⟨h.1, fun y hy => ih y (h.2 y hy)⟩

theorem follows_bind {f : α → Prog Reply ε β} {Q : Outcome ε β → X → Prop}
    (h : U.Follows x p fun r x' => U.Follows x' (Prog.onOk f r) Q) : U.Follows x (p >>= f) Q := follows_andThen h

theorem Follows.imp {Q Q' : Outcome ε α → X → Prop} (h : U.Follows x p Q) (hQ : ∀ r x', Q r x' → Q' r x') :
    U.Follows x p Q' := by
  induction p generalizing x with
  | done r => exact hQ r x h
  | call op next ih => exact ⟨h.1, fun y hy => ih y (h.2 y hy)⟩

variable {M : Machine Reply σ} {E : M.Env} {G : Op → σ → σ → Prop} {B : X → σ → Prop}
  {Q : Outcome ε α → X → Prop} {s : σ}

/-- `B` says what is so where `x` is known. -/
theorem Follows.wp (h : U.Follows x p Q) (hs : B x s)
    (hstep : ∀ x op c s, U.allows x op → E op c → B x s → U.sees x op (M.step op c s).1 ∧
      B (U.after x op (M.step op c s).1) (M.step op c s).2 ∧ G op s (M.step op c s).2) :
    Effect.wp M E G p (fun r t => ∃ x', Q r x' ∧ B x' t) s := by
  induction p generalizing x s with
  | done r => exact ⟨x, h, hs⟩
  | call op next ih =>
    intro c hc
    obtain ⟨hsees, hnext, hg⟩ := hstep x op c s h.1 hc hs
    exact ⟨hg, ih _ (h.2 _ hsees) hnext⟩

end Protocol
end Krypto.Effect
