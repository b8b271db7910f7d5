import Krypto.Effect.Logic

/-! A server answers requests one by one, each by a program, and keeps a state
of its own between them. What every request preserves holds after any run, and
a server whose every request is a step of an abstract machine refines it. -/

namespace Krypto.Effect

variable {Op : Type} {Reply : Op → Type} {σ ε Req Ans H A : Type}

abbrev Server (Reply : Op → Type) (ε Req Ans H : Type) := Req → H → Prog Reply ε (Ans × H)

inductive Serves (M : Machine Reply σ) (E : M.Env) (serve : Server Reply ε Req Ans H) :
    H × σ → List (Req × Ans) → H × σ → Prop where
  | nil (x) : Serves M E serve x [] x
  | snoc {x l h s q a h' s'} (run : Serves M E serve x l (h, s))
      (last : Ends M E (serve q h) s (.ok (a, h')) s') :
      Serves M E serve x (l ++ [(q, a)]) (h', s')

variable {M : Machine Reply σ} {E : M.Env}
  {serve : Server Reply ε Req Ans H}

theorem Serves.invariant {I : H → σ → Prop} {x y : H × σ} {l : List (Req × Ans)}
    (hrun : Serves M E serve x l y) (h0 : I x.1 x.2)
    (hstep : ∀ q h s a h' s', I h s → Ends M E (serve q h) s (.ok (a, h')) s' → I h' s') :
    I y.1 y.2 := by
  induction hrun with
  | nil => exact h0
  | snoc run last ih => exact hstep _ _ _ _ _ _ ih last

def serveAll (M : Machine Reply σ) (pick : (op : Op) → M.Choice op)
    (serve : Server Reply ε Req Ans H) : List Req → H × σ → Option (List (Req × Ans) × (H × σ))
  | [], x => some ([], x)
  | q :: qs, x =>
    match M.play pick (serve q x.1) x.2 with
    | (.ok (a, h), s) => (serveAll M pick serve qs (h, s)).map fun r => ((q, a) :: r.1, r.2)
    | _ => none

theorem Serves.trans {x y z : H × σ} {l l' : List (Req × Ans)} (h : Serves M E serve x l y)
    (h' : Serves M E serve y l' z) : Serves M E serve x (l ++ l') z := by
  induction h' with
  | nil => rwa [List.append_nil]
  | snoc run last ih =>
    rw [← List.append_assoc]
    exact .snoc ih last

theorem serves_of_serveAll {pick : (op : Op) → M.Choice op} (hpick : ∀ op, E op (pick op))
    {qs : List Req} {x y : H × σ} {l : List (Req × Ans)}
    (h : serveAll M pick serve qs x = some (l, y)) : Serves M E serve x l y := by
  induction qs generalizing x l with
  | nil =>
    cases h
    exact .nil _
  | cons q qs ih =>
    have hends := ends_play pick hpick (serve q x.1) x.2
    rw [serveAll] at h
    rcases hr : M.play pick (serve q x.1) x.2 with ⟨r, s⟩
    rw [hr] at h hends
    cases r with
    | ok r =>
      obtain ⟨⟨l', y'⟩, hl', he⟩ := Option.map_eq_some_iff.mp h
      cases he
      exact (Serves.snoc (.nil x) hends).trans (ih hl')
    | err e => cases h
    | panic => cases h

inductive Traces (step : A → Req → Ans → A → Prop) : A → List (Req × Ans) → A → Prop where
  | nil (a) : Traces step a [] a
  | snoc {a b c l q r} (run : Traces step a l b) (last : step b q r c) :
      Traces step a (l ++ [(q, r)]) c

/-- A server whose every request that is asked is a step of the abstract machine refines it. -/
theorem Serves.refines {step : A → Req → Ans → A → Prop} (R : A → H → σ → Prop)
    (asked : Req → Prop) {x y : H × σ} {l : List (Req × Ans)} {a : A}
    (hrun : Serves M E serve x l y) (hasked : ∀ r ∈ l, asked r.1) (h0 : R a x.1 x.2)
    (hstep : ∀ b q h s y h' s', asked q → R b h s → Ends M E (serve q h) s (.ok (y, h')) s' →
      ∃ c, step b q y c ∧ R c h' s') :
    ∃ b, Traces step a l b ∧ R b y.1 y.2 := by
  induction hrun with
  | nil => exact ⟨a, .nil a, h0⟩
  | snoc run last ih =>
    obtain ⟨b, htrace, hrel⟩ := ih fun r hr => hasked r (List.mem_append_left _ hr)
    have hq := hasked _ (List.mem_append_right _ (List.mem_singleton_self _))
    obtain ⟨c, hc, hrel'⟩ := hstep _ _ _ _ _ _ _ hq hrel last
    exact ⟨c, .snoc htrace hc, hrel'⟩

end Krypto.Effect
