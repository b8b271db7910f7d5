import Krypto.Effect.Logic

/-! A program among others. Before each of its calls, and before its end is
looked at, the others may have moved the state along a relation that it relies
on; each of its own calls has to keep a guarantee. -/

namespace Krypto.Effect

variable {Op : Type} {Reply : Op → Type} {σ σ₀ ε ε' α β : Type}

/-- Every run of `p` among others that move the state along `R` keeps `G` at each call and ends
in `Q`. -/
def rg (M : Machine Reply σ) (E : M.Env) (R : σ → σ → Prop) (G : Op → σ → σ → Prop) :
    Prog Reply ε α → (Outcome ε α → σ → Prop) → σ → Prop
  | .done r, Q, s => ∀ t, R s t → Q r t
  | .call op next, Q, s => ∀ t, R s t → ∀ c, E op c →
      G op t (M.step op c t).2 ∧ rg M E R G (next (M.step op c t).1) Q (M.step op c t).2

variable {M : Machine Reply σ} {E : M.Env} {R : σ → σ → Prop} {G : Op → σ → σ → Prop}

theorem rg.moved {p : Prog Reply ε α} {Q : Outcome ε α → σ → Prop} {s t : σ}
    (h : rg M E R G p Q s) (htrans : ∀ {a b c}, R a b → R b c → R a c) (ht : R s t) :
    rg M E R G p Q t := by
  cases p with
  | done r => exact fun u hu => h u (htrans ht hu)
  | call op next => exact fun u hu => h u (htrans ht hu)

/-- It is enough to look at the states that the others may have moved to. -/
theorem rg_of_moved {p : Prog Reply ε α} {Q : Outcome ε α → σ → Prop} {s : σ}
    (hself : ∀ {a b}, R a b → R b b) (h : ∀ t, R s t → rg M E R G p Q t) : rg M E R G p Q s := by
  cases p with
  | done r => exact fun t ht => h t ht t (hself ht)
  | call op next => exact fun t ht => h t ht t (hself ht)

theorem rg_andThen {p : Prog Reply ε α} {k : Outcome ε α → Prog Reply ε' β}
    {Q : Outcome ε' β → σ → Prop} {s : σ} (hself : ∀ {a b}, R a b → R b b)
    (h : rg M E R G p (fun r t => rg M E R G (k r) Q t) s) : rg M E R G (p.andThen k) Q s := by
  induction p generalizing s with
  | done r => exact rg_of_moved hself h
  | call op next ih =>
    intro t ht c hc
    obtain ⟨hg, hn⟩ := h t ht c hc
    exact ⟨hg, ih _ hn⟩

theorem rg_bind {p : Prog Reply ε α} {f : α → Prog Reply ε β} {Q : Outcome ε β → σ → Prop} {s : σ}
    (hself : ∀ {a b}, R a b → R b b)
    (h : rg M E R G p (fun r t => rg M E R G (Prog.onOk f r) Q t) s) :
    rg M E R G (p >>= f) Q s := rg_andThen hself h

theorem rg_attempt {p : Prog Reply ε α} {Q : Outcome ε' (Except ε α) → σ → Prop} {s : σ}
    (h : rg M E R G p (fun r t => Q r.attempt t) s) : rg M E R G p.attempt Q s := by
  induction p generalizing s with
  | done r => exact h
  | call op next ih =>
    intro t ht c hc
    obtain ⟨hg, hn⟩ := h t ht c hc
    exact ⟨hg, ih _ hn⟩

theorem rg.imp {p : Prog Reply ε α} {Q Q' : Outcome ε α → σ → Prop} {s : σ}
    (h : rg M E R G p Q s) (hQ : ∀ r t, Q r t → Q' r t) : rg M E R G p Q' s := by
  induction p generalizing s with
  | done r => exact fun t ht => hQ r t (h t ht)
  | call op next ih =>
    intro t ht c hc
    obtain ⟨hg, hn⟩ := h t ht c hc
    exact ⟨hg, ih _ hn⟩

/-- A program that nothing interferes with is among others that do nothing. -/
theorem rg.ends {p : Prog Reply ε α} {Q : Outcome ε α → σ → Prop} {s s' : σ} {r : Outcome ε α}
    (h : rg M E R G p Q s) (hrefl : ∀ s, R s s) (hr : Ends M E p s r s') : Q r s' := by
  induction p generalizing s with
  | done r' =>
    obtain ⟨rfl, rfl⟩ := ends_done hr
    exact h _ (hrefl _)
  | call op next ih =>
    cases hr with
    | step c hc hr => exact ih _ (h s (hrefl s) c hc).2 hr

/-- What holds before each call and at the end holds after each call too. -/
theorem rg.after {p : Prog Reply ε α} {Q : Outcome ε α → σ → Prop} {Mid : σ → Prop} {s : σ}
    (h : rg M E R G p Q s) (hrefl : ∀ s, R s s) (hE : ∀ op, ∃ c, E op c)
    (hG : ∀ op s t, G op s t → Mid s) (hQ : ∀ r t, Q r t → Mid t) :
    rg M E R (fun op s t => G op s t ∧ Mid t) p Q s := by
  induction p generalizing s with
  | done r => exact h
  | call op next ih =>
    intro t ht c hc
    obtain ⟨hg, hn⟩ := h t ht c hc
    refine ⟨⟨hg, ?_⟩, ih _ hn⟩
    generalize next (M.step op c t).1 = q at hn
    cases q with
    | done r => exact hQ r _ (hn _ (hrefl _))
    | call op' next' =>
      obtain ⟨c', hc'⟩ := hE op'
      exact hG op' _ _ (hn _ (hrefl _) c' hc').1

/-- A program run alone, on a part of the state that the others leave as it is while `L` holds. -/
theorem rg_of_wp {M₀ : Machine Reply σ₀} {E₀ : M₀.Env} {G₀ : Op → σ₀ → σ₀ → Prop}
    {B : σ₀ → σ → Prop} {L : σ → Prop} {Q₀ : Outcome ε α → σ₀ → Prop}
    {Q : Outcome ε α → σ → Prop} {p : Prog Reply ε α} {s : σ₀} {t : σ}
    (h : wp M₀ E₀ G₀ p Q₀ s) (lower : (op : Op) → M.Choice op → M₀.Choice op) (hB : B s t)
    (hL : L t) (hR : ∀ s t u, B s t → L t → R t u → B s u ∧ L u)
    (hcall : ∀ op next c s t, E op c → B s t → L t → wp M₀ E₀ G₀ (.call op next) Q₀ s →
      E₀ op (lower op c) ∧ (M₀.step op (lower op c) s).1 = (M.step op c t).1 ∧
      B (M₀.step op (lower op c) s).2 (M.step op c t).2 ∧ L (M.step op c t).2 ∧
      G op t (M.step op c t).2)
    (hdone : ∀ r s t, B s t → L t → Q₀ r s → Q r t) : rg M E R G p Q t := by
  induction p generalizing s t with
  | done r =>
    intro u hu
    obtain ⟨hB', hL'⟩ := hR s t u hB hL hu
    exact hdone r s u hB' hL' h
  | call op next ih =>
    intro u hu c hc
    obtain ⟨hB', hL'⟩ := hR s t u hB hL hu
    obtain ⟨he, hreply, hB'', hL'', hg⟩ := hcall op next c s u hc hB' hL' h
    refine ⟨hg, ?_⟩
    have hnext := (h (lower op c) he).2
    rw [hreply] at hnext
    exact ih _ hnext hB'' hL''

end Krypto.Effect
