import Krypto.Effect.Program

/-! Running a program against an environment that answers each call by its own
choice, and the rules for showing what every such run preserves. -/

namespace Krypto.Effect

/-- An environment with state `σ`: the choices it has at a call decide the reply. -/
structure Machine {Op : Type} (Reply : Op → Type) (σ : Type) where
  Choice : Op → Type
  step : (op : Op) → Choice op → σ → Reply op × σ

variable {Op : Type} {Reply : Op → Type} {σ ε ε' α β : Type}

abbrev Machine.Env (M : Machine Reply σ) := (op : Op) → M.Choice op → Prop

inductive Steps (M : Machine Reply σ) (E : M.Env) :
    Prog Reply ε α × σ → Prog Reply ε α × σ → Prop where
  | refl (x) : Steps M E x x
  | step {op : Op} {next : Reply op → Prog Reply ε α} {s : σ} {y} (c : M.Choice op) (hc : E op c)
      (rest : Steps M E (next (M.step op c s).1, (M.step op c s).2) y) :
      Steps M E (.call op next, s) y

def Ends (M : Machine Reply σ) (E : M.Env) (p : Prog Reply ε α) (s : σ) (r : Outcome ε α)
    (s' : σ) : Prop :=
  Steps M E (p, s) (.done r, s')

/-- Every run of `p` from `s` keeps `G` at each call and ends in `Q`. -/
def wp (M : Machine Reply σ) (E : M.Env) (G : Op → σ → σ → Prop) :
    Prog Reply ε α → (Outcome ε α → σ → Prop) → σ → Prop
  | .done r, Q, s => Q r s
  | .call op next, Q, s => ∀ c, E op c →
      G op s (M.step op c s).2 ∧ wp M E G (next (M.step op c s).1) Q (M.step op c s).2

variable {M : Machine Reply σ} {E : M.Env} {G : Op → σ → σ → Prop}

@[simp] theorem wp_done (r : Outcome ε α) (Q : Outcome ε α → σ → Prop) (s : σ) :
    wp M E G (.done r) Q s ↔ Q r s := Iff.rfl

theorem wp_call (op : Op) (next : Reply op → Prog Reply ε α) (Q : Outcome ε α → σ → Prop)
    (s : σ) :
    wp M E G (.call op next) Q s ↔ ∀ c, E op c →
      G op s (M.step op c s).2 ∧ wp M E G (next (M.step op c s).1) Q (M.step op c s).2 := Iff.rfl

theorem wp_call_step {op : Op} {next : Reply op → Prog Reply ε α} {Q : Outcome ε α → σ → Prop}
    {s s' : σ} {c₀ : M.Choice op} {r : Reply op} (honly : ∀ c, E op c → c = c₀)
    (hstep : M.step op c₀ s = (r, s')) (hG : G op s s') (hnext : wp M E G (next r) Q s') :
    wp M E G (.call op next) Q s := by
  intro c hc
  obtain rfl := honly c hc
  rw [hstep]
  exact ⟨hG, hnext⟩

@[simp] theorem wp_pure (a : α) (Q : Outcome ε α → σ → Prop) (s : σ) :
    wp M E G (pure a) Q s ↔ Q (.ok a) s := Iff.rfl

@[simp] theorem wp_throw (e : ε) (Q : Outcome ε α → σ → Prop) (s : σ) :
    wp M E G (Prog.throw e) Q s ↔ Q (.err e) s := Iff.rfl

theorem wp_andThen (p : Prog Reply ε α) (k : Outcome ε α → Prog Reply ε' β)
    (Q : Outcome ε' β → σ → Prop) (s : σ) :
    wp M E G (p.andThen k) Q s ↔ wp M E G p (fun r s' => wp M E G (k r) Q s') s := by
  induction p generalizing s with
  | done r => rfl
  | call op next ih =>
    simp only [Prog.andThen, wp_call]
    exact forall_congr' fun c => imp_congr_right fun _ => and_congr_right fun _ => ih _ _

theorem wp_bind (p : Prog Reply ε α) (f : α → Prog Reply ε β) (Q : Outcome ε β → σ → Prop)
    (s : σ) :
    wp M E G (p >>= f) Q s ↔ wp M E G p (fun r s' => wp M E G (Prog.onOk f r) Q s') s :=
  wp_andThen p _ Q s

theorem wp_attempt (p : Prog Reply ε α) (Q : Outcome ε' (Except ε α) → σ → Prop) (s : σ) :
    wp M E G p.attempt Q s ↔ wp M E G p (fun r s' => Q r.attempt s') s :=
  wp_andThen p _ Q s

theorem wp_mono {G' : Op → σ → σ → Prop} {p : Prog Reply ε α} {Q Q' : Outcome ε α → σ → Prop}
    {s : σ} (hG : ∀ op s s', G op s s' → G' op s s') (hQ : ∀ r s, Q r s → Q' r s)
    (h : wp M E G p Q s) : wp M E G' p Q' s := by
  induction p generalizing s with
  | done r => exact hQ r s h
  | call op next ih =>
    intro c hc
    obtain ⟨hg, hn⟩ := h c hc
    exact ⟨hG _ _ _ hg, ih _ hn⟩

theorem wp.imp {p : Prog Reply ε α} {Q Q' : Outcome ε α → σ → Prop} {s : σ}
    (h : wp M E G p Q s) (hQ : ∀ r s', Q r s' → Q' r s') : wp M E G p Q' s :=
  wp_mono (fun _ _ _ hg => hg) hQ h

theorem wp.and {G' : Op → σ → σ → Prop} {p : Prog Reply ε α} {Q Q' : Outcome ε α → σ → Prop}
    {s : σ} (h : wp M E G p Q s) (h' : wp M E G' p Q' s) :
    wp M E (fun op s s' => G op s s' ∧ G' op s s') p (fun r s' => Q r s' ∧ Q' r s') s := by
  induction p generalizing s with
  | done r => exact ⟨h, h'⟩
  | call op next ih =>
    intro c hc
    obtain ⟨hg, hn⟩ := h c hc
    obtain ⟨hg', hn'⟩ := h' c hc
    exact ⟨⟨hg, hg'⟩, ih _ hn hn'⟩

/-! ## From the rules to the runs -/

theorem wp.steps {p p' : Prog Reply ε α} {Q : Outcome ε α → σ → Prop} {s s' : σ}
    (h : wp M E G p Q s) (hs : Steps M E (p, s) (p', s')) : wp M E G p' Q s' := by
  generalize hx : (p, s) = x at hs
  generalize hy : (p', s') = y at hs
  induction hs generalizing p s with
  | refl =>
    cases hx
    cases hy
    exact h
  | step c hc _ ih =>
    cases hx
    exact ih (h c hc).2 rfl hy

theorem wp.ends {p : Prog Reply ε α} {Q : Outcome ε α → σ → Prop} {s s' : σ} {r : Outcome ε α}
    (h : wp M E G p Q s) (hr : Ends M E p s r s') : Q r s' := h.steps hr

/-- A property of states that holds at the start and that every call keeps holds at every
point of every run. -/
theorem wp.always {I : σ → Prop} {p p' : Prog Reply ε α} {Q : Outcome ε α → σ → Prop} {s s' : σ}
    (h : wp M E (fun _ _ s' => I s') p Q s) (hI : I s) (hs : Steps M E (p, s) (p', s')) :
    I s' := by
  generalize hx : (p, s) = x at hs
  generalize hy : (p', s') = y at hs
  induction hs generalizing p s with
  | refl =>
    cases hx
    cases hy
    exact hI
  | step c hc _ ih =>
    cases hx
    obtain ⟨hg, hn⟩ := h c hc
    exact ih hn hg rfl hy

/-- What relates the states before and after every call relates any two points of a run. -/
theorem wp.relates {R : σ → σ → Prop} {p p' : Prog Reply ε α} {Q : Outcome ε α → σ → Prop}
    {s s' : σ} (h : wp M E (fun _ s s' => R s s') p Q s) (hrefl : ∀ s, R s s)
    (htrans : ∀ {a b c}, R a b → R b c → R a c) (hs : Steps M E (p, s) (p', s')) : R s s' := by
  generalize hx : (p, s) = x at hs
  generalize hy : (p', s') = y at hs
  induction hs generalizing p s with
  | refl =>
    cases hx
    cases hy
    exact hrefl _
  | step c hc _ ih =>
    cases hx
    obtain ⟨hr, hn⟩ := h c hc
    exact htrans hr (ih hn rfl hy)

theorem Steps.trans {x y z : Prog Reply ε α × σ} (h : Steps M E x y) (h' : Steps M E y z) :
    Steps M E x z := by
  induction h with
  | refl => exact h'
  | step c hc _ ih => exact .step c hc (ih h')

theorem ends_andThen {p : Prog Reply ε α} {k : Outcome ε α → Prog Reply ε' β} {s s' : σ}
    {r : Outcome ε' β} (h : Ends M E (p.andThen k) s r s') :
    ∃ r1 s1, Ends M E p s r1 s1 ∧ Ends M E (k r1) s1 r s' := by
  induction p generalizing s with
  | done r1 => exact ⟨r1, s, .refl _, h⟩
  | call op next ih =>
    cases h with
    | step c hc h =>
      obtain ⟨r1, s1, h1, h2⟩ := ih _ h
      exact ⟨r1, s1, .step c hc h1, h2⟩

theorem ends_done {r r' : Outcome ε α} {s s' : σ} (h : Ends M E (.done r) s r' s') :
    r' = r ∧ s' = s := by
  cases h
  exact ⟨rfl, rfl⟩

theorem Steps.andThen {p p' : Prog Reply ε α} {s s' : σ} (h : Steps M E (p, s) (p', s'))
    (k : Outcome ε α → Prog Reply ε' β) : Steps M E (p.andThen k, s) (p'.andThen k, s') := by
  generalize hx : (p, s) = x at h
  generalize hy : (p', s') = y at h
  induction h generalizing p s with
  | refl =>
    cases hx
    cases hy
    exact .refl _
  | step c hc _ ih =>
    cases hx
    exact .step c hc (ih rfl hy)

/-- A run of `p` and then `k` has not left `p`, or `p` has ended on it. -/
theorem steps_andThen {p : Prog Reply ε α} {k : Outcome ε α → Prog Reply ε' β} {q : Prog Reply ε' β}
    {s s' : σ} (h : Steps M E (p.andThen k, s) (q, s')) :
    (∃ p', Steps M E (p, s) (p', s') ∧ q = p'.andThen k) ∨
      ∃ r s1, Ends M E p s r s1 ∧ Steps M E (k r, s1) (q, s') := by
  induction p generalizing s with
  | done r => exact .inr ⟨r, s, .refl _, h⟩
  | call op next ih =>
    cases h with
    | refl => exact .inl ⟨.call op next, .refl _, rfl⟩
    | step c hc h =>
      rcases ih _ h with ⟨p', hp', hq⟩ | ⟨r, s1, hends, hrest⟩
      · exact .inl ⟨p', .step c hc hp', hq⟩
      · exact .inr ⟨r, s1, .step c hc hends, hrest⟩

theorem Ends.steps_bind {p : Prog Reply ε α} {s s1 : σ} {a : α} (h : Ends M E p s (.ok a) s1)
    (f : α → Prog Reply ε β) : Steps M E (p >>= f, s) (f a, s1) := Steps.andThen h (Prog.onOk f)

theorem Ends.bind {p : Prog Reply ε α} {f : α → Prog Reply ε β} {s s1 s' : σ} {a : α}
    {r : Outcome ε β} (h : Ends M E p s (.ok a) s1) (hf : Ends M E (f a) s1 r s') :
    Ends M E (p >>= f) s r s' := (h.steps_bind f).trans hf

def Machine.play (M : Machine Reply σ) (pick : (op : Op) → M.Choice op) :
    Prog Reply ε α → σ → Outcome ε α × σ
  | .done r, s => (r, s)
  | .call op next, s =>
    M.play pick (next (M.step op (pick op) s).1) (M.step op (pick op) s).2

theorem ends_play (pick : (op : Op) → M.Choice op) (h : ∀ op, E op (pick op))
    (p : Prog Reply ε α) (s : σ) : Ends M E p s (M.play pick p s).1 (M.play pick p s).2 := by
  induction p generalizing s with
  | done r => exact .refl _
  | call op next ih => exact .step (pick op) (h op) (ih _ _)

theorem ends_of_play (pick : (op : Op) → M.Choice op) (h : ∀ op, E op (pick op))
    {p : Prog Reply ε α} {s : σ} {r : Outcome ε α} (hr : (M.play pick p s).1 = r) :
    ∃ s', Ends M E p s r s' :=
  ⟨_, hr ▸ ends_play pick h p s⟩

def Machine.advance (M : Machine Reply σ) (pick : (op : Op) → M.Choice op) :
    Nat → Prog Reply ε α × σ → Prog Reply ε α × σ
  | 0, x => x
  | _ + 1, (.done r, s) => (.done r, s)
  | n + 1, (.call op next, s) =>
    M.advance pick n (next (M.step op (pick op) s).1, (M.step op (pick op) s).2)

theorem steps_advance (pick : (op : Op) → M.Choice op) (h : ∀ op, E op (pick op)) (n : Nat)
    (x : Prog Reply ε α × σ) : Steps M E x (M.advance pick n x) := by
  induction n generalizing x with
  | zero => exact .refl x
  | succ n ih =>
    obtain ⟨p, s⟩ := x
    cases p with
    | done r => exact .refl _
    | call op next => exact .step (pick op) (h op) (ih _)

/-! ## Runs that keep a log of their calls -/

abbrev Event (Reply : Op → Type) := Σ op : Op, Reply op

abbrev Machine.logged (M : Machine Reply σ) : Machine Reply (List (Event Reply) × σ) where
  Choice := M.Choice
  step op c s := ((M.step op c s.2).1, s.1 ++ [⟨op, (M.step op c s.2).1⟩], (M.step op c s.2).2)

theorem Steps.logged {x y : Prog Reply ε α × σ} (h : Steps M E x y) (l : List (Event Reply)) :
    ∃ l', Steps M.logged E (x.1, (l, x.2)) (y.1, (l', y.2)) := by
  induction h generalizing l with
  | refl => exact ⟨l, .refl _⟩
  | step c hc _ ih =>
    obtain ⟨l', h'⟩ := ih (l ++ [⟨_, (M.step _ c _).1⟩])
    exact ⟨l', .step c hc h'⟩

theorem Steps.log_subset {x y : Prog Reply ε α × List (Event Reply) × σ} (h : Steps M.logged E x y) :
    x.2.1 ⊆ y.2.1 := by
  induction h with
  | refl => exact List.Subset.refl _
  | step c hc _ ih => exact List.Subset.trans (List.subset_append_left _ _) ih

theorem wp_of_logged {p : Prog Reply ε α} {Q : Outcome ε α → List (Event Reply) × σ → Prop}
    {l : List (Event Reply)} {s : σ} (h : wp M.logged E (fun _ _ _ => True) p Q (l, s)) :
    wp M E (fun _ _ _ => True) p (fun r s' => ∃ l', Q r (l', s')) s := by
  induction p generalizing l s with
  | done r => exact ⟨l, h⟩
  | call op next ih => exact fun c hc => ⟨trivial, ih _ (h c hc).2⟩

theorem Ends.logged {p : Prog Reply ε α} {s s' : σ} {r : Outcome ε α} (h : Ends M E p s r s')
    (l : List (Event Reply)) : ∃ l', Ends M.logged E p (l, s) r (l', s') := Steps.logged h l

end Krypto.Effect
