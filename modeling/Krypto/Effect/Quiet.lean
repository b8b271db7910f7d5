import Krypto.Effect.Logic

/-! Programs that only make calls which leave the state alone. How they end
depends on the replies only, so it is stated and proved without a state. -/

namespace Krypto.Effect
variable {Op : Type} {Reply : Op → Type} {σ ε ε' α β : Type}

/-- Every call of `p` is in `N`, and whenever the replies are in `A`, `p` ends in `Q`. -/
def Quiet (N : Op → Prop) (A : (op : Op) → Reply op → Prop) :
    Prog Reply ε α → (Outcome ε α → Prop) → Prop
  | .done r, Q => Q r
  | .call op next, Q => N op ∧ ∀ y, A op y → Quiet N A (next y) Q

variable {N : Op → Prop} {A : (op : Op) → Reply op → Prop}

@[simp] theorem quiet_done (r : Outcome ε α) (Q : Outcome ε α → Prop) :
    Quiet N A (.done r) Q ↔ Q r := Iff.rfl

@[simp] theorem quiet_pure (a : α) (Q : Outcome ε α → Prop) :
    Quiet N A (pure a) Q ↔ Q (.ok a) := Iff.rfl

@[simp] theorem quiet_throw (e : ε) (Q : Outcome ε α → Prop) :
    Quiet N A (Prog.throw e) Q ↔ Q (.err e) := Iff.rfl

theorem quiet_andThen (p : Prog Reply ε α) (k : Outcome ε α → Prog Reply ε' β)
    (Q : Outcome ε' β → Prop) :
    Quiet N A (p.andThen k) Q ↔ Quiet N A p fun r => Quiet N A (k r) Q := by
  induction p with
  | done r => rfl
  | call op next ih =>
    refine and_congr_right fun _ => forall_congr' fun y => imp_congr_right fun _ => ?_
    exact ih y

theorem quiet_bind (p : Prog Reply ε α) (f : α → Prog Reply ε β) (Q : Outcome ε β → Prop) :
    Quiet N A (p >>= f) Q ↔ Quiet N A p fun r => Quiet N A (Prog.onOk f r) Q :=
  quiet_andThen p _ Q

theorem Quiet.imp {p : Prog Reply ε α} {Q Q' : Outcome ε α → Prop} (h : Quiet N A p Q)
    (hQ : ∀ r, Q r → Q' r) : Quiet N A p Q' := by
  induction p with
  | done r => exact hQ r h
  | call op next ih => exact ⟨h.1, fun y hy => ih y (h.2 y hy)⟩

theorem Quiet.calls {N' : Op → Prop} {p : Prog Reply ε α} {Q : Outcome ε α → Prop}
    (h : Quiet N A p Q) (hN : ∀ op, N op → N' op) : Quiet N' A p Q := by
  induction p with
  | done r => exact h
  | call op next ih => exact ⟨hN op h.1, fun y hy => ih y (h.2 y hy)⟩

theorem Quiet.replies {A' : (op : Op) → Reply op → Prop} {p : Prog Reply ε α}
    {Q : Outcome ε α → Prop} (h : Quiet N A p Q) (hA : ∀ op y, A' op y → A op y) :
    Quiet N A' p Q := by
  induction p with
  | done r => exact h
  | call op next ih => exact ⟨h.1, fun y hy => ih y (h.2 y (hA op y hy))⟩

theorem Quiet.bind {p : Prog Reply ε α} {f : α → Prog Reply ε β} {Q : Outcome ε α → Prop}
    {Q' : Outcome ε β → Prop} (h : Quiet N A p Q)
    (hok : ∀ a, Q (.ok a) → Quiet N A (f a) Q') (herr : ∀ e, Q (.err e) → Q' (.err e))
    (hpanic : Q .panic → Q' .panic) : Quiet N A (p >>= f) Q' := by
  rw [quiet_bind]
  refine h.imp fun r hr => ?_
  cases r with
  | ok a => exact hok a hr
  | err e => exact herr e hr
  | panic => exact hpanic hr

theorem Quiet.andThen_congr {p : Prog Reply ε α} {Q : Outcome ε α → Prop}
    {k k' : Outcome ε α → Prog Reply ε' β} (h : Quiet N (fun _ _ => True) p Q)
    (hk : ∀ r, Q r → k r = k' r) : p.andThen k = p.andThen k' := by
  induction p with
  | done r => exact hk r h
  | call op next ih => exact congrArg (Prog.call op) (funext fun y => ih y (h.2 y trivial))

/-! ### Which calls a program makes -/

abbrev Only (N : Op → Prop) (p : Prog Reply ε α) : Prop := Quiet N (fun _ _ => True) p fun _ => True

theorem only_done (r : Outcome ε α) : Only N (.done r : Prog Reply ε α) := trivial

theorem only_perform (op : Op) (h : N op) : Only N (Prog.perform op : Prog Reply ε (Reply op)) :=
  ⟨h, fun _ _ => trivial⟩

theorem Only.bind {p : Prog Reply ε α} {f : α → Prog Reply ε β} (hp : Only N p) (hf : ∀ a, Only N (f a)) :
    Only N (p >>= f) := Quiet.bind hp (fun a _ => hf a) (fun _ _ => trivial) fun _ => trivial

/-! ### What a program yields -/

def Yields (Q : α → Prop) (p : Prog Reply ε α) : Prop :=
  Quiet (fun _ => True) (fun _ _ => True) p fun r => ∀ a, r = .ok a → Q a

theorem yields_pure {Q : α → Prop} {a : α} (h : Q a) : Yields Q (pure a : Prog Reply ε α) := by
  rintro b hb
  cases hb
  exact h

theorem yields_throw {Q : α → Prop} (e : ε) : Yields Q (Prog.throw e : Prog Reply ε α) := by
  rintro a ha
  cases ha

theorem Yields.bind {Q : α → Prop} {Q' : β → Prop} {p : Prog Reply ε α} {f : α → Prog Reply ε β}
    (hp : Yields Q p) (hf : ∀ a, Q a → Yields Q' (f a)) : Yields Q' (p >>= f) := by
  refine Quiet.bind hp (fun a ha => hf a (ha a rfl)) (fun e _ => ?_) fun _ => ?_
  · rintro a ha
    cases ha
  · rintro a ha
    cases ha

theorem Yields.weaken {Q Q' : α → Prop} {p : Prog Reply ε α} (hp : Yields Q p) (hQ : ∀ a, Q a → Q' a) :
    Yields Q' p := Quiet.imp hp fun _ hr a h => hQ a (hr a h)

theorem yields_any (p : Prog Reply ε α) : Yields (fun _ => True) p := by
  induction p with
  | done r => exact fun _ _ => trivial
  | call op next ih => exact ⟨trivial, fun y _ => ih y⟩

theorem yields_bind {Q : β → Prop} {p : Prog Reply ε α} {f : α → Prog Reply ε β}
    (hf : ∀ a, Yields Q (f a)) : Yields Q (p >>= f) := (yields_any p).bind fun a _ => hf a

theorem Yields.onErr {Q : α → Prop} {p : Prog Reply ε α} (hp : Yields Q p) (cleanup : Prog Reply ε Unit) :
    Yields Q (p.onErr cleanup) := by
  unfold Prog.onErr Yields
  rw [quiet_andThen]
  refine hp.imp fun r hr => ?_
  cases r with
  | ok a => exact hr
  | err e =>
    rw [quiet_andThen]
    refine (yields_any cleanup).imp fun _ _ => ?_
    exact yields_throw e
  | panic => exact hr

/-! ### On a machine -/

variable {M : Machine Reply σ} {E : M.Env}

def Machine.Answers (M : Machine Reply σ) (E : M.Env) (op : Op) (y : Reply op) : Prop :=
  ∃ c s, E op c ∧ (M.step op c s).1 = y

theorem Quiet.wp_invariant {G : Op → σ → σ → Prop} {I : σ → Prop} {p : Prog Reply ε α}
    {Q : Outcome ε α → Prop} (h : Quiet N (M.Answers E) p Q) {s : σ} (hI : I s)
    (hstep : ∀ op c s, N op → E op c → I s → I (M.step op c s).2 ∧ G op s (M.step op c s).2) :
    Effect.wp M E G p (fun r s' => Q r ∧ I s') s := by
  induction p generalizing s with
  | done r => exact ⟨h, hI⟩
  | call op next ih =>
    intro c hc
    obtain ⟨hI', hg⟩ := hstep op c s h.1 hc hI
    exact ⟨hg, ih _ (h.2 _ ⟨c, s, hc, rfl⟩) hI'⟩

theorem Quiet.wp_keeps {G : Op → σ → σ → Prop} {R : σ → σ → Prop} {p : Prog Reply ε α}
    {Q : Outcome ε α → Prop} (h : Quiet N (M.Answers E) p Q) (hrefl : ∀ s, R s s)
    (htrans : ∀ {a b c}, R a b → R b c → R a c)
    (hstep : ∀ op c s, N op → E op c → R s (M.step op c s).2 ∧ G op s (M.step op c s).2) (s : σ) :
    Effect.wp M E G p (fun r s' => Q r ∧ R s s') s := by
  refine h.wp_invariant (I := R s) (hrefl s) fun op c t hop hc ht => ?_
  obtain ⟨hr, hg⟩ := hstep op c t hop hc
  exact ⟨htrans ht hr, hg⟩

theorem Quiet.wp {G : Op → σ → σ → Prop} {p : Prog Reply ε α} {Q : Outcome ε α → Prop} {s : σ}
    (h : Quiet N (M.Answers E) p Q)
    (hstep : ∀ op c s, N op → E op c → (M.step op c s).2 = s ∧ G op s s) :
    Effect.wp M E G p (fun r s' => Q r ∧ s' = s) s := by
  refine (h.wp_keeps (R := fun s s' => s' = s) (fun _ => rfl) (fun h h' => h'.trans h) ?_ s)
  intro op c s hop hc
  obtain ⟨hs, hg⟩ := hstep op c s hop hc
  exact ⟨hs, hs.symm ▸ hg⟩

theorem Quiet.logged {p : Prog Reply ε α} {Q : Outcome ε α → Prop}
    (h : Quiet N (M.Answers E) p Q) : Quiet N (M.logged.Answers E) p Q := by
  induction p with
  | done r => exact h
  | call op next ih =>
    refine ⟨h.1, fun y hy => ih y (h.2 y ?_)⟩
    obtain ⟨c, s, hc, he⟩ := hy
    exact ⟨c, s.2, hc, he⟩

theorem Quiet.steps {p : Prog Reply ε α} {Q : Outcome ε α → Prop} {s s' : σ} {op : Op}
    {next : Reply op → Prog Reply ε α} (h : Quiet N (M.Answers E) p Q)
    (hs : Steps M E (p, s) (.call op next, s')) : N op := by
  generalize hx : (p, s) = x at hs
  generalize hy : (Prog.call op next, s') = y at hs
  induction hs generalizing p s with
  | refl =>
    cases hx
    cases hy
    exact h.1
  | step c hc _ ih =>
    cases hx
    exact ih (h.2 _ ⟨c, _, hc, rfl⟩) rfl hy

/-- Where the environment always has a choice, every program ends. -/
theorem exists_ends (hE : ∀ op, ∃ c, E op c) (p : Prog Reply ε α) (s : σ) :
    ∃ r s', Ends M E p s r s' := by
  induction p generalizing s with
  | done r => exact ⟨r, s, .refl _⟩
  | call op next ih =>
    obtain ⟨c, hc⟩ := hE op
    obtain ⟨r, s', h⟩ := ih (M.step op c s).1 (M.step op c s).2
    exact ⟨r, s', .step c hc h⟩

theorem quiet_ends {p : Prog Reply ε α} {Q : Outcome ε α → Prop}
    (h : Quiet N (fun _ _ => True) p Q) {s s' : σ} {r : Outcome ε α} (hends : Ends M E p s r s') : Q r := by
  have hwp : Effect.wp M E (fun _ _ _ => True) p (fun r _ => Q r ∧ True) s :=
    (h.replies fun _ _ _ => trivial).wp_invariant (I := fun _ => True) trivial fun _ _ _ _ _ _ => ⟨trivial, trivial⟩
  exact (hwp.ends hends).1

end Krypto.Effect
