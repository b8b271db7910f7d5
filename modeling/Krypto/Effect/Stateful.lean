import Krypto.Effect.Quiet

/-! Programs with a state of their own that may raise an exception, and keep what they did to the
state when they do. One such program stands for another, on states that stand for its states,
where both make the same calls and give the same answers. -/

namespace Krypto.Effect

variable {Op : Type} {Reply : Op → Type} {ε χ σ τ μ α β Req : Type}

/-- A program over the state `σ` that may raise a `χ`. -/
def Stateful (Reply : Op → Type) (ε χ σ α : Type) := σ → Prog Reply ε (Except χ α × σ)

namespace Stateful

def next (f : α → Stateful Reply ε χ σ β) : Except χ α × σ → Prog Reply ε (Except χ β × σ)
  | (.ok a, s) => f a s
  | (.error e, s) => .done (.ok (.error e, s))

instance : Monad (Stateful Reply ε χ σ) where
  pure a := fun s => .done (.ok (.ok a, s))
  bind p f := fun s => p s >>= next f

def run {ε' : Type} (f : ε' → χ) (p : Prog Reply ε' α) : Stateful Reply ε χ σ α := fun s =>
  p.andThen fun
    | .ok a => .done (.ok (.ok a, s))
    | .err e => .done (.ok (.error (f e), s))
    | .panic => .done .panic

def ofExcept (r : Except χ α) : Stateful Reply ε χ σ α := fun s => .done (.ok (r, s))

theorem bind_of_ok {p : Stateful Reply ε χ σ α} {f : α → Stateful Reply ε χ σ β} {s s' : σ} {a : α}
    (h : p s = .done (.ok (.ok a, s'))) : (p >>= f) s = f a s' := by
  show (p s).andThen _ = _
  rw [h]
  rfl

theorem bind_of_error {p : Stateful Reply ε χ σ α} {f : α → Stateful Reply ε χ σ β} {s s' : σ} {e : χ}
    (h : p s = .done (.ok (.error e, s'))) : (p >>= f) s = .done (.ok (.error e, s')) := by
  show (p s).andThen _ = _
  rw [h]
  rfl

theorem run_bind {ε' : Type} (f : ε' → χ) (p : Prog Reply ε' α) (k : α → Stateful Reply ε χ σ β) (s : σ) :
    (run f p >>= k) s = p.andThen fun
      | .ok a => k a s
      | .err e => .done (.ok (.error (f e), s))
      | .panic => .done .panic := by
  show (p.andThen _).andThen _ = _
  rw [Prog.andThen_assoc]
  refine congrArg p.andThen (funext fun r => ?_)
  cases r
  all_goals rfl

end Stateful

/-! ### One program for another -/

section Represents

def Prog.viewed (view : σ → τ) (p : Prog Reply ε (α × σ)) : Prog Reply ε (α × τ) :=
  p.andThen fun
    | .ok (a, s) => .done (.ok (a, view s))
    | .err e => .done (.err e)
    | .panic => .done .panic

/-- A program's end that keeps `I` and moves the state along `R`; it is never an error. -/
def Keeps (I : σ → Prop) (R : σ → σ → Prop) (s : σ) : Outcome ε (α × σ) → Prop
  | .ok (_, s') => I s' ∧ R s s'
  | .err _ => False
  | .panic => True

/-- From every state that keeps `I` and where `pre` holds, `q` does on what `view` makes of the
state as `p` does on it, and `p` keeps `I`, moves along `R`, and ends in no error. -/
def Represents (I : σ → Prop) (R : σ → σ → Prop) (view : σ → τ) (pre : σ → Prop)
    (p : Stateful Reply ε χ σ α) (q : Stateful Reply ε χ τ α) : Prop :=
  ∀ s, I s → pre s → q (view s) = (p s).viewed view ∧
    Quiet (fun _ => True) (fun _ _ => True) (p s) (Keeps I R s)

variable {I : σ → Prop} {R : σ → σ → Prop} {view : σ → τ} {pre : σ → Prop}
  {p : Stateful Reply ε χ σ α} {q : Stateful Reply ε χ τ α}

theorem represents_done (hrefl : ∀ s, R s s) (r : Except χ α) :
    Represents I R view pre (Stateful.ofExcept r : Stateful Reply ε χ σ α) (Stateful.ofExcept r) :=
  fun s hI _ => ⟨rfl, hI, hrefl s⟩

theorem represents_pure (hrefl : ∀ s, R s s) (a : α) :
    Represents I R view pre (pure a : Stateful Reply ε χ σ α) (pure a) :=
  represents_done hrefl (.ok a)

theorem represents_run {ε' : Type} (hrefl : ∀ s, R s s) (f : ε' → χ) (p : Prog Reply ε' α) :
    Represents I R view pre (Stateful.run f p : Stateful Reply ε χ σ α) (Stateful.run f p) := by
  intro s hI _
  constructor
  · show p.andThen _ = (p.andThen _).andThen _
    rw [Prog.andThen_assoc]
    refine congrArg p.andThen (funext fun r => ?_)
    cases r
    all_goals rfl
  · show Quiet _ _ (p.andThen _) _
    rw [quiet_andThen]
    induction p with
    | done r =>
      cases r with
      | ok a => exact ⟨hI, hrefl s⟩
      | err e => exact ⟨hI, hrefl s⟩
      | panic => exact trivial
    | call op next ih => exact ⟨trivial, fun y _ => ih y⟩

theorem Represents.bind {post : σ → Prop} (htrans : ∀ a b c, R a b → R b c → R a c)
    (hpost : ∀ s s', pre s → R s s' → post s') (hp : Represents I R view pre p q)
    {f : α → Stateful Reply ε χ σ β} {g : α → Stateful Reply ε χ τ β}
    (hf : ∀ a, Represents I R view post (f a) (g a)) :
    Represents I R view pre (p >>= f) (q >>= g) := by
  intro s hI hs
  obtain ⟨hsame, hkeeps⟩ := hp s hI hs
  constructor
  · show (q (view s)).andThen (Prog.onOk (Stateful.next g)) =
      ((p s).andThen (Prog.onOk (Stateful.next f))).viewed view
    rw [hsame, Prog.viewed, Prog.viewed, Prog.andThen_assoc, Prog.andThen_assoc]
    -- the leaves of `p` keep `I`, and there `g` does as `f` does
    apply hkeeps.andThen_congr
    intro r hr
    cases r with
    | ok x =>
      obtain ⟨a | a, s'⟩ := x
      · rfl
      · exact (hf a s' hr.1 (hpost s s' hs hr.2)).1
    | err e => exact hr.elim
    | panic => rfl
  · show Quiet _ _ ((p s).andThen (Prog.onOk (Stateful.next f))) _
    rw [quiet_andThen]
    refine hkeeps.imp fun r hr => ?_
    cases r with
    | ok x =>
      obtain ⟨a | a, s'⟩ := x
      · exact hr
      · refine (hf a s' hr.1 (hpost s s' hs hr.2)).2.imp fun r' hr' => ?_
        cases r' with
        | ok y => exact ⟨hr'.1, htrans s s' y.2 hr.2 hr'.2⟩
        | err e => exact hr'
        | panic => exact trivial
    | err e => exact hr
    | panic => exact trivial

theorem Represents.loosen {R' : σ → σ → Prop} (h : Represents I R view pre p q) (hR : ∀ s s', R s s' → R' s s') :
    Represents I R' view pre p q := by
  intro s hI hs
  refine ⟨(h s hI hs).1, (h s hI hs).2.imp fun r hr => ?_⟩
  cases r with
  | ok x => exact ⟨hr.1, hR s x.2 hr.2⟩
  | err e => exact hr
  | panic => exact trivial

/-- A program without a state first: what it yields may be relied on. -/
theorem represents_run_bind {ε' : Type} {f : ε' → χ} {p : Prog Reply ε' α} {Q : α → Prop}
    (hrefl : ∀ s, R s s) (hp : Yields Q p) {k : α → Stateful Reply ε χ σ β} {k' : α → Stateful Reply ε χ τ β}
    (hk : ∀ a, Q a → Represents I R view pre (k a) (k' a)) :
    Represents I R view pre (Stateful.run f p >>= k) (Stateful.run f p >>= k') := by
  intro s hI hs
  rw [Stateful.run_bind, Stateful.run_bind]
  constructor
  · rw [Prog.viewed, Prog.andThen_assoc]
    apply Quiet.andThen_congr hp
    intro r hr
    cases r with
    | ok a => exact (hk a (hr a rfl) s hI hs).1
    | err e => rfl
    | panic => rfl
  · rw [quiet_andThen]
    refine Quiet.imp hp fun r hr => ?_
    cases r with
    | ok a => exact (hk a (hr a rfl) s hI hs).2
    | err e => exact ⟨hI, hrefl s⟩
    | panic => exact trivial

end Represents

/-! ### Whole runs -/

section Runs
variable {M : Machine Reply μ} {E : M.Env}

/-- Requests served in turn, each where it is allowed: what was asked and answered, the state it
ends in and the system's. -/
inductive Runs (M : Machine Reply μ) (E : M.Env) (serve : Req → Stateful Reply ε χ σ α)
    (Allowed : σ → Req → Prop) : σ × μ → List (Req × Except χ α) → σ × μ → Prop where
  | nil (x) : Runs M E serve Allowed x [] x
  | snoc {x s m trace q a s' m'} (before : Runs M E serve Allowed x trace (s, m)) (hq : Allowed s q)
      (hends : Ends M E (serve q s) m (.ok (a, s')) m') :
      Runs M E serve Allowed x (trace ++ [(q, a)]) (s', m')

variable {I : σ → Prop} {R : σ → σ → Prop} {view : σ → τ} {serve : Req → Stateful Reply ε χ σ α}
  {serve' : Req → Stateful Reply ε χ τ α} {Allowed : σ → Req → Prop} {Allowed' : τ → Req → Prop}

theorem ends_andThen_done {p : Prog Reply ε α} {k : Outcome ε α → Outcome ε β} {m m' : μ}
    {r : Outcome ε β} :
    Ends M E (p.andThen fun r => .done (k r)) m r m' ↔ ∃ r₀, Ends M E p m r₀ m' ∧ r = k r₀ := by
  induction p generalizing m with
  | done r₀ =>
    constructor
    · intro h
      obtain ⟨rfl, rfl⟩ := ends_done h
      exact ⟨r₀, .refl _, rfl⟩
    · rintro ⟨r₁, h, rfl⟩
      obtain ⟨rfl, rfl⟩ := ends_done h
      exact .refl _
  | call op next ih =>
    constructor
    · intro h
      cases h with
      | step c hc h =>
        obtain ⟨r₀, h₀, hr⟩ := (ih _).mp h
        exact ⟨r₀, .step c hc h₀, hr⟩
    · rintro ⟨r₀, h, hr⟩
      cases h with
      | step c hc h => exact .step c hc ((ih _).mpr ⟨r₀, h, hr⟩)

def viewedEnd (view : σ → τ) : Outcome ε (α × σ) → Outcome ε (α × τ)
  | .ok (a, s) => .ok (a, view s)
  | .err e => .err e
  | .panic => .panic

theorem viewed_eq (view : σ → τ) (p : Prog Reply ε (α × σ)) :
    p.viewed view = p.andThen fun r => .done (viewedEnd view r) := by
  refine congrArg p.andThen (funext fun r => ?_)
  cases r
  all_goals rfl

theorem ends_viewed {p : Prog Reply ε (α × σ)} {m m' : μ} {r : Outcome ε (α × τ)} :
    Ends M E (p.viewed view) m r m' ↔ ∃ r₀, Ends M E p m r₀ m' ∧ r = viewedEnd view r₀ := by
  rw [viewed_eq]
  exact ends_andThen_done

theorem Runs.invariant (hI : ∀ q, ∃ serve' : Stateful Reply ε χ τ α, Represents I R view (Allowed · q) (serve q) serve')
    {x : σ × μ} {trace : List (Req × Except χ α)} {y : σ × μ} (h : Runs M E serve Allowed x trace y)
    (hx : I x.1) : I y.1 := by
  induction h with
  | nil => exact hx
  | @snoc s m trace q a s' m' before hq hends ih =>
    obtain ⟨_, hrep⟩ := hI q
    exact (quiet_ends (hrep s ih hq).2 hends).1

/-- Where each request is represented, so is every run of them, and there are no others. -/
theorem runs_viewed (hserve : ∀ q, Represents I R view (Allowed · q) (serve q) (serve' q))
    (hallowed : ∀ s q, I s → (Allowed' (view s) q ↔ Allowed s q)) {s : σ} (hs : I s) {m m' : μ}
    {trace : List (Req × Except χ α)} {t : τ} :
    Runs M E serve' Allowed' (view s, m) trace (t, m') ↔
      ∃ s', view s' = t ∧ Runs M E serve Allowed (s, m) trace (s', m') := by
  constructor
  · intro h
    generalize hy : (t, m') = y at h
    induction h generalizing t m' with
    | nil =>
      cases hy
      exact ⟨s, rfl, .nil _⟩
    | @snoc t₀ m₀ trace q a t' m'' before hq hends ih =>
      cases hy
      obtain ⟨s₀, rfl, hrun⟩ := ih rfl
      have hI₀ : I s₀ := hrun.invariant (fun q => ⟨_, hserve q⟩) hs
      have hq₀ := (hallowed s₀ q hI₀).mp hq
      rw [(hserve q s₀ hI₀ hq₀).1] at hends
      obtain ⟨r, hr, hview⟩ := ends_viewed.mp hends
      cases r with
      | ok z =>
        obtain ⟨a', s'⟩ := z
        obtain ⟨rfl, rfl⟩ := Prod.mk.inj (Outcome.ok.inj hview)
        exact ⟨s', rfl, hrun.snoc hq₀ hr⟩
      | err e => cases hview
      | panic => cases hview
  · rintro ⟨s', rfl, h⟩
    generalize hy : (s', m') = y at h
    induction h generalizing s' m' with
    | nil =>
      cases hy
      exact .nil _
    | @snoc s₀ m₀ trace q a s₁ m'' before hq hends ih =>
      cases hy
      have hI₀ : I s₀ := before.invariant (fun q => ⟨_, hserve q⟩) hs
      refine (ih _ rfl).snoc ((hallowed s₀ q hI₀).mpr hq) ?_
      rw [(hserve q s₀ hI₀ hq).1]
      exact ends_viewed.mpr ⟨_, hends, rfl⟩

def runAll (M : Machine Reply μ) (pick : (op : Op) → M.Choice op) (serve : Req → Stateful Reply ε χ σ α)
    (allowed : σ → Req → Bool) : List Req → σ × μ → Option (List (Req × Except χ α) × (σ × μ))
  | [], x => some ([], x)
  | q :: qs, x =>
    if allowed x.1 q then
      match M.play pick (serve q x.1) x.2 with
      | (.ok (a, s), m) => (runAll M pick serve allowed qs (s, m)).map fun r => ((q, a) :: r.1, r.2)
      | _ => none
    else
      none

theorem Runs.trans {x y z : σ × μ} {l l' : List (Req × Except χ α)} (h : Runs M E serve Allowed x l y)
    (h' : Runs M E serve Allowed y l' z) : Runs M E serve Allowed x (l ++ l') z := by
  induction h' with
  | nil => rwa [List.append_nil]
  | snoc before hq hends ih =>
    rw [← List.append_assoc]
    exact .snoc ih hq hends

theorem runs_of_runAll {pick : (op : Op) → M.Choice op} (hpick : ∀ op, E op (pick op))
    {allowed : σ → Req → Bool} (hallowed : ∀ s q, allowed s q = true → Allowed s q)
    {qs : List Req} {x y : σ × μ} {l : List (Req × Except χ α)}
    (h : runAll M pick serve allowed qs x = some (l, y)) : Runs M E serve Allowed x l y := by
  induction qs generalizing x l with
  | nil =>
    cases h
    exact .nil _
  | cons q qs ih =>
    have hends := ends_play pick hpick (serve q x.1) x.2
    rw [runAll] at h
    have hq : allowed x.1 q = true := by
      cases hq : allowed x.1 q with
      | true => rfl
      | false =>
        rw [hq] at h
        cases h
    rw [if_pos hq] at h
    rcases hr : M.play pick (serve q x.1) x.2 with ⟨r, m⟩
    rw [hr] at h hends
    cases r with
    | ok r =>
      obtain ⟨⟨l', y'⟩, hl', he⟩ := Option.map_eq_some_iff.mp h
      cases he
      exact (Runs.snoc (.nil x) (hallowed _ _ hq) hends).trans (ih hl')
    | err e => cases h
    | panic => cases h

end Runs

end Krypto.Effect
