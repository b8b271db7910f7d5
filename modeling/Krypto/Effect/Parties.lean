import Krypto.Effect.Rely
import Krypto.Effect.Service
import Mathlib.Logic.Function.Basic
import Mathlib.Logic.Relation

/-! Any number of parties on one shared state, each with a state of its own and a
server's work to do, call by call in any order; and others outside that may move
the shared state too. What each party guarantees, the others may rely on. -/

namespace Krypto.Effect

variable {ι Op : Type} {Reply : Op → Type} {ε Req Ans H γ κ : Type}

inductive Status (Reply : Op → Type) (ε Req Ans H : Type) where
  | idle (h : H)
  | running (q : Req) (h : H) (p : Prog Reply ε (Ans × H))

def Status.handle : Status Reply ε Req Ans H → H
  | idle h => h
  | running _ h _ => h

structure Parties (ι : Type) (Reply : Op → Type) (ε Req Ans H γ κ : Type) where
  machine : ι → Machine Reply (γ × κ)
  env : (i : ι) → (machine i).Env
  serve : Server Reply ε Req Ans H
  /-- What is noted of a request that was answered. -/
  record : ι → Req → H → Ans → γ → γ
  outside : γ → γ → Prop

structure World (ι : Type) (Reply : Op → Type) (ε Req Ans H γ κ : Type) where
  shared : γ
  own : ι → κ
  status : ι → Status Reply ε Req Ans H
  /-- The requests of each party that were answered, oldest first. -/
  answered : ι → List (Req × Ans)

namespace Parties
variable (S : Parties ι Reply ε Req Ans H γ κ)

def Relies (R : ι → γ → γ → Prop) (J : γ → Prop) (i : ι) (s t : γ × κ) : Prop :=
  R i s.1 t.1 ∧ t.2 = s.2 ∧ J t.1

def Guarantees (R : ι → γ → γ → Prop) (J : γ → Prop) (Mid : γ × κ → Prop) (i : ι) (_ : Op)
    (s t : γ × κ) : Prop :=
  Mid s ∧ J t.1 ∧ ∀ j, j ≠ i → R j s.1 t.1

/-- A discipline that every party keeps: `J` of the shared state at all times, `Idle` of a party
between its requests, `Mid` before each call and `Post` when a request is done. -/
structure Discipline (R : ι → γ → γ → Prop) (J : γ → Prop) (Idle : ι → H → γ × κ → Prop)
    (Mid : ι → Req → H → γ × κ → Prop)
    (Post : ι → Req → H → Outcome ε (Ans × H) → γ × κ → Prop) : Prop where
  refl : ∀ i g, R i g g
  trans : ∀ i {a b c}, R i a b → R i b c → R i a c
  idle : ∀ i h g g' k, Idle i h (g, k) → R i g g' → J g' → Idle i h (g', k)
  start : ∀ i q h g k, J g → Idle i h (g, k) →
    rg (S.machine i) (S.env i) (Relies R J i) (Guarantees R J (Mid i q h) i) (S.serve q h)
      (Post i q h) (g, k)
  answer : ∀ i q h a h' g k, J g → Post i q h (.ok (a, h')) (g, k) →
    J (S.record i q h a g) ∧ (∀ j, j ≠ i → R j g (S.record i q h a g)) ∧
      Idle i h' (S.record i q h a g, k)
  outside : ∀ g g', J g → S.outside g g' → J g' ∧ ∀ i, R i g g'

variable {S} {R : ι → γ → γ → Prop} {J : γ → Prop} {Idle : ι → H → γ × κ → Prop}
  {Mid : ι → Req → H → γ × κ → Prop} {Post : ι → Req → H → Outcome ε (Ans × H) → γ × κ → Prop}

def Status.Keeps (S : Parties ι Reply ε Req Ans H γ κ) (R : ι → γ → γ → Prop) (J : γ → Prop)
    (Idle : ι → H → γ × κ → Prop) (Mid : ι → Req → H → γ × κ → Prop)
    (Post : ι → Req → H → Outcome ε (Ans × H) → γ × κ → Prop) (i : ι) (s : γ × κ) :
    Status Reply ε Req Ans H → Prop
  | .idle h => Idle i h s
  | .running q h p =>
    rg (S.machine i) (S.env i) (Relies R J i) (Guarantees R J (Mid i q h) i) p (Post i q h) s

structure Disciplined (S : Parties ι Reply ε Req Ans H γ κ) (R : ι → γ → γ → Prop) (J : γ → Prop)
    (Idle : ι → H → γ × κ → Prop) (Mid : ι → Req → H → γ × κ → Prop)
    (Post : ι → Req → H → Outcome ε (Ans × H) → γ × κ → Prop)
    (w : World ι Reply ε Req Ans H γ κ) : Prop where
  shared : J w.shared
  party : ∀ i, Status.Keeps S R J Idle Mid Post i (w.shared, w.own i) (w.status i)

theorem Discipline.relies_trans {i : ι} (h : S.Discipline R J Idle Mid Post) {a b c : γ × κ}
    (hab : Relies R J i a b) (hbc : Relies R J i b c) : Relies R J i a c :=
  ⟨h.trans i hab.1 hbc.1, hbc.2.1.trans hab.2.1, hbc.2.2⟩

theorem Discipline.keeps (h : S.Discipline R J Idle Mid Post) {i : ι} {g g' : γ} {k : κ}
    {x : Status Reply ε Req Ans H} (hx : Status.Keeps S R J Idle Mid Post i (g, k) x)
    (hg : R i g g') (hJ : J g') : Status.Keeps S R J Idle Mid Post i (g', k) x := by
  cases x with
  | idle hs => exact h.idle i hs g g' k hx hg hJ
  | running q hs p =>
    exact rg.moved hx (fun hab hbc => h.relies_trans hab hbc) ⟨hg, rfl, hJ⟩

theorem Disciplined.mid (h : S.Discipline R J Idle Mid Post)
    {w : World ι Reply ε Req Ans H γ κ} (hw : Disciplined S R J Idle Mid Post w)
    (hE : ∀ i op, ∃ c, S.env i op c) {i : ι} {q : Req} {hs : H} {p : Prog Reply ε (Ans × H)}
    (hst : w.status i = .running q hs p) :
    (∃ op next, p = .call op next ∧ Mid i q hs (w.shared, w.own i)) ∨
      ∃ r, p = .done r ∧ Post i q hs r (w.shared, w.own i) := by
  have hrun := hw.party i
  rw [hst] at hrun
  have hself : Relies R J i (w.shared, w.own i) (w.shared, w.own i) :=
    ⟨h.refl i _, rfl, hw.shared⟩
  cases p with
  | done r => exact Or.inr ⟨r, rfl, hrun _ hself⟩
  | call op next =>
    obtain ⟨c, hc⟩ := hE i op
    exact Or.inl ⟨op, next, rfl, (hrun _ hself c hc).1.1⟩

/-! ## Steps in any order -/

variable [DecidableEq ι]

variable (S) in
inductive Step : Option ι → World ι Reply ε Req Ans H γ κ → World ι Reply ε Req Ans H γ κ → Prop where
  | begins {w i h} (q : Req) (hw : w.status i = .idle h) :
      Step (some i) w { w with status := Function.update w.status i (.running q h (S.serve q h)) }
  | call {w i q h op next} (c : (S.machine i).Choice op) (hc : S.env i op c)
      (hw : w.status i = .running q h (.call op next)) :
      Step (some i) w
        { w with
          shared := ((S.machine i).step op c (w.shared, w.own i)).2.1
          own := Function.update w.own i ((S.machine i).step op c (w.shared, w.own i)).2.2
          status := Function.update w.status i
            (.running q h (next ((S.machine i).step op c (w.shared, w.own i)).1)) }
  | answers {w i q h a h'} (hw : w.status i = .running q h (.done (.ok (a, h')))) :
      Step (some i) w
        { w with
          shared := S.record i q h a w.shared
          status := Function.update w.status i (.idle h')
          answered := Function.update w.answered i (w.answered i ++ [(q, a)]) }
  | outside {w g} (hg : S.outside w.shared g) : Step none w { w with shared := g }

variable (S) in
def Runs : World ι Reply ε Req Ans H γ κ → World ι Reply ε Req Ans H γ κ → Prop :=
  Relation.ReflTransGen fun w w' => ∃ who, S.Step who w w'

theorem Discipline.step (h : S.Discipline R J Idle Mid Post)
    {w w' : World ι Reply ε Req Ans H γ κ} {who : Option ι} (hw : Disciplined S R J Idle Mid Post w)
    (hstep : S.Step who w w') :
    Disciplined S R J Idle Mid Post w' ∧ ∀ i, who ≠ some i → R i w.shared w'.shared := by
  have hparty {i : ι} {g' : γ} {k' : κ} {x : Status Reply ε Req Ans H}
      (hi : Status.Keeps S R J Idle Mid Post i (g', k') x) (hJ : J g')
      (hothers : ∀ j, j ≠ i → R j w.shared g') :
      ∀ j, Status.Keeps S R J Idle Mid Post j (g', Function.update w.own i k' j)
        (Function.update w.status i x j) := by
    intro j
    by_cases hj : j = i
    · subst hj
      rw [Function.update_self, Function.update_self]
      exact hi
    · rw [Function.update_of_ne hj, Function.update_of_ne hj]
      exact h.keeps (hw.party j) (hothers j hj) hJ
  cases hstep with
  | @begins _ i hs q hst =>
    have hidle := hw.party i
    rw [hst] at hidle
    have hstart := h.start i q hs w.shared (w.own i) hw.shared hidle
    have hall := hparty (x := .running q hs (S.serve q hs)) hstart hw.shared
      fun j _ => h.refl j w.shared
    rw [Function.update_eq_self] at hall
    exact ⟨⟨hw.shared, hall⟩, fun j _ => h.refl j w.shared⟩
  | @call _ i q hs op next c hc hst =>
    have hrun := hw.party i
    rw [hst] at hrun
    -- what the party guarantees at a call is what the others rely on
    obtain ⟨⟨-, hJ, hothers⟩, hnext⟩ :=
      hrun (w.shared, w.own i) ⟨h.refl i _, rfl, hw.shared⟩ c hc
    refine ⟨⟨hJ, hparty (x := .running q hs _) hnext hJ hothers⟩, fun j hj => hothers j ?_⟩
    exact fun e => hj (by rw [e])
  | @answers _ i q hs a h' hst =>
    have hrun := hw.party i
    rw [hst] at hrun
    have hpost := hrun (w.shared, w.own i) ⟨h.refl i _, rfl, hw.shared⟩
    obtain ⟨hJ, hothers, hidle⟩ := h.answer i q hs a h' w.shared (w.own i) hw.shared hpost
    have hall := hparty (x := .idle h') hidle hJ hothers
    rw [Function.update_eq_self] at hall
    exact ⟨⟨hJ, hall⟩, fun j hj => hothers j fun e => hj (by rw [e])⟩
  | outside hg =>
    obtain ⟨hJ, hothers⟩ := h.outside _ _ hw.shared hg
    exact ⟨⟨hJ, fun j => h.keeps (hw.party j) (hothers j) hJ⟩, fun j _ => hothers j⟩

/-- Whatever the order of the steps, the discipline is kept. -/
theorem Discipline.runs (h : S.Discipline R J Idle Mid Post)
    {w w' : World ι Reply ε Req Ans H γ κ} (hw : Disciplined S R J Idle Mid Post w)
    (hrun : S.Runs w w') : Disciplined S R J Idle Mid Post w' := by
  induction hrun with
  | refl => exact hw
  | tail _ hstep ih =>
    obtain ⟨who, hstep⟩ := hstep
    exact (h.step ih hstep).1

/-- Where every request is a step of an abstract machine, so are those of each party in turn,
whatever the others did in between. -/
theorem Discipline.traces {A : Type} {step : A → Req → Ans → A → Prop} (abs : H → A) (a₀ : ι → A)
    (h : S.Discipline R J Idle Mid Post)
    (hpost : ∀ i q hs a h' s, Post i q hs (.ok (a, h')) s → step (abs hs) q a (abs h'))
    {w w' : World ι Reply ε Req Ans H γ κ} (hw : Disciplined S R J Idle Mid Post w)
    (hstart : ∀ i, Traces step (a₀ i) (w.answered i) (abs (w.status i).handle)) (hrun : S.Runs w w') (i : ι) :
    Traces step (a₀ i) (w'.answered i) (abs (w'.status i).handle) := by
  induction hrun with
  | refl => exact hstart i
  | @tail b c hbefore hstep ih =>
    have hb := h.runs hw hbefore
    obtain ⟨who, hstep⟩ := hstep
    -- only an answer adds to what was answered; it is `i`'s own, or leaves `i` alone
    have hsame {x : Status Reply ε Req Ans H} {j : ι} (hx : x.handle = (b.status j).handle) :
        (Function.update b.status j x i).handle = (b.status i).handle := by
      by_cases hj : i = j
      · rw [hj, Function.update_self, hx]
      · rw [Function.update_of_ne hj]
    cases hstep with
    | @begins _ j hs q hst =>
      dsimp only
      rwa [hsame (by rw [hst]; rfl)]
    | @call _ j q hs op next c hc hst =>
      dsimp only
      rwa [hsame (by rw [hst]; rfl)]
    | @answers _ j q hs a h' hst =>
      dsimp only
      by_cases hj : i = j
      · subst hj
        have hdone := hb.party i
        rw [hst] at hdone
        have hlast := hpost i q hs a h' _ (hdone _ ⟨h.refl i _, rfl, hb.shared⟩)
        rw [hst] at ih
        rw [Function.update_self, Function.update_self]
        exact .snoc ih hlast
      · rwa [Function.update_of_ne hj, Function.update_of_ne hj]
    | outside hg => exact ih

variable (S) in
/-- Steps in which party `i` goes on with one request, and `K` holds after each. -/
def Within (K : World ι Reply ε Req Ans H γ κ → Prop) (i : ι) :
    World ι Reply ε Req Ans H γ κ → World ι Reply ε Req Ans H γ κ → Prop :=
  Relation.ReflTransGen fun w w' => (∃ who, S.Step who w w') ∧ K w' ∧ w'.answered i = w.answered i

theorem Discipline.within (h : S.Discipline R J Idle Mid Post)
    {K : World ι Reply ε Req Ans H γ κ → Prop} {I : γ → Prop} {G : Op → γ × κ → γ × κ → Prop}
    {w w' : World ι Reply ε Req Ans H γ κ} {i : ι} {q : Req} {hs : H} {p : Prog Reply ε (Ans × H)}
    {Q : Outcome ε (Ans × H) → γ × κ → Prop} (hw : Disciplined S R J Idle Mid Post w) (hK : K w)
    (hI : I w.shared)
    (hkeep : ∀ a b who, Disciplined S R J Idle Mid Post a → Disciplined S R J Idle Mid Post b →
      S.Step who a b → K a → K b → I a.shared → I b.shared)
    (hst : w.status i = .running q hs p)
    (hrun : rg (S.machine i) (S.env i) (fun s t => Relies R J i s t ∧ I t.1) G p Q
      (w.shared, w.own i)) (hin : S.Within K i w w') :
    Disciplined S R J Idle Mid Post w' ∧ K w' ∧ I w'.shared ∧ ∃ p', w'.status i = .running q hs p' ∧
      rg (S.machine i) (S.env i) (fun s t => Relies R J i s t ∧ I t.1) G p' Q
        (w'.shared, w'.own i) := by
  -- along the steps: the program that is left still runs among the others as it should
  induction hin with
  | refl => exact ⟨hw, hK, hI, p, hst, hrun⟩
  | @tail a b _ hstep ih =>
    obtain ⟨ha, hKa, hIa, p', hsta, hruna⟩ := ih
    obtain ⟨⟨who, hstep⟩, hKb, hsame⟩ := hstep
    obtain ⟨hb, hothers⟩ := h.step ha hstep
    have hIb := hkeep a b who ha hb hstep hKa hKb hIa
    refine ⟨hb, hKb, hIb, ?_⟩
    have hother (hwho : who ≠ some i) (hown : b.own i = a.own i) (hstb : b.status i = a.status i) :
        ∃ p', b.status i = .running q hs p' ∧
          rg (S.machine i) (S.env i) (fun s t => Relies R J i s t ∧ I t.1) G p' Q
            (b.shared, b.own i) := by
      refine ⟨p', hstb.trans hsta, ?_⟩
      rw [hown]
      refine rg.moved hruna (fun hab hbc => ⟨h.relies_trans hab.1 hbc.1, hbc.2⟩)
        ⟨⟨hothers i hwho, rfl, hb.shared⟩, hIb⟩
    cases hstep with
    | @begins _ j hs' q' hidle =>
      by_cases hj : j = i
      · subst hj
        rw [hsta] at hidle
        cases hidle
      · exact hother (fun e => hj (Option.some.inj e)) rfl (Function.update_of_ne (Ne.symm hj) _ _)
    | @call _ j q' hs' op next c hc hrunning =>
      by_cases hj : j = i
      · subst hj
        rw [hsta] at hrunning
        cases hrunning
        -- its own call: the rule for `rg` at the state it is made in
        obtain ⟨-, hnext⟩ := hruna (a.shared, a.own j) ⟨⟨h.refl j _, rfl, ha.shared⟩, hIa⟩ c hc
        refine ⟨_, Function.update_self _ _ _, ?_⟩
        dsimp only
        rw [Function.update_self]
        exact hnext
      · exact hother (fun e => hj (Option.some.inj e)) (Function.update_of_ne (Ne.symm hj) _ _)
          (Function.update_of_ne (Ne.symm hj) _ _)
    | @answers _ j q' hs' x h' hdone =>
      by_cases hj : j = i
      · subst hj
        dsimp only at hsame
        rw [Function.update_self] at hsame
        exact absurd hsame (by simp)
      · exact hother (fun e => hj (Option.some.inj e)) rfl (Function.update_of_ne (Ne.symm hj) _ _)
    | outside hg => exact hother nofun rfl rfl

variable (S) in
/-- The state after these turns: a party begins the request if one is given, makes its next call,
chosen by `pick`, or is answered. -/
def advance (pick : (i : ι) → (op : Op) → (S.machine i).Choice op) :
    List (ι × Option Req) → World ι Reply ε Req Ans H γ κ → World ι Reply ε Req Ans H γ κ
  | [], w => w
  | (i, request) :: turns, w =>
    match w.status i, request with
    | .idle h, some q => advance pick turns
        { w with status := Function.update w.status i (.running q h (S.serve q h)) }
    | .running q h (.call op next), none => advance pick turns
        { w with
          shared := ((S.machine i).step op (pick i op) (w.shared, w.own i)).2.1
          own := Function.update w.own i ((S.machine i).step op (pick i op) (w.shared, w.own i)).2.2
          status := Function.update w.status i
            (.running q h (next ((S.machine i).step op (pick i op) (w.shared, w.own i)).1)) }
    | .running q h (.done (.ok (a, h'))), none => advance pick turns
        { w with
          shared := S.record i q h a w.shared
          status := Function.update w.status i (.idle h')
          answered := Function.update w.answered i (w.answered i ++ [(q, a)]) }
    | _, _ => advance pick turns w

theorem runs_advance {pick : (i : ι) → (op : Op) → (S.machine i).Choice op}
    (hpick : ∀ i op, S.env i op (pick i op)) (turns : List (ι × Option Req))
    (w : World ι Reply ε Req Ans H γ κ) : S.Runs w (S.advance pick turns w) := by
  induction turns generalizing w with
  | nil => exact .refl
  | cons turn turns ih =>
    obtain ⟨i, request⟩ := turn
    unfold advance
    split
    next h q hst => exact .head ⟨some i, .begins q hst⟩ (ih _)
    next q h op next hst => exact .head ⟨some i, .call _ (hpick i op) hst⟩ (ih _)
    next q h a h' hst => exact .head ⟨some i, .answers hst⟩ (ih _)
    next => exact ih w

end Parties
end Krypto.Effect
