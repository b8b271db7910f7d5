import Krypto.Store.Serial

/-! No lost update and no two live handles: whatever the parties do in whatever
order, one handle is alive at a time, and what is stored is what the operations
that succeeded make of the store, one after another. -/

namespace Krypto.Store
open Effect

section Exclusion
variable {ι : Type} {P : Primitives} {path : Bytes} {start : Option Bytes}

/-- Party `i` between two operations: it has no handle and no lock, or one handle with its lock. -/
inductive Idle (P : Primitives) (path : Bytes) (start : Option Bytes) (i : ι) :
    List SecretStore → Shared ι × Own → Prop where
  | free {s} (h : Free i s) : Idle P path start i [] s
  | holds {s st f} (hlock : st.lock = some f) (h : Holding i f s)
      (hmine : Mine P path start st (effects s.1.history) (s.1.disk.stored path)) :
      Idle P path start i [st] s

/-- Party `i` in the middle of the request `q`: the handle it had has its lock, and when it has the
lock what is stored is explained by what was done, or by that and the request. -/
structure Amid (P : Primitives) (path : Bytes) (start : Option Bytes) (i : ι) (q : Operation)
    (h : List SecretStore) (s : Shared ι × Own) : Prop where
  length : h.length ≤ 1
  locked : ∀ st ∈ h, ∃ f n, st.lock = some f ∧ s.1.passed i f n
  explains : (∃ f n, s.1.passed i f n) →
    Explains P start (effects s.1.history) (s.1.disk.stored path) ∨
      Explains P start (effects s.1.history ++ [⟨i, q, h, .done (.ok ())⟩]) (s.1.disk.stored path)

def noted (i : ι) (q : Operation) (h : List SecretStore) (a : Answer) (g : Shared ι) : Shared ι :=
  { g with history := g.history ++ [⟨i, q, h, a⟩] }

structure Answered (P : Primitives) (path : Bytes) (start : Option Bytes) (i : ι) (q : Operation)
    (h : List SecretStore) (a : Answer) (h' : List SecretStore) (s : Shared ι × Own) : Prop where
  idle : Idle P path start i h' (noted i q h a s.1, s.2)
  passed : Done.effective (⟨i, q, h, a⟩ : Done ι) = true → ∃ f n, s.1.passed i f n
  /-- A rotation hands its lock to the new handle. -/
  rotated : ∀ k master, q = .rotate k master → a = .done (.ok ()) →
    ∃ st st', h[k]? = some st ∧ h'[k]? = some st' ∧ st'.lock = st.lock

abbrev Finished (P : Primitives) (path : Bytes) (start : Option Bytes) (i : ι) (q : Operation)
    (h : List SecretStore) (r : Outcome Error (Answer × List SecretStore))
    (s : Shared ι × Own) : Prop :=
  ∃ a h', r = .ok (a, h') ∧ Answered P path start i q h a h' s

theorem TrustOf.self {i : ι} {s t : Shared ι × Own} (h : TrustOf P path start i s t) :
    TrustOf P path start i t t := ⟨Trust.refl i t.1, rfl, h.2.2⟩

theorem Idle.trust {i : ι} {h : List SecretStore} {s t : Shared ι × Own}
    (hs : Idle P path start i h s) (ht : TrustOf P path start i s t) : Idle P path start i h t := by
  cases hs with
  | free hfree => exact .free (hfree.trust ht)
  | holds hlock hheld hmine =>
    obtain ⟨hheld', hdisk, heffects, -⟩ := hheld.trust ht
    refine .holds hlock hheld' ?_
    rw [hdisk, heffects]
    exact hmine

theorem effects_append {l l' : List (Done ι)} : effects (l ++ l') = effects l ++ effects l' :=
  List.filter_append ..

theorem effects_noted_of_not {i : ι} {q : Operation} {h : List SecretStore} {a : Answer}
    {g : Shared ι} (he : Done.effective (⟨i, q, h, a⟩ : Done ι) = false) :
    effects (noted i q h a g).history = effects g.history := by
  have hnil : effects [(⟨i, q, h, a⟩ : Done ι)] = [] := List.filter_cons_of_neg (by simp [he])
  show effects (g.history ++ [_]) = _
  rw [effects_append, hnil, List.append_nil]

theorem effects_noted {i : ι} {q : Operation} {h : List SecretStore} {a : Answer}
    {g : Shared ι} (he : Done.effective (⟨i, q, h, a⟩ : Done ι) = true) :
    effects (noted i q h a g).history = effects g.history ++ [⟨i, q, h, a⟩] := by
  have hone : effects [(⟨i, q, h, a⟩ : Done ι)] = [⟨i, q, h, a⟩] := List.filter_cons_of_pos he
  show effects (g.history ++ [_]) = _
  rw [effects_append, hone]

theorem Idle.noted {i : ι} {q : Operation} {h h' : List SecretStore} {a : Answer}
    {s : Shared ι × Own} (hs : Idle P path start i h' s)
    (he : Done.effective (⟨i, q, h, a⟩ : Done ι) = false) :
    Idle P path start i h' (Store.noted i q h a s.1, s.2) := by
  cases hs with
  | free hfree => exact .free ⟨hfree.passed, hfree.locks⟩
  | holds hlock hheld hmine =>
    refine .holds hlock ⟨hheld.passed, hheld.only, hheld.next⟩ ?_
    rw [effects_noted_of_not he]
    exact hmine

theorem finished_idle {i : ι} {q : Operation} {h h' : List SecretStore} {a : Answer}
    {s : Shared ι × Own} (hs : Idle P path start i h' s)
    (he : Done.effective (⟨i, q, h, a⟩ : Done ι) = false) :
    Finished P path start i q h (.ok (a, h')) s := by
  refine ⟨a, h', rfl, hs.noted he, fun h => ?_, ?_⟩
  · rw [he] at h
    cases h
  · rintro k master rfl rfl
    cases he

variable [DecidableEq ι] {i : ι} {f : Nat} {s : Shared ι × Own}

theorem close_holding (Mid : Shared ι × Own → Prop) (hmid : Mid s) (hs : Holding i f s)
    (hsound : Sound P path start s.1)
    (hexplains : Explains P start (effects s.1.history) (s.1.disk.stored path)) (c : Unit) :
    KeepTrust P path start Mid i (.close f) s ((party path i).step (.close f) c s).2 ∧
      Free i ((party path i).step (.close f) c s).2 := by
  obtain ⟨n, hn⟩ := hs.passed
  have hstat : Call.close f ≠ .stat (lockPath path) := nofun
  have htry : ∀ g, Call.close f ≠ (.tryLock g : Call Bytes) := nofun
  have hno (j : ι) (k m : Nat) :
      ¬((party path i).step (.close f) c s).2.1.passed j k m := by
    intro hp
    obtain ⟨hp', hne⟩ := (passed_step hstat c j k m).mp hp
    obtain ⟨rfl, rfl, -⟩ := hsound.unique hp' hn
    exact hne ⟨rfl, rfl⟩
  refine ⟨⟨hmid, ⟨fun j k m hp => absurd hp (hno j k m), fun _ => hexplains⟩, ?_⟩, ?_, ?_⟩
  · intro j hj
    have hothers (k m : Nat) : ¬s.1.passed j k m := fun hk => hj (hsound.unique hk hn).1
    refine Trust.of_alone (fun k m => ?_) (fun m k => ?_) hothers
    · exact iff_of_false (hno j k m) (hothers k m)
    · exact (locks_step htry c m j k).trans (and_iff_left fun he => hj he.1)
  · exact fun k m => hno i k m
  · intro m k hl
    obtain ⟨hl', hne⟩ := (locks_step htry c m i k).mp hl
    obtain rfl := hs.only m k hl'
    exact hne ⟨rfl, rfl⟩

theorem idle_done {G : Call Bytes → Shared ι × Own → Shared ι × Own → Prop} {q : Operation}
    {h h' : List SecretStore} {a : Answer} (hs : Idle P path start i h' s)
    (he : Done.effective (⟨i, q, h, a⟩ : Done ι) = false) :
    rg (party path i) calm (TrustOf P path start i) G (pure (a, h'))
      (Finished P path start i q h) s :=
  fun _ ht => finished_idle (hs.trust ht) he

/-! ## Opening -/

theorem openLocked_lock {σ : Type} {M : Machine (Call.Reply (ν := Bytes)) σ} {E : M.Env}
    (path : Bytes) (master : MasterKey) (lock : Option Nat) (t : σ) :
    wp M E (fun _ _ _ => True) (SecretStore.openLocked path master lock)
      (fun r _ => ∀ st, r = .ok st → st.lock = lock) t := by
  have hany {α : Type} (p : Action Bytes α) (t : σ) :
      wp M E (fun _ _ _ => True) p (fun _ _ => True) t := by
    induction p generalizing t with
    | done r => trivial
    | call op next ih => exact fun c _ => ⟨trivial, ih _ _⟩
  -- Whatever comes first, the handle is made last.
  have hlast {α : Type} (p : Action Bytes α) {k : α → Action Bytes SecretStore} (t : σ)
      (hk : ∀ a t, wp M E (fun _ _ _ => True) (k a) (fun r _ => ∀ st, r = .ok st → st.lock = lock) t) :
      wp M E (fun _ _ _ => True) (p >>= k) (fun r _ => ∀ st, r = .ok st → st.lock = lock) t := by
    rw [wp_bind]
    refine (hany p t).imp fun r t' _ => ?_
    cases r with
    | ok a => exact hk a t'
    | err e => exact nofun
    | panic => exact nofun
  have hpure (st : SecretStore) (hst : st.lock = lock) (t : σ) :
      wp M E (fun _ _ _ => True) (pure st : Action Bytes SecretStore)
        (fun r _ => ∀ st, r = .ok st → st.lock = lock) t := by
    rintro _ ⟨⟩
    exact hst
  unfold SecretStore.openLocked
  refine hlast _ t fun found t => ?_
  cases found with
  | some data => exact hlast _ t fun _ t => hlast _ t fun c t => hpure _ rfl t
  | none => exact hlast _ t fun _ t => hlast _ t fun _ t => hlast _ t fun _ t => hpure _ rfl t

/-- Opening among others, without a lock: there is a handle with its lock, or none. -/
theorem openStore_free {Mid : Shared ι × Own → Prop}
    (hfree : ∀ s, (∀ f n, ¬s.1.passed i f n) → Mid s)
    (hmid : ∀ s, Explains P start (effects s.1.history) (s.1.disk.stored path) → Mid s)
    (master : MasterKey) (hs : Free i s) :
    rg (party path i) calm (TrustOf P path start i) (KeepTrust P path start Mid i)
      (SecretStore.openStore path master) (fun r t =>
        (∃ st f, r = .ok st ∧ st.lock = some f ∧ Holding i f t ∧
          Mine P path start st (effects t.1.history) (t.1.disk.stored path)) ∨
        ∃ e, r = .err e ∧ Free i t) s := by
  unfold SecretStore.openStore
  refine rg_bind (TrustOf.self) ((lockTries_free hfree 3 hs).imp fun r t hr => ?_)
  rcases hr with ⟨f, rfl, hheld, hexplains⟩ | ⟨e, rfl, hfree'⟩
  swap
  · exact fun u hu => Or.inr ⟨_, rfl, hfree'.trust hu⟩
  refine rg_of_moved TrustOf.self fun u hu => ?_
  obtain ⟨hheld', hdisk, heffects, -⟩ := hheld.trust hu
  rw [← hdisk, ← heffects] at hexplains
  -- alone with the lock, opening ends as `Opened` says, and hands the lock on
  have hspec : wp (kernel Bytes i).logged (calmly i) anyStep
      (SecretStore.openLocked path master (some f))
      (fun r t => Opened (calmly i) path master ([], view u) r t ∧
        ∀ st, r = .ok st → st.lock = some f) ([], view u) := by
    exact wp_mono (fun _ _ _ _ => trivial) (fun _ _ h => h)
      ((openLocked_wp path master (some f) ([], view u)).and
        (openLocked_lock path master (some f) ([], view u)))
  have houtline := openLocked_outline path master (some f)
  have hrun := live_rg Mid houtline hspec (fun v _ he hv => ?_) hheld' hu.2.2
  swap
  · refine hmid v ?_
    rw [he]
    rcases hv with hv | ⟨r, l, p', ⟨hopened, -⟩, hv⟩
    · rw [hv]
      exact hexplains
    · rw [← hv]
      rcases hopened.mine hexplains with ⟨st, -, hmine⟩ | ⟨-, hsame⟩
      · exact hmine.explains
      · rw [hsame]
        exact hexplains
  show rg _ _ _ _ ((SecretStore.openLocked path master (some f)).onErr (dropLock (some f))) _ u
  refine rg_andThen TrustOf.self (hrun.imp fun r v hv => ?_)
  obtain ⟨hheld, heffects, l, p', ⟨hopened, hlock⟩, hp⟩ := hv
  have hv : v.1.disk.stored path = p'.disk.stored path := by rw [hp.disk]
  -- a handle keeps the lock; an error gives it back
  rcases hopened.mine hexplains with ⟨st, rfl, hmine⟩ | ⟨⟨e, rfl⟩, hsame⟩
  · intro w hw
    obtain ⟨hheld', hdisk', heffects', -⟩ := hheld.trust hw
    refine Or.inl ⟨st, f, rfl, hlock st rfl, hheld', ?_⟩
    rw [hdisk', heffects', heffects, hv]
    exact hmine
  · intro w hw c _
    obtain ⟨hheld', hdisk', heffects', -⟩ := hheld.trust hw
    have hexplains' : Explains P start (effects w.1.history) (w.1.disk.stored path) := by
      rw [hdisk', heffects', heffects, hv, hsame]
      exact hexplains
    obtain ⟨hg, hfree'⟩ := close_holding Mid (hmid w hexplains') hheld' hw.2.2 hexplains' c
    exact ⟨hg, fun x hx => Or.inr ⟨e, rfl, hfree'.trust hx⟩⟩

theorem openStore_blocked {R : Shared ι × Own → Shared ι × Own → Prop}
    {G : Call Bytes → Shared ι × Own → Shared ι × Own → Prop} {X : Shared ι × Own → Prop}
    {n m : Nat} (hself : ∀ {a b}, R a b → R b b) (hX : ∀ s, X s → Blocked path i n m s)
    (hR : ∀ s t, X s → R s t → X t ∧ t.2 = s.2)
    (hown : ∀ g k k', X (g, k) → k.nextFile ≤ k'.nextFile → X (g, k'))
    (hG : ∀ op s k', X s → G op s (s.1, k')) (master : MasterKey) (hs : X s) :
    rg (party path i) calm R G (SecretStore.openStore path master)
      (fun r t => r = .err alreadyOpen ∧ X t) s := by
  refine rg_bind hself ((takeLock_blocked hX hR hown hG hs).imp fun r t ht => ?_)
  obtain ⟨rfl, ht⟩ := ht
  exact fun u hu => ⟨rfl, (hR t u ht hu).1⟩

structure Again (P : Primitives) (path : Bytes) (start : Option Bytes) (i : ι) (st : SecretStore)
    (f n m : Nat) (s : Shared ι × Own) : Prop where
  sound : Sound P path start s.1
  lock : st.lock = some f
  held : Holding i f s
  passed : s.1.passed i f n
  mine : Mine P path start st (effects s.1.history) (s.1.disk.stored path)
  below : f < m
  next : m ≤ s.2.nextFile

omit [DecidableEq ι] in
theorem Again.blocked {st : SecretStore} {n m : Nat} (h : Again P path start i st f n m s) :
    Blocked path i n m s := by
  obtain ⟨hlock, hdir⟩ := h.sound.held i f n h.passed
  refine ⟨hdir, ⟨i, f, hlock⟩, fun k l hp => ?_, fun l k hl => ?_, h.next⟩
  · rw [(h.sound.unique hp h.passed).2.1]
    exact h.below
  · rw [h.held.only l k hl]
    exact h.below

theorem openWith_rg {q : Operation} {h : List SecretStore} (master : MasterKey)
    (hq : q = .openWith master) (hidle : Idle P path start i h s) (hsound : Sound P path start s.1) :
    rg (party path i) calm (TrustOf P path start i)
      (KeepTrust P path start (Amid P path start i q h) i) (operate P path q h)
      (Finished P path start i q h) s := by
  subst hq
  show rg _ _ _ _ ((SecretStore.openStore path master).attempt >>= _) _ s
  refine rg_bind TrustOf.self (rg_attempt ?_)
  cases hidle with
  | free hfree =>
    have hno (s : Shared ι × Own) (hs : ∀ f n, ¬s.1.passed i f n) :
        Amid P path start i (.openWith master) [] s := by
      refine ⟨Nat.zero_le 1, nofun, ?_⟩
      rintro ⟨f, n, hp⟩
      exact absurd hp (hs f n)
    -- no lock is held: it is taken, or refused, and then given back on an error
    refine (openStore_free hno (fun s he => ⟨Nat.zero_le 1, nofun, fun _ => Or.inl he⟩) master
      hfree).imp fun r t hr => ?_
    rcases hr with ⟨st, f, rfl, hlock, hheld, hmine⟩ | ⟨e, rfl, hfree'⟩
    · show rg _ _ _ _ (pure (Answer.done (.ok ()), [st])) _ t
      refine idle_done (.holds hlock hheld hmine) ?_
      rfl
    · show rg _ _ _ _ (pure (Answer.done (.error e), [])) _ t
      refine idle_done (.free hfree') ?_
      rfl
  | @holds _ st f hlock hheld hmine =>
    obtain ⟨n, hn⟩ := hheld.passed
    -- this party holds a store already: its second handle is refused like anybody's
    have hagain : Again P path start i st f n s.2.nextFile s :=
      ⟨hsound, hlock, hheld, hn, hmine, hheld.next, Nat.le_refl _⟩
    refine (openStore_blocked TrustOf.self (fun s hs => hs.blocked) (fun s t hs ht => ?_)
      (fun g k k' hs hk => ?_) (fun op s k' hs => ?_) master hagain).imp fun r t hr => ?_
    · obtain ⟨hheld', hdisk, heffects, hown⟩ := hs.held.trust ht
      refine ⟨⟨ht.2.2, hs.lock, hheld', (ht.1.passed f n).mpr hs.passed, ?_, hs.below, ?_⟩, hown⟩
      · rw [hdisk, heffects]
        exact hs.mine
      · rw [hown]
        exact hs.next
    · exact ⟨hs.sound, hs.lock, ⟨hs.held.passed, hs.held.only, Nat.lt_of_lt_of_le hs.held.next hk⟩,
        hs.passed, hs.mine, hs.below, Nat.le_trans hs.next hk⟩
    · refine ⟨⟨Nat.le_refl 1, fun st' hst => ?_, fun _ => Or.inl hs.mine.explains⟩, hs.sound,
        fun j _ => Trust.refl j s.1⟩
      obtain rfl := List.mem_singleton.mp hst
      exact ⟨f, n, hs.lock, hs.passed⟩
    · obtain ⟨rfl, ht⟩ := hr
      show rg _ _ _ _ (pure (Answer.done (.error alreadyOpen), [st])) _ t
      refine idle_done (.holds ht.lock ht.held ht.mine) ?_
      rfl

/-! ## Working on the handle -/

omit [DecidableEq ι] in
theorem amid_of_holding {q : Operation} {st : SecretStore} (hlock : st.lock = some f)
    (hheld : Holding i f s)
    (hexplains : Explains P start (effects s.1.history) (s.1.disk.stored path) ∨
      Explains P start (effects s.1.history ++ [⟨i, q, [st], .done (.ok ())⟩])
        (s.1.disk.stored path)) : Amid P path start i q [st] s := by
  refine ⟨Nat.le_refl 1, fun st' hst => ?_, fun _ => hexplains⟩
  obtain rfl := List.mem_singleton.mp hst
  obtain ⟨n, hn⟩ := hheld.passed
  exact ⟨f, n, hlock, hn⟩

theorem change_rg {Good : SecretStore → Except Error Unit × SecretStore → Prop} {q : Operation} {st : SecretStore}
    {p : Action Bytes (Except Error Unit × SecretStore)} {Attempt : Contents → Prop}
    {Bad : Error → Prop} (hout : Outline path Good true p)
    (hspec : ∀ t : Log × Process Bytes ι, wp (kernel Bytes i).logged (calmly i) anyStep p
      (Changed (calmly i) st Attempt Bad t) t)
    (hyields : ∀ c₁ c, st.toContents.Same c₁ → Attempt c →
      Yields P c₁ (⟨i, q, [st], .done (.ok ())⟩ : Done ι) c)
    (hvalid : ∀ c, Attempt c → Valid c.entries)
    (heffect : Done.effective (⟨i, q, [st], .done (.ok ())⟩ : Done ι) = true)
    (hnone : ∀ e, Done.effective (⟨i, q, [st], .done (.error e)⟩ : Done ι) = false)
    (hq : ∀ k master, q ≠ .rotate k master) (hlock : st.lock = some f) (hheld : Holding i f s)
    (hmine : Mine P path start st (effects s.1.history) (s.1.disk.stored path))
    (hsound : Sound P path start s.1) :
    rg (party path i) calm (TrustOf P path start i)
      (KeepTrust P path start (Amid P path start i q [st]) i)
      (p >>= fun x => pure (Answer.done x.1, [x.2])) (Finished P path start i q [st]) s := by
  have hrun := live_rg (Amid P path start i q [st]) hout (hspec ([], view s))
    (fun u hu he hv => ?_) hheld hsound
  swap
  · refine amid_of_holding hlock hu ?_
    rw [he]
    rcases hv with hv | ⟨r, l, p', hchanged, hv⟩
    · rw [hv]
      exact Or.inl hmine.explains
    · rw [← hv]
      -- replaced already: explained with this operation at the end
      obtain ⟨a, st', -, -, ⟨-, h⟩ | ⟨-, h⟩⟩ := hchanged.mine hmine hyields hvalid
      · exact Or.inr h.explains
      · exact Or.inl h.explains
  refine rg_bind TrustOf.self (hrun.imp fun r t ht => ?_)
  obtain ⟨hheld', heffects, l, p', hchanged, hp⟩ := ht
  obtain ⟨a, st', rfl, hlock', hr⟩ := hchanged.mine hmine hyields hvalid
  show rg _ _ _ _ (pure (Answer.done a, [st'])) _ t
  have hstored : p'.disk.stored path = t.1.disk.stored path := by rw [hp.disk]
  dsimp only at hr
  rw [hstored, ← heffects] at hr
  intro u hu
  obtain ⟨hheld'', hdisk, heffects', -⟩ := hheld'.trust hu
  rw [← hdisk, ← heffects'] at hr
  rcases hr with ⟨rfl, h⟩ | ⟨⟨e, rfl⟩, h⟩
  · refine ⟨_, _, rfl, ?_, fun _ => ⟨f, hheld''.passed⟩, fun k master he => absurd he (hq k master)⟩
    refine .holds (hlock'.trans hlock) ⟨hheld''.passed, hheld''.only, hheld''.next⟩ ?_
    rw [effects_noted heffect]
    exact h
  · exact finished_idle (.holds (hlock'.trans hlock) hheld'' h) (hnone e)

theorem put_rg {st : SecretStore} (name : Str) (secret : SecretBuf) (hlock : st.lock = some f)
    (hheld : Holding i f s) (hmine : Mine P path start st (effects s.1.history) (s.1.disk.stored path))
    (hsound : Sound P path start s.1) :
    rg (party path i) calm (TrustOf P path start i)
      (KeepTrust P path start (Amid P path start i (.put 0 name secret) [st]) i)
      (operate P path (.put 0 name secret) [st]) (Finished P path start i (.put 0 name secret) [st])
      s := by
  obtain rfl := hmine.path
  have hout := put_outline P st name secret
  refine change_rg hout (put_wp P st name secret) (fun c₁ c hsame hc => .put rfl hsame hc) ?_ rfl
    (fun _ => rfl) nofun hlock hheld hmine hsound
  rintro c ⟨blob, hname, -, rfl⟩
  exact hmine.valid.insert hname blob

theorem delete_rg {st : SecretStore} (name : Str) (hlock : st.lock = some f)
    (hheld : Holding i f s) (hmine : Mine P path start st (effects s.1.history) (s.1.disk.stored path))
    (hsound : Sound P path start s.1) :
    rg (party path i) calm (TrustOf P path start i)
      (KeepTrust P path start (Amid P path start i (.delete 0 name) [st]) i)
      (operate P path (.delete 0 name) [st]) (Finished P path start i (.delete 0 name) [st]) s := by
  obtain rfl := hmine.path
  have hout := delete_outline st name
  refine change_rg hout (delete_wp st name) ?_ ?_ rfl (fun _ => rfl) nofun hlock hheld hmine hsound
  · rintro c₁ c hsame rfl
    exact .delete rfl hsame
  · rintro c rfl
    exact hmine.valid.erase name

theorem rotate_rg {st : SecretStore} (newMaster : MasterKey) (hlock : st.lock = some f)
    (hheld : Holding i f s) (hmine : Mine P path start st (effects s.1.history) (s.1.disk.stored path))
    (hsound : Sound P path start s.1) :
    rg (party path i) calm (TrustOf P path start i)
      (KeepTrust P path start (Amid P path start i (.rotate 0 newMaster) [st]) i)
      (operate P path (.rotate 0 newMaster) [st])
      (Finished P path start i (.rotate 0 newMaster) [st]) s := by
  obtain rfl := hmine.path
  have hout := rotateLocked_outline P hmine.valid newMaster
  have hspec : wp (kernel Bytes i).logged (calmly i) anyStep (st.rotateLocked P newMaster)
      (fun r t => Rotated P (calmly i) st newMaster ([], view s) r t) ([], view s) :=
    (rotateLocked_wp P hmine.valid newMaster ([], view s)).imp fun _ _ h => h.2
  have hyields (c₁ c : Contents) (hsame : st.toContents.Same c₁)
      (hc : RotateAttempt P st newMaster c) :
      Yields P c₁ (⟨i, .rotate 0 newMaster, [st], .done (.ok ())⟩ : Done ι) c := .rotate rfl hsame hc
  -- alone, `rotate` ends as `Rotated` says; so it does here, where it has the lock
  have hrun := live_rg (Amid P st.path start i (.rotate 0 newMaster) [st]) hout hspec
    (fun u hu he hv => ?_) hheld hsound
  swap
  · refine amid_of_holding hlock hu ?_
    rw [he]
    rcases hv with hv | ⟨r, l, p', hrotated, hv⟩
    · rw [hv]
      exact Or.inl hmine.explains
    · rw [← hv]
      rcases hrotated.mine hmine hyields with ⟨st', -, -, h⟩ | ⟨-, hsame⟩
      · exact Or.inr h.explains
      · rw [hsame]
        exact Or.inl hmine.explains
  show rg _ _ _ _ ((st.rotate P newMaster).attempt >>= _) _ s
  refine rg_bind TrustOf.self (rg_attempt (rg_andThen TrustOf.self (hrun.imp fun r t ht => ?_)))
  obtain ⟨hheld', heffects, l, p', hrotated, hp⟩ := ht
  have hstored : p'.disk.stored st.path = t.1.disk.stored st.path := by rw [hp.disk]
  rcases hrotated.mine hmine hyields with ⟨st', rfl, hlock', h⟩ | ⟨⟨e, rfl⟩, hsame⟩
  · -- The new handle has the lock.
    dsimp only at h
    rw [hstored, ← heffects] at h
    intro u hu
    obtain ⟨hheldu, hdisku, heffectsu, -⟩ := hheld'.trust hu
    show rg _ _ _ _ (pure (Answer.done (.ok ()), [st'])) _ u
    intro v hv
    obtain ⟨hheldv, hdiskv, heffectsv, -⟩ := hheldu.trust hv
    rw [← hdisku, ← hdiskv, ← heffectsu, ← heffectsv] at h
    refine ⟨.done (.ok ()), [st'], rfl, ?_, fun _ => ⟨f, hheldv.passed⟩, ?_⟩
    · refine .holds (hlock'.trans hlock) ⟨hheldv.passed, hheldv.only, hheldv.next⟩ ?_
      rw [effects_noted rfl]
      exact h
    · rintro k master ⟨⟩ -
      exact ⟨st, st', rfl, rfl, hlock'⟩
  · -- The lock goes with the old handle.
    have hexplains : Explains P start (effects t.1.history) (t.1.disk.stored st.path) := by
      rw [← hstored, hsame, heffects]
      exact hmine.explains
    dsimp only
    rw [hlock]
    intro u hu c _
    obtain ⟨hheldu, hdisku, heffectsu, -⟩ := hheld'.trust hu
    rw [← hdisku, ← heffectsu] at hexplains
    obtain ⟨hg, hfree⟩ := close_holding (Amid P st.path start i (.rotate 0 newMaster) [st])
      (amid_of_holding hlock hheldu (Or.inl hexplains)) hheldu hu.2.2 hexplains c
    refine ⟨hg, fun v hv => ?_⟩
    show rg _ _ _ _ (pure (Answer.done (.error e), [])) _ v
    refine idle_done (.free (hfree.trust hv)) ?_
    rfl

theorem drop_rg {st : SecretStore} (hlock : st.lock = some f) (hheld : Holding i f s)
    (hmine : Mine P path start st (effects s.1.history) (s.1.disk.stored path)) :
    rg (party path i) calm (TrustOf P path start i)
      (KeepTrust P path start (Amid P path start i (.drop 0) [st]) i)
      (operate P path (.drop 0) [st]) (Finished P path start i (.drop 0) [st]) s := by
  show rg _ _ _ _ (dropLock st.lock >>= _) _ s
  rw [hlock]
  intro u hu c _
  obtain ⟨hheld', hdisk, heffects, -⟩ := hheld.trust hu
  have hexplains := hmine.explains
  rw [← hdisk, ← heffects] at hexplains
  obtain ⟨hg, hfree⟩ := close_holding (Amid P path start i (.drop 0) [st])
    (amid_of_holding hlock hheld' (Or.inl hexplains)) hheld' hu.2.2 hexplains c
  refine ⟨hg, ?_⟩
  show rg _ _ _ _ (pure (Answer.done (.ok ()), [])) _ _
  refine idle_done (.free hfree) ?_
  rfl

/-- Every operation of a party, on any of the handles that it has. -/
theorem operate_rg {h : List SecretStore} (q : Operation) (hidle : Idle P path start i h s)
    (hsound : Sound P path start s.1) :
    rg (party path i) calm (TrustOf P path start i)
      (KeepTrust P path start (Amid P path start i q h) i) (operate P path q h)
      (Finished P path start i q h) s := by
  -- Where there is no handle of that place, nothing is done.
  have hnone (hp : operate P path q h = pure (Answer.noHandle, h)) :
      rg (party path i) calm (TrustOf P path start i)
        (KeepTrust P path start (Amid P path start i q h) i) (operate P path q h)
        (Finished P path start i q h) s := by
    rw [hp]
    refine idle_done hidle ?_
    cases q <;> rfl
  cases q with
  | openWith master => exact openWith_rg master rfl hidle hsound
  | put k name secret =>
    cases hidle with
    | free => exact hnone rfl
    | holds hlock hheld hmine =>
      cases k with
      | zero => exact put_rg name secret hlock hheld hmine hsound
      | succ k => exact hnone rfl
  | delete k name =>
    cases hidle with
    | free => exact hnone rfl
    | holds hlock hheld hmine =>
      cases k with
      | zero => exact delete_rg name hlock hheld hmine hsound
      | succ k => exact hnone rfl
  | rotate k newMaster =>
    cases hidle with
    | free => exact hnone rfl
    | holds hlock hheld hmine =>
      cases k with
      | zero => exact rotate_rg newMaster hlock hheld hmine hsound
      | succ k => exact hnone rfl
  | drop k =>
    cases hidle with
    | free => exact hnone rfl
    | holds hlock hheld hmine =>
      cases k with
      | zero => exact drop_rg hlock hheld hmine
      | succ k => exact hnone rfl

/-- What every party keeps, and may rely on the others to keep. -/
theorem discipline : (parties P path : Parties ι _ _ _ _ _ _ _).Discipline Trust
    (Sound P path start) (Idle P path start) (Amid P path start) (Finished P path start) where
  refl i g := Trust.refl i g
  trans i := Trust.trans i
  idle i h g g' k hidle ht hsound := hidle.trust ⟨ht, rfl, hsound⟩
  start i q h g k hsound hidle := operate_rg q hidle hsound
  answer i q h a h' g k hsound hpost := by
    obtain ⟨a', h'', he, hanswered⟩ := hpost
    obtain ⟨rfl, rfl⟩ := Prod.mk.inj (Outcome.ok.inj he)
    refine ⟨⟨hsound.held, fun hno => ?_⟩, fun j hj => ?_, hanswered.idle⟩
    · cases heffect : Done.effective (⟨i, q, h, a⟩ : Done ι) with
      | true =>
        obtain ⟨f, n, hp⟩ := hanswered.passed heffect
        exact absurd hp (hno i f n)
      | false =>
        show Explains P start (effects (noted i q h a g).history) (g.disk.stored path)
        rw [effects_noted_of_not heffect]
        exact hsound.rest hno
    · refine ⟨fun _ _ => Iff.rfl, fun _ _ => Iff.rfl, fun f n hp => ⟨rfl, ?_⟩⟩
      cases heffect : Done.effective (⟨i, q, h, a⟩ : Done ι) with
      | true =>
        obtain ⟨k, m, hp'⟩ := hanswered.passed heffect
        exact absurd (hsound.unique hp hp').1 hj
      | false => exact effects_noted_of_not heffect
  outside g g' hsound hg := by
    have hmoved (d : Disk Bytes) (hd : d.stored path = g.disk.stored path)
        (hno : ∀ i f n, ¬g.passed i f n) :
        Sound P path start { g with disk := d } ∧ ∀ i, Trust i g { g with disk := d } := by
      refine ⟨⟨fun i f n hp => absurd hp (hno i f n), fun _ => ?_⟩, fun i => ?_⟩
      · show Explains P start (effects g.history) (d.stored path)
        rw [hd]
        exact hsound.rest hno
      · exact Trust.of_alone (fun _ _ => Iff.rfl) (fun _ _ => Iff.rfl) (hno i)
    cases hg with
    | deletes hno => exact hmoved _ (g.disk.stored_remove_of_ne (lockPath_ne path).symm) hno
    | creates mode hno => exact hmoved _ (g.disk.stored_create_of_ne (lockPath_ne path).symm mode) hno
    | links inode hinode hno =>
      exact hmoved _ (g.disk.stored_update_of_not_touches _ (lockPath_ne path)) hno

end Exclusion
end Krypto.Store
