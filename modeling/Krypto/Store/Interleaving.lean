import Krypto.Store.Exclusion
import Krypto.Store.Failure

/-! Any number of parties on one store, step by step in any order: there is one
live handle at most, and no update is lost. -/

namespace Krypto.Store
open Effect

section Interleaving
variable {ι : Type} [DecidableEq ι] {P : Primitives} {path : Bytes} {start : Option Bytes}

abbrev InOrder (P : Primitives) (path : Bytes) (start : Option Bytes) : StoreWorld ι → Prop :=
  (parties P path).Disciplined Trust (Sound P path start) (Idle P path start) (Amid P path start)
    (Finished P path start)

theorem inOrder_start {w : StoreWorld ι} (h : Starts w) :
    InOrder P path (w.shared.disk.stored path) w where
  shared := by
    refine ⟨fun i f n hp => absurd hp (h.passed i f n), fun _ => ?_⟩
    rw [h.history]
    exact .untouched
  party i := by
    rw [h.status i]
    refine .free ⟨h.passed i, fun n f hl => ?_⟩
    rw [h.locks n] at hl
    cases hl

theorem inOrder_of_runs {w₀ w : StoreWorld ι} (h : Starts w₀) (hrun : (parties P path).Runs w₀ w) :
    InOrder P path (w₀.shared.disk.stored path) w := discipline.runs (inOrder_start h) hrun

/-! ## Live handles -/

theorem live_locked {w : StoreWorld ι} (hw : InOrder P path start w) (i : ι) :
    (handles (w.status i)).length ≤ 1 ∧
      ∀ st ∈ handles (w.status i), ∃ f n, st.lock = some f ∧ w.shared.passed i f n := by
  have hidle {h : List SecretStore} {s : Shared ι × Own} (hs : Idle P path start i h s) :
      h.length ≤ 1 ∧ ∀ st ∈ h, ∃ f n, st.lock = some f ∧ s.1.passed i f n := by
    cases hs with
    | free => exact ⟨Nat.zero_le 1, nofun⟩
    | @holds _ st f hlock hheld =>
      refine ⟨Nat.le_refl 1, fun st' hst => ?_⟩
      obtain rfl := List.mem_singleton.mp hst
      obtain ⟨n, hn⟩ := hheld.passed
      exact ⟨f, n, hlock, hn⟩
  cases hst : w.status i with
  | idle h =>
    have hi := hw.party i
    rw [hst] at hi
    exact hidle hi
  | running q h p =>
    rcases hw.mid discipline (fun _ => calm_total) hst with ⟨op, next, rfl, hamid⟩ | ⟨r, rfl, hdone⟩
    · exact ⟨hamid.length, hamid.locked⟩
    · obtain ⟨a, h', rfl, hanswered⟩ := hdone
      exact hidle hanswered.idle

theorem live_unique {w : StoreWorld ι} (hw : InOrder P path start w) {i j : ι}
    {st st' : SecretStore} (hi : st ∈ handles (w.status i)) (hj : st' ∈ handles (w.status j)) :
    i = j ∧ st = st' := by
  obtain ⟨hlen, hlocked⟩ := live_locked hw i
  obtain ⟨f, n, -, hp⟩ := hlocked st hi
  obtain ⟨f', n', -, hp'⟩ := (live_locked hw j).2 st' hj
  obtain ⟨rfl, -, -⟩ := hw.shared.unique hp hp'
  refine ⟨rfl, ?_⟩
  generalize handles (w.status i) = l at hlen hi hj
  match l, hlen, hi, hj with
  | [x], _, hi, hj => exact (List.mem_singleton.mp hi).trans (List.mem_singleton.mp hj).symm

theorem passed_kept {w w' : StoreWorld ι} {who : Option ι} {j : ι} {f n n' : Nat}
    (hw : InOrder P path start w) (hw' : InOrder P path start w')
    (hstep : (parties P path).Step who w w') (h : w.shared.passed j f n)
    (h' : w'.shared.passed j f n') : w'.shared.passed j f n := by
  have hothers := (discipline.step hw hstep).2 j
  cases hstep with
  | begins => exact h
  | answers => exact h
  | outside hg => exact ((hothers nofun).passed f n).mpr h
  | @call _ i q hs op next c hc hrun =>
    by_cases hj : some i = some j
    · obtain rfl := Option.some.inj hj
      by_cases hop : op = .stat (lockPath path)
      · subst hop
        have hr (r : (Call.stat (lockPath path)).Reply) :
            passedAfter path i (w.shared, w.own i) (.stat (lockPath path)) r i f n := by
          cases r with
          | error e => exact h
          | ok x => exact Or.inl h
        exact hr _
      · obtain ⟨hold, hne⟩ := (passed_step hop c i f n').mp h'
        exact (passed_step hop c i f n).mpr ⟨h, hne⟩
    · exact ((hothers hj).passed f n).mpr h

/-- Opening a store, from begin to end while a handle is alive, is refused. -/
theorem open_refused {w w' : StoreWorld ι} {i j : ι} {f : Nat} {master : MasterKey}
    {h : List SecretStore} {r : Outcome Error (Answer × List SecretStore)}
    (hw : InOrder P path start w) (hidle : w.status i = .idle h)
    (hbegun : ∃ st ∈ handles ((Function.update w.status i (.running (.openWith master) h
      (operate P path (.openWith master) h))) j), st.lock = some f)
    (hin : (parties P path).Within (fun w => ∃ st ∈ handles (w.status j), st.lock = some f) i
      { w with status := Function.update w.status i (.running (.openWith master) h
        (operate P path (.openWith master) h)) } w')
    (hend : w'.status i = .running (.openWith master) h (.done r)) :
    r = .ok (.done (.error alreadyOpen), h) := by
  have hown := hw.party i
  rw [hidle] at hown
  have hbegin : InOrder P path start
      { w with status := Function.update w.status i (.running (.openWith master) h
        (operate P path (.openWith master) h)) } :=
    (discipline.step hw (.begins (.openWith master) hidle)).1
  have hlive {w : StoreWorld ι} (hw : InOrder P path start w)
      (h : ∃ st ∈ handles (w.status j), st.lock = some f) : ∃ n, w.shared.passed j f n := by
    obtain ⟨st, hst, hlock⟩ := h
    obtain ⟨f', n, hlock', hp⟩ := (live_locked hw j).2 st hst
    obtain rfl := Option.some.inj (hlock.symm.trans hlock')
    exact ⟨n, hp⟩
  obtain ⟨n, hn⟩ := hlive hbegin hbegun
  -- The files of the party that hold locks were there before it began.
  have hbelow : (∀ f k, w.shared.passed i f k → f < (w.own i).nextFile) ∧
      ∀ k f, w.shared.locks k = some (i, f) → f < (w.own i).nextFile := by
    cases hown with
    | free hfree => exact ⟨fun f k hp => absurd hp (hfree.passed f k),
        fun k f hl => absurd hl (hfree.locks k f)⟩
    | @holds _ st g hlock hheld =>
      obtain ⟨m, hm⟩ := hheld.passed
      refine ⟨fun f k hp => ?_, fun k f hl => ?_⟩
      · rw [(hw.shared.unique hp hm).2.1]
        exact hheld.next
      · rw [hheld.only k f hl]
        exact hheld.next
  -- what the steps keep while `j` has its lock: `i` can neither have it nor get it
  let X : Shared ι × Own → Prop := fun s => Sound P path start s.1 ∧ s.1.passed j f n ∧
    (∀ f k, s.1.passed i f k → f < (w.own i).nextFile) ∧
    (∀ k f, s.1.locks k = some (i, f) → f < (w.own i).nextFile) ∧
    (w.own i).nextFile ≤ s.2.nextFile
  let R : Shared ι × Own → Shared ι × Own → Prop := fun s t =>
    TrustOf P path start i s t ∧ t.1.passed j f n
  have hrun : rg (party path i) calm R (fun _ _ _ => True)
      (operate P path (.openWith master) h) (fun r _ => r = .ok (.done (.error alreadyOpen), h))
      (w.shared, w.own i) := by
    have hself {a b : Shared ι × Own} (hab : R a b) : R b b := ⟨hab.1.self, hab.2⟩
    -- the open alone, among others that leave `j` its lock
    have hopen : rg (party path i) calm R (fun _ _ _ => True)
        (SecretStore.openStore path master) (fun r t => r = .err alreadyOpen ∧ X t)
        (w.shared, w.own i) := by
      have hX : X (w.shared, w.own i) := ⟨hw.shared, hn, hbelow.1, hbelow.2, Nat.le_refl _⟩
      refine openStore_blocked (R := R) (G := fun _ _ _ => True) (n := n) (m := (w.own i).nextFile)
        hself (fun s hs => ?_) (fun s t hs ht => ?_) (fun g k k' hs hk => ?_)
        (fun _ _ _ _ => trivial) master hX
      · obtain ⟨hsound, hp, hpassed, hlocks, hnext⟩ := hs
        obtain ⟨hl, hd⟩ := hsound.held j f n hp
        exact ⟨hd, ⟨j, f, hl⟩, hpassed, hlocks, hnext⟩
      · obtain ⟨-, -, hpassed, hlocks, hnext⟩ := hs
        refine ⟨⟨ht.1.2.2, ht.2, fun f k hp => hpassed f k ((ht.1.1.passed f k).mp hp),
          fun k f hl => hlocks k f ((ht.1.1.locks k f).mp hl), ?_⟩, ht.1.2.1⟩
        rw [ht.1.2.1]
        exact hnext
      · obtain ⟨hsound, hp, hpassed, hlocks, hnext⟩ := hs
        exact ⟨hsound, hp, hpassed, hlocks, Nat.le_trans hnext hk⟩
    show rg _ _ _ _ ((SecretStore.openStore path master).attempt >>= _) _ _
    refine rg_bind hself (rg_attempt (hopen.imp fun r t ht => ?_))
    obtain ⟨rfl, -⟩ := ht
    exact fun _ _ => rfl
  obtain ⟨hw', -, hn', p', hst', hrun'⟩ := discipline.within
    (I := fun g => g.passed j f n) hbegin hbegun hn (fun a b who ha hb hstep _ hKb hp => by
      obtain ⟨n', hn'⟩ := hlive hb hKb
      exact passed_kept ha hb hstep hp hn') (Function.update_self _ _ _) hrun hin
  rw [hend] at hst'
  cases hst'
  exact hrun' _ ⟨⟨Trust.refl i _, rfl, hw'.shared⟩, hn'⟩

/-! ## What is stored -/

/-- At any moment what is stored is explained by what was answered, or by that and the request
that is under way. -/
theorem stored_explained {w : StoreWorld ι} (hw : InOrder P path start w) :
    Explains P start (effects w.shared.history) (w.shared.disk.stored path) ∨
      ∃ i q h p, w.status i = .running q h p ∧ Explains P start
        (effects w.shared.history ++ [⟨i, q, h, .done (.ok ())⟩]) (w.shared.disk.stored path) := by
  -- nobody holds the lock: the file is as the last change left it
  by_cases hno : ∀ i f n, ¬w.shared.passed i f n
  · exact Or.inl (hw.shared.rest hno)
  push Not at hno
  obtain ⟨i, f, n, hp⟩ := hno
  cases hst : w.status i with
  | idle h =>
    have hi := hw.party i
    rw [hst] at hi
    cases hi with
    | free hfree => exact absurd hp (hfree.passed f n)
    | holds hlock hheld hmine => exact Or.inl hmine.explains
  | running q h p =>
    -- the holder is in the middle of `q`: the file is the one before it or after it
    rcases hw.mid discipline (fun _ => calm_total) hst with ⟨op, next, rfl, hamid⟩ | ⟨r, rfl, hdone⟩
    · rcases hamid.explains ⟨f, n, hp⟩ with he | he
      · exact Or.inl he
      · exact Or.inr ⟨i, q, h, _, hst, he⟩
    · obtain ⟨a, h', rfl, hanswered⟩ := hdone
      have hidle := hanswered.idle
      generalize hg : (noted i q h a w.shared, w.own i) = s at hidle
      cases hidle with
      | free hfree =>
        subst hg
        exact absurd hp (hfree.passed f n)
      | holds hlock hheld hmine =>
        subst hg
        have hexplains := hmine.explains
        cases heffect : Done.effective (⟨i, q, h, a⟩ : Done ι) with
        | false =>
          rw [effects_noted_of_not heffect] at hexplains
          exact Or.inl hexplains
        | true =>
          rw [effects_noted heffect] at hexplains
          have ha : a = .done (.ok ()) := by
            unfold Done.effective at heffect
            split at heffect <;> first | assumption | cases heffect
          subst ha
          exact Or.inr ⟨i, q, h, _, hst, hexplains⟩

theorem history_in_order {w₀ w : StoreWorld ι} (h : Starts w₀) (hrun : (parties P path).Runs w₀ w)
    (i : ι) : (w.shared.history.filter fun e => e.party = i).map
      (fun e => (e.operation, e.answer)) = w.answered i := by
  induction hrun with
  | refl =>
    rw [h.history, h.answered i]
    rfl
  | @tail b _ _ hstep ih =>
    obtain ⟨who, hstep⟩ := hstep
    cases hstep with
    | begins => exact ih
    | call => exact ih
    | outside hg => cases hg <;> exact ih
    | @answers _ j q hs a h' hdone =>
      show ((b.shared.history ++ ([⟨j, q, hs, a⟩] : List (Done ι))).filter _).map _ =
        Function.update b.answered j (b.answered j ++ [(q, a)]) i
      rw [List.filter_append, List.map_append, ih]
      by_cases hj : j = i
      · subst hj
        rw [Function.update_self, List.filter_cons_of_pos (by simp)]
        rfl
      · rw [Function.update_of_ne (Ne.symm hj), List.filter_cons_of_neg (by simpa using hj)]
        exact List.append_nil _

structure LosesNothing (P : Primitives) (path : Bytes) (start : Option Bytes) (w : StoreWorld ι) :
    Prop where
  /-- There is one live handle at most, and it has the lock of the lock file. -/
  one : ∀ i j st st', st ∈ handles (w.status i) → st' ∈ handles (w.status j) → i = j ∧ st = st'
  once : ∀ i, (handles (w.status i)).length ≤ 1
  locked : ∀ i, ∀ st ∈ handles (w.status i), ∃ f n, st.lock = some f ∧ w.shared.passed i f n ∧
    w.shared.locks n = some (i, f) ∧ w.shared.disk.dir (lockPath path) = some n
  /-- A rotation that succeeds hands that lock to the new handle. -/
  rotated : ∀ i k master h h',
    w.status i = .running (.rotate k master) h (.done (.ok (.done (.ok ()), h'))) →
    ∃ st st', h[k]? = some st ∧ h'[k]? = some st' ∧ st'.lock = st.lock
  /-- An `open` that begins here and ends while some handle keeps its lock returns no handle. -/
  refused : ∀ i j f master h r (w' : StoreWorld ι), w.status i = .idle h →
    (∃ st ∈ handles ((Function.update w.status i (.running (.openWith master) h
      (operate P path (.openWith master) h))) j), st.lock = some f) →
    (parties P path).Within (fun w => ∃ st ∈ handles (w.status j), st.lock = some f) i
      { w with status := Function.update w.status i (.running (.openWith master) h
        (operate P path (.openWith master) h)) } w' →
    w'.status i = .running (.openWith master) h (.done r) →
    r = .ok (.done (.error alreadyOpen), h)
  /-- What is stored is what the successful operations make of it in one order, with the operation
  under way if its file is there already. -/
  explained : Explains P start (effects w.shared.history) (w.shared.disk.stored path) ∨
    ∃ i q h p, w.status i = .running q h p ∧ Explains P start
      (effects w.shared.history ++ [⟨i, q, h, .done (.ok ())⟩]) (w.shared.disk.stored path)
  /-- Between the operations it is that order alone. -/
  settled : (∀ i, ∃ h, w.status i = .idle h) →
    Explains P start (effects w.shared.history) (w.shared.disk.stored path)
  /-- The order respects that of each party. -/
  ordered : ∀ i, (w.shared.history.filter fun e => e.party = i).map
    (fun e => (e.operation, e.answer)) = w.answered i

/-- Whatever the parties do in whatever order, there is one live handle at most, and no update is
lost. -/
theorem parties_lose_nothing {w₀ w : StoreWorld ι} (hstart : Starts w₀)
    (hrun : (parties P path).Runs w₀ w) :
    LosesNothing P path (w₀.shared.disk.stored path) w := by
  have hw : InOrder P path (w₀.shared.disk.stored path) w := inOrder_of_runs hstart hrun
  refine ⟨fun i j st st' => live_unique hw, fun i => (live_locked hw i).1, fun i st hst => ?_,
    fun i k master h h' hst => ?_, fun i j f master h r w' => open_refused hw, stored_explained hw,
    fun hidle => ?_, history_in_order hstart hrun⟩
  · obtain ⟨f, n, hlock, hp⟩ := (live_locked hw i).2 st hst
    exact ⟨f, n, hlock, hp, hw.shared.held i f n hp⟩
  · rcases hw.mid discipline (fun _ => calm_total) hst with ⟨op, next, he, -⟩ | ⟨r, he, hdone⟩
    · cases he
    · obtain rfl := Prog.done.inj he
      obtain ⟨a, h'', he, hanswered⟩ := hdone
      obtain ⟨rfl, rfl⟩ := Prod.mk.inj (Outcome.ok.inj he)
      exact hanswered.rotated k master rfl rfl
  · rcases stored_explained hw with he | ⟨i, q, h, p, hst, -⟩
    · exact he
    · obtain ⟨h', hidle⟩ := hidle i
      rw [hst] at hidle
      cases hidle

end Interleaving

/-! ## Two parties -/

def sampleStart : StoreWorld Bool where
  shared := { disk := .empty, locks := fun _ => none, passed := fun _ _ _ => False, history := [] }
  own _ := { files := fun _ => none, nextFile := 0 }
  status _ := .idle []
  answered _ := []

def sampleTurns : List (Bool × Option Operation) :=
  (true, some (.openWith sampleKey)) :: List.replicate 20 (true, none) ++
    (true, some (.put 0 ['a'] [5])) :: List.replicate 3 (true, none) ++
    (false, some (.openWith sampleKey)) :: List.replicate 5 (false, none) ++
    List.replicate 12 (true, none)

def sampleEnd : StoreWorld Bool :=
  (parties sampleCiphers samplePath).advance (fun _ => failing fun _ => false) sampleTurns sampleStart

theorem calm_failing (op : Call Bytes) : calm op (failing (fun _ => false) op) := by
  cases op <;> first | rfl | trivial

theorem parties_lose_nothing_sample :
    sampleEnd.answered true = [(.openWith sampleKey, .done (.ok ())), (.put 0 ['a'] [5], .done (.ok ()))] ∧
    sampleEnd.answered false = [(.openWith sampleKey, .done (.error alreadyOpen))] ∧
    LosesNothing sampleCiphers samplePath none sampleEnd := by
  have hrun : (parties sampleCiphers samplePath).Runs sampleStart sampleEnd :=
    Parties.runs_advance (fun _ => calm_failing) sampleTurns sampleStart
  refine ⟨by decide +kernel, by decide +kernel, ?_⟩
  exact parties_lose_nothing ⟨fun _ => rfl, fun _ => rfl, fun _ _ _ h => h, rfl, fun _ => rfl⟩ hrun

end Krypto.Store
