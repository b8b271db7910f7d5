import Krypto.Python.Ownership
import Krypto.Store.Descriptors
import Krypto.Store.Failure

/-! Whole runs of Python code: every call on the objects is the crate's on their values, no
pointer is ever left behind, and nothing outlives the last reference to it. -/

namespace Krypto.Python
open Effect Store

/-! ### Each call -/

namespace Interpreter
variable {pre : Interpreter → Prop} {α β : Type} {r s m : Ref}

def Lasts (pre : Interpreter → Prop) : Prop := ∀ x y, pre x → Grows x y → pre y

theorem Acts.next {p : Py Interpreter α} {q : Py Values α} {f : α → Py Interpreter β} {g : α → Py Values β}
    (hp : Acts pre p q) (hpre : Lasts pre) (hf : ∀ a, Acts pre (f a) (g a)) : Acts pre (p >>= f) (q >>= g) :=
  hp.bind Grows.trans hpre hf

theorem acts_return (a : α) : Acts pre (pure a) (pure a) := represents_pure Grows.refl a

theorem acts_crate (p : Action Bytes α) : Acts pre (crate p) (crate p) := represents_run Grows.refl err p

theorem acts_done (r : Except Exception α) : Acts pre (Stateful.ofExcept r) (Stateful.ofExcept r) :=
  represents_done Grows.refl r

theorem lasts_held (refs : List Ref) : Lasts fun x => ∀ r ∈ refs, r ∈ x.held :=
  fun _ _ h hgrows r hr => hgrows.held r (h r hr)

/-- A master key is read, and stays where it was read. -/
theorem masterKey_next (hr : ∀ x, pre x → r ∈ x.held) {f : MasterKey → Py Interpreter β} {g : MasterKey → Py Values β}
    (hf : ∀ k, Acts (fun x => pre x ∧ x.masterAt r = some k) (f k) (g k)) :
    Acts pre (Objects.masterKey r >>= f) (Objects.masterKey r >>= g) := by
  intro x hx hpre
  obtain ⟨o, v, hget, hv, hobj⟩ := hx.object (hr x hpre)
  have hread : read Object.asMasterKey r x = .done (.ok (o.asMasterKey, x)) := by rw [read, hget]
  have hread' : Values.read Object.asMasterKey r x.values = .done (.ok (o.asMasterKey, x.values)) := by
    rw [Values.read, hobj, ← asMasterKey_valued _ o v hv]
  show (Values.read Object.asMasterKey r >>= g) _ = Prog.viewed _ ((read Object.asMasterKey r >>= f) x) ∧
    Quiet _ _ ((read Object.asMasterKey r >>= f) x) _
  cases o with
  | masterKey k =>
    rw [Stateful.bind_of_ok (show read Object.asMasterKey r x = .done (.ok (.ok k, x)) from hread),
      Stateful.bind_of_ok (show Values.read Object.asMasterKey r x.values = .done (.ok (.ok k, x.values)) from hread')]
    exact hf k x hx ⟨hpre, masterAt_eq_some.mpr hget⟩
  | _ =>
    rw [Stateful.bind_of_error hread, Stateful.bind_of_error hread']
    exact ⟨rfl, hx, Grows.refl x⟩

theorem newBuf_acts (b : Krypto.SecretBuf) : Acts pre (Objects.newBuf b) (Objects.newBuf b) :=
  new_acts rfl fun _ => rfl

theorem buf_acts (hr : ∀ x, pre x → r ∈ x.held) : Acts pre (Objects.buf r) (Objects.buf r) :=
  read_acts hr asBuf_valued

theorem derivedKey_acts (hr : ∀ x, pre x → r ∈ x.held) : Acts pre (Objects.derivedKey r) (Objects.derivedKey r) :=
  read_acts hr asDerivedKey_valued

theorem argBuf_acts (hr : ∀ x, pre x → r ∈ x.held) : Acts pre (Objects.argBuf r) (Objects.argBuf r) :=
  read_acts hr asBufArg_valued

theorem takeBuf_acts (hr : ∀ x, pre x → r ∈ x.held) : Acts pre (Objects.takeBuf r) (Objects.takeBuf r) := by
  refine take_acts hr asBuf_valued ?_ fun b => ⟨rfl, fun k h => (by cases h), fun _ => rfl⟩
  intro o b h
  cases o with
  | secretBuf inner => exact ⟨rfl, fun k h => by cases h⟩
  | _ => cases h

theorem takeBytes_acts (hr : ∀ x, pre x → r ∈ x.held) : Acts pre (Objects.takeBytes r) (Objects.takeBytes r) := by
  refine take_acts hr asBytes_valued ?_ fun b => ⟨rfl, fun k h => (by cases h), fun _ => rfl⟩
  intro o b h
  cases o with
  | byteArray data => exact ⟨rfl, fun k h => by cases h⟩
  | _ => cases h

variable (P : Primitives) (hmac : (key : Fixed 32) → (data : Bytes) → Fixed 32)

theorem openStore_acts (hpre : Lasts pre) (hr : ∀ x, pre x → m ∈ x.held) (path : Bytes) :
    Acts pre (SecretStore.openStore path m) (SecretStore.openStore path m) := by
  refine masterKey_next hr fun k => ?_
  refine represents_run_bind Grows.refl (openStore_yields path k) fun st hst => ?_
  refine (newStore_acts fun x hx => ?_).next (fun x y hx hgrows => ⟨hpre x y hx.1 hgrows, hgrows.master m k hx.2⟩)
    fun r => acts_return _
  rw [hst]
  exact hx.2

theorem rotate_acts (hpre : Lasts pre) (hs : ∀ x, pre x → s ∈ x.held) (hr : ∀ x, pre x → m ∈ x.held) :
    Acts pre (SecretStore.rotate P s m) (SecretStore.rotate P s m) := by
  refine masterKey_next hr fun k => ?_
  have hlasts : Lasts fun x => pre x ∧ x.masterAt m = some k :=
    fun x y hx hgrows => ⟨hpre x y hx.1 hgrows, hgrows.master m k hx.2⟩
  refine Acts.next (takeStore_acts fun x hx => hs x hx.1) hlasts fun old => ?_
  refine represents_run_bind Grows.refl (rotate_yields P old k) fun st hst => ?_
  refine (newStore_acts fun x hx => ?_).next hlasts fun r => acts_return _
  rw [hst]
  exact hx.2

theorem changed_acts (hpre : Lasts pre) (hs : ∀ x, pre x → s ∈ x.held)
    (p : Action Bytes (Except Error Unit × Krypto.SecretStore)) :
    Acts pre (do
        let (r, st') ← crate p
        Objects.setEntries s st'.entries
        Stateful.ofExcept (r.mapError err)
        return Result.none)
      (do
        let (r, st') ← crate p
        Objects.setEntries s st'.entries
        Stateful.ofExcept (r.mapError err)
        return Result.none) := by
  refine (acts_crate p).next hpre fun a => ?_
  refine (setEntries_acts hs a.2.entries).next hpre fun _ => ?_
  exact (acts_done (a.1.mapError err)).next hpre fun _ => acts_return _

/-- A statement other than `del` is the same on the objects and on what they stand for. -/
theorem exec_acts (q : Statement) (hq : ∀ r, q ≠ .del r) :
    Acts (Statement.Allowed · q) (q.exec P hmac) (q.exec P hmac) := by
  have hpre : Lasts (Statement.Allowed · q) := lasts_held q.refs
  have hone {r : Ref} (hr : r ∈ q.refs) (x : Interpreter) (hx : Statement.Allowed x q) : r ∈ x.held := hx r hr
  cases q with
  | byteArray data => exact (new_acts rfl fun _ => rfl).next hpre fun r => acts_return _
  | share r => exact (share_acts (hone (List.mem_singleton_self r))).next hpre fun _ => acts_return _
  | del r => exact absurd rfl (hq r)
  | fromVec v =>
    cases v with
    | bytes b => exact (acts_crate _).next hpre fun b => (newBuf_acts b).next hpre fun r => acts_return _
    | byteArray r =>
      refine (takeBytes_acts (hone (List.mem_singleton_self r))).next hpre fun data => ?_
      exact (acts_crate _).next hpre fun b => (newBuf_acts b).next hpre fun r => acts_return _
  | randomWithLimit n limit =>
    exact (acts_crate _).next hpre fun b => (newBuf_acts b).next hpre fun r => acts_return _
  | random n => exact (acts_crate _).next hpre fun b => (newBuf_acts b).next hpre fun r => acts_return _
  | len r => exact (buf_acts (hone (List.mem_singleton_self r))).next hpre fun _ => acts_return _
  | isEmpty r => exact (buf_acts (hone (List.mem_singleton_self r))).next hpre fun _ => acts_return _
  | expose r => exact (buf_acts (hone (List.mem_singleton_self r))).next hpre fun _ => acts_return _
  | fromSecretFile path =>
    exact (acts_crate _).next hpre fun k => Acts.next (new_acts rfl fun _ => rfl) hpre fun r => acts_return _
  | fromBytes r =>
    refine (takeBuf_acts (hone (List.mem_singleton_self r))).next hpre fun b => ?_
    exact (acts_crate _).next hpre fun k => Acts.next (new_acts rfl fun _ => rfl) hpre fun r => acts_return _
  | derive r info salt =>
    refine Acts.next (read_acts (hone (List.mem_singleton_self r)) asMasterKey_valued) hpre fun k => ?_
    exact (acts_crate _).next hpre fun dk => Acts.next (new_acts rfl fun _ => rfl) hpre fun r => acts_return _
  | keyId r =>
    refine Acts.next (read_acts (hone (List.mem_singleton_self r)) asMasterKey_valued) hpre fun k => ?_
    exact (acts_crate _).next hpre fun _ => acts_return _
  | hmacSha256 r data =>
    refine (derivedKey_acts (hone (List.mem_singleton_self r))).next hpre fun dk => ?_
    exact (acts_crate _).next hpre fun _ => acts_return _
  | sealCall key kid plaintext alg =>
    refine (derivedKey_acts (hone List.mem_cons_self)).next hpre fun dk => ?_
    refine (argBuf_acts (hone (List.mem_cons_of_mem _ (List.mem_singleton_self plaintext)))).next hpre fun _ => ?_
    refine (acts_done _).next hpre fun kid => ?_
    refine (buf_acts (hone (List.mem_cons_of_mem _ (List.mem_singleton_self plaintext)))).next hpre fun pt => ?_
    exact (acts_crate _).next hpre fun _ => acts_return _
  | openCall key blob =>
    refine (derivedKey_acts (hone (List.mem_singleton_self key))).next hpre fun dk => ?_
    exact (acts_crate _).next hpre fun b => (newBuf_acts b).next hpre fun r => acts_return _
  | reseal old new newKeyId blob =>
    refine (derivedKey_acts (hone List.mem_cons_self)).next hpre fun oldKey => ?_
    refine (derivedKey_acts (hone (List.mem_cons_of_mem _ (List.mem_singleton_self new)))).next hpre fun newKey => ?_
    refine (acts_done _).next hpre fun kid => ?_
    exact (acts_crate _).next hpre fun _ => acts_return _
  | blobKeyId blob => exact (acts_crate _).next hpre fun _ => acts_return _
  | openStore path r => exact openStore_acts hpre (hone (List.mem_singleton_self r)) path
  | put s name secret =>
    have hs := hone (r := s) List.mem_cons_self
    have hsecret := hone (r := secret) (List.mem_cons_of_mem _ (List.mem_singleton_self secret))
    refine (argBuf_acts hsecret).next hpre fun _ => (store_acts hs).next hpre fun st => ?_
    exact (buf_acts hsecret).next hpre fun b => changed_acts hpre hs _
  | get s name =>
    refine (store_acts (hone (List.mem_singleton_self s))).next hpre fun st => ?_
    exact (acts_crate _).next hpre fun b => (newBuf_acts b).next hpre fun r => acts_return _
  | delete s name =>
    have hs := hone (r := s) (List.mem_singleton_self s)
    exact (store_acts hs).next hpre fun st => changed_acts hpre hs _
  | contains s name => exact (store_acts (hone (List.mem_singleton_self s))).next hpre fun st => acts_return _
  | list s start => exact (store_acts (hone (List.mem_singleton_self s))).next hpre fun st => acts_return _
  | rotate s m =>
    exact rotate_acts P hpre (hone List.mem_cons_self) (hone (List.mem_cons_of_mem _ (List.mem_singleton_self m)))

theorem exec_represents (q : Statement) :
    Represents (Counted 0) (fun _ _ => True) values (Statement.Allowed · q) (q.exec P hmac) (q.exec P hmac) := by
  by_cases hdel : ∃ r, q = .del r
  · obtain ⟨r, rfl⟩ := hdel
    refine (del_acts fun x hx => hx r (List.mem_singleton_self r)).bind (fun _ _ _ _ _ => trivial)
      (fun _ _ _ _ => (trivial : (fun _ => True) _)) fun _ => represents_pure (fun _ => trivial) _
  · exact (exec_acts P hmac q fun r h => hdel ⟨r, h⟩).loosen fun _ _ _ => trivial

end Interpreter

/-! ### Whole runs -/

section Runs
variable (P : Primitives) (hmac : (key : Fixed 32) → (data : Bytes) → Fixed 32) {ι : Type} [DecidableEq ι] {me : ι}
  {E : (kernel Bytes me).Env} {p p' : Process Bytes ι} {trace : List (Statement × Except Exception Result)}

abbrev Session (σ : Type) [Objects σ] (E : (kernel Bytes me).Env) :=
  Runs (kernel Bytes me) E (fun q : Statement => (q.exec P hmac : Py σ Result)) Statement.Allowed

theorem counted_runs {x : Interpreter} (h : Session P hmac Interpreter E (.start, p) trace (x, p')) :
    Interpreter.Counted 0 x :=
  h.invariant (fun q => ⟨_, Interpreter.exec_represents P hmac q⟩) Interpreter.counted_start

/-- The binding is the crate, as far as Python code can see: its runs over shared objects, with
pointers and reference counts, are the runs over values that each store owns, call by call; and
no call in any of them follows a pointer to a master key that is gone. -/
theorem python_sees_values {v : Values} :
    (Session P hmac Values E (.start, p) trace (v, p') ↔
      ∃ x, Interpreter.values x = v ∧ Session P hmac Interpreter E (.start, p) trace (x, p')) ∧
    ∀ x, Session P hmac Interpreter E (.start, p) trace (x, p') → ∀ q, Statement.Allowed x q → ∀ e p'',
      ¬Ends (kernel Bytes me) E ((q.exec P hmac : Py Interpreter Result) x) p' (.err e) p'' := by
  constructor
  · have hstart : Interpreter.start.values = Values.start := by
      unfold Interpreter.values Interpreter.start Values.start
      simp
    rw [← hstart]
    exact runs_viewed (Interpreter.exec_represents P hmac) (fun x q _ => Iff.rfl) Interpreter.counted_start
  · intro x hrun q hq e p'' hends
    exact quiet_ends (Interpreter.exec_represents P hmac q x (counted_runs P hmac hrun) hq).2 hends

def sampleHmac : (key : Fixed 32) → (data : Bytes) → Fixed 32 := fun _ _ => .zero 32

def anyChoice : (kernel Bytes ()).Env := fun _ _ => True

def runScript (script : List Statement) :
    Option (List (Statement × Except Exception Result) × (Interpreter × Process Bytes Unit)) :=
  runAll (kernel Bytes ()) (failing fun _ => false) (fun q => (q.exec sampleCiphers sampleHmac : Py Interpreter Result))
    (fun x q => decide (Statement.Allowed x q)) script (.start, .start)

theorem runScript_session {script r} (h : runScript script = some r) :
    Session sampleCiphers sampleHmac Interpreter anyChoice (.start, .start) r.1 r.2 :=
  runs_of_runAll (fun _ => trivial) (fun _ _ h => of_decide_eq_true h) h

def sampleScript : List Statement :=
  [.fromVec (.bytes (List.replicate 32 1)), .fromBytes 0, .openStore samplePath 1, .del 1, .del 0]

/-- The store goes on with a master key that Python code has no reference to, and goes with it. -/
def longerScript : List Statement := sampleScript ++
  [.fromVec (.bytes [5]), .put 2 ['a'] 3, .get 2 ['a'], .expose 4, .del 2]

theorem python_sees_values_sample : ∃ calls x v, ∃ p' : Process Bytes Unit,
    Session sampleCiphers sampleHmac Interpreter anyChoice (.start, .start) calls (x, p') ∧
      Session sampleCiphers sampleHmac Values anyChoice (.start, .start) calls (v, p') ∧
      (∃ call ∈ calls, call.2 = .ok (.bytes [5])) ∧ v.objects 1 = none ∧ 4 ∈ x.held ∧
      ∀ e p'', ¬Ends (kernel Bytes ()) anyChoice
        ((Statement.expose 4).exec sampleCiphers sampleHmac x : Prog _ Dangling _) p' (.err e) p'' := by
  have hrun : (runScript longerScript).any fun r => (∃ call ∈ r.1, call.2 = .ok (.bytes [5])) ∧
      4 ∈ r.2.1.held ∧ (r.2.1.values.objects 1).isNone := by decide +kernel
  obtain ⟨⟨calls, x, p'⟩, hr, hx⟩ := (Option.any_eq_true _ _).mp hrun
  obtain ⟨hanswer, hheld, hgone⟩ := of_decide_eq_true hx
  have hsession := runScript_session hr
  have hvalues := (python_sees_values sampleCiphers sampleHmac).1.mpr ⟨x, rfl, hsession⟩
  have hallowed : Statement.Allowed x (.expose 4) := fun r hr' => List.mem_singleton.mp hr' ▸ hheld
  have hdangling := (python_sees_values sampleCiphers sampleHmac (v := x.values)).2 x hsession _ hallowed
  exact ⟨calls, x, x.values, p', hsession, hvalues, hanswer, Option.isNone_iff_eq_none.mp hgone, hheld,
    hdangling⟩

/-- An object is there exactly as long as Python code refers to it or a store does that Python
code refers to, and is counted that often; what a store's pointer leads to is the master key
that the store keeps. -/
theorem python_keeps_what_is_referred_to {x : Interpreter}
    (h : Session P hmac Interpreter E (.start, p) trace (x, p')) :
    (∀ r, x.get r ≠ none ↔ r ∈ x.held ∨ ∃ s ∈ x.held, x.masterOf s = some r) ∧
    (∀ r c, x.cells r = some c → c.count = x.held.count r + (x.keepers r).card) ∧
    ∀ s st m, x.get s = some (.secretStore st m) → ∃ k, x.get m = some (.masterKey k) ∧
      ∀ hd, st = some hd → hd.master = m := by
  have hx := counted_runs P hmac h
  have hcount (r : Ref) (c : Cell) (hc : x.cells r = some c) : c.count = x.held.count r + (x.keepers r).card := by
    rw [hx.count r c hc, Multiset.count_zero, Nat.add_zero]
  have hmaster (s : Ref) (st : Option (Handle Ref)) (m : Ref) (hs : x.get s = some (.secretStore st m)) :
      ∃ k, x.get m = some (.masterKey k) := by
    obtain ⟨k, hk⟩ := Option.ne_none_iff_exists'.mp (hx.master s m (Interpreter.masterOf_eq_some.mpr ⟨st, hs⟩))
    exact ⟨k, Interpreter.masterAt_eq_some.mp hk⟩
  -- a store is kept by no other object, so where there is one Python code refers to it
  have hstore (s m : Ref) (hs : x.masterOf s = some m) : s ∈ x.held := by
    obtain ⟨st, hget⟩ := Interpreter.masterOf_eq_some.mp hs
    obtain ⟨c, hc, -⟩ := Interpreter.cell_of_get hget
    have hnone : x.keepers s = ∅ := by
      apply Finset.eq_empty_of_forall_notMem
      intro t ht
      obtain ⟨st', hget'⟩ := Interpreter.masterOf_eq_some.mp (hx.mem_keepers.mp ht)
      obtain ⟨k, hk⟩ := hmaster t st' s hget'
      rw [hget] at hk
      cases hk
    have hpos := hx.used s c hc
    rw [hcount s c hc, hnone, Finset.card_empty, Nat.add_zero] at hpos
    exact Multiset.count_pos.mp hpos
  refine ⟨fun r => ⟨fun hr => ?_, ?_⟩, hcount, fun s st m hs => ?_⟩
  · obtain ⟨o, ho⟩ := Option.ne_none_iff_exists'.mp hr
    obtain ⟨c, hc, -⟩ := Interpreter.cell_of_get ho
    have hpos := hx.used r c hc
    rw [hcount r c hc] at hpos
    by_cases hheld : r ∈ x.held
    · exact Or.inl hheld
    · rw [Multiset.count_eq_zero.mpr hheld, Nat.zero_add] at hpos
      obtain ⟨s, hs⟩ := Finset.card_pos.mp hpos
      have hof := hx.mem_keepers.mp hs
      exact Or.inr ⟨s, hstore s r hof, hof⟩
  · rintro (hr | ⟨s, -, hs⟩)
    · obtain ⟨c, hc⟩ := Option.ne_none_iff_exists'.mp (hx.live r (Or.inl hr))
      rw [Interpreter.get_of_cell hc]
      exact Option.some_ne_none _
    · obtain ⟨st, hget⟩ := Interpreter.masterOf_eq_some.mp hs
      obtain ⟨k, hk⟩ := hmaster s st r hget
      rw [hk]
      exact Option.some_ne_none _
  · obtain ⟨k, hk⟩ := hmaster s st m hs
    refine ⟨k, hk, fun hd hst => hx.handle s hd m ?_⟩
    rw [hs, hst]

theorem python_keeps_master_sample : ∃ trace x, ∃ p' : Process Bytes Unit,
    Session sampleCiphers sampleHmac Interpreter anyChoice (.start, .start) trace (x, p') ∧
      x.held = {2} ∧ x.get 1 ≠ none := by
  have hrun : (runScript sampleScript).any fun r => r.2.1.held = {2} ∧ r.2.1.masterOf 2 = some 1 := by decide +kernel
  obtain ⟨⟨trace, x, p'⟩, hr, hx⟩ := (Option.any_eq_true _ _).mp hrun
  obtain ⟨hheld, hmaster⟩ := of_decide_eq_true hx
  have hsession := runScript_session hr
  refine ⟨trace, x, p', hsession, hheld, ?_⟩
  rw [(python_keeps_what_is_referred_to sampleCiphers sampleHmac hsession).1 1, hheld]
  exact Or.inr ⟨2, Multiset.mem_singleton_self 2, hmaster⟩

end Runs
end Krypto.Python
