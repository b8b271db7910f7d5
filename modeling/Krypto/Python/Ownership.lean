import Krypto.Python.Counts

/-! Python code sees each object as if it owned all that the object refers to: the calls on the
objects, which share master keys behind pointers, are calls on their values. -/

namespace Krypto.Python
open Effect

/-! ### What the objects stand for -/

def Handle.withMaster {κ κ' : Type} (h : Handle κ) (k : κ') : Handle κ' :=
  { h.toContents with path := h.path, master := k, lock := h.lock }

def Object.valued (at_ : Ref → Option MasterKey) : Object Ref → Option (Object MasterKey)
  | .byteArray b => some (.byteArray b)
  | .secretBuf b => some (.secretBuf b)
  | .masterKey k => some (.masterKey k)
  | .derivedKey k => some (.derivedKey k)
  | .secretStore store m => (at_ m).map fun k => .secretStore (store.map fun h => h.withMaster k) k

namespace Interpreter
variable {x y : Interpreter} {owed : Multiset Ref} {r s m : Ref} {o o' : Object Ref} {v : Object MasterKey} {α β : Type}

def values (x : Interpreter) : Values where
  objects r := if r ∈ x.held then (x.get r).bind (Object.valued x.masterAt) else none
  fresh := x.fresh
  held := x.held

theorem valued_congr {at_ at' : Ref → Option MasterKey} (h : ∀ m, o.keeps = some m → at' m = at_ m) :
    o.valued at' = o.valued at_ := by
  cases o with
  | secretStore store m => rw [Object.valued, Object.valued, h m rfl]
  | _ => rfl

theorem Counted.valued (hx : Counted owed x) (hget : x.get r = some o) : ∃ v, o.valued x.masterAt = some v := by
  cases o with
  | secretStore store m =>
    obtain ⟨k, hk⟩ := Option.ne_none_iff_exists'.mp (hx.master r m (masterOf_eq_some.mpr ⟨store, hget⟩))
    exact ⟨_, by rw [Object.valued, hk, Option.map_some]⟩
  | _ => exact ⟨_, rfl⟩

theorem Counted.object (hx : Counted owed x) (hr : r ∈ x.held) :
    ∃ o v, x.get r = some o ∧ o.valued x.masterAt = some v ∧ x.values.objects r = some v := by
  obtain ⟨c, hc⟩ := Option.ne_none_iff_exists'.mp (hx.live r (Or.inl hr))
  obtain ⟨v, hv⟩ := hx.valued (get_of_cell hc)
  refine ⟨c.object, v, get_of_cell hc, hv, ?_⟩
  show (if r ∈ x.held then _ else none) = some v
  rw [if_pos hr, get_of_cell hc]
  exact hv

/-- Between the steps of a call: nothing that is referred to goes. -/
structure Grows (x y : Interpreter) : Prop where
  held : ∀ r ∈ x.held, r ∈ y.held
  master : ∀ m k, x.masterAt m = some k → y.masterAt m = some k

theorem Grows.refl (x : Interpreter) : Grows x x := ⟨fun _ h => h, fun _ _ h => h⟩

theorem Grows.trans (x y z : Interpreter) (h : Grows x y) (h' : Grows y z) : Grows x z :=
  ⟨fun r hr => h'.held r (h.held r hr), fun m k hk => h'.master m k (h.master m k hk)⟩

/-- What `p` does on the objects, `q` does on what they stand for. -/
abbrev Acts (pre : Interpreter → Prop) (p : Py Interpreter α) (q : Py Values α) : Prop :=
  Represents (Counted 0) Grows values pre p q

/-- A step that only moves the state. -/
theorem done_values (a : α) {w : Values} (h : y.values = w) :
    (.done (.ok (.ok a, w)) : Prog (Call.Reply (ν := Bytes)) Dangling (Except Exception α × Values)) =
      Prog.viewed values (.done (.ok (.ok a, y))) := h ▸ rfl

/-! ### Each thing that is done with an object -/

section Steps
variable {pre : Interpreter → Prop}

theorem read_acts {f : Object Ref → Except Exception α} {f' : Object MasterKey → Except Exception α}
    (hr : ∀ x, pre x → r ∈ x.held) (hf : ∀ at_ o v, Object.valued at_ o = some v → f' v = f o) :
    Acts pre (read f r) (Values.read f' r) := by
  intro x hx hpre
  obtain ⟨o, v, hget, hv, hobj⟩ := hx.object (hr x hpre)
  have hread : read f r x = .done (.ok (f o, x)) := by rw [read, hget]
  have hread' : Values.read f' r x.values = .done (.ok (f o, x.values)) := by
    rw [Values.read, hobj, ← hf _ o v hv]
  rw [hread, hread']
  exact ⟨rfl, hx, Grows.refl x⟩

theorem asBytes_valued (at_ : Ref → Option MasterKey) (o : Object Ref) (v : Object MasterKey)
    (h : o.valued at_ = some v) : v.asBytes = o.asBytes := by
  cases o with
  | secretStore store m =>
    obtain ⟨k, -, rfl⟩ := Option.map_eq_some_iff.mp h
    rfl
  | _ =>
    cases h
    rfl

theorem asBufArg_valued (at_ : Ref → Option MasterKey) (o : Object Ref) (v : Object MasterKey)
    (h : o.valued at_ = some v) : v.asBufArg = o.asBufArg := by
  cases o with
  | secretStore store m =>
    obtain ⟨k, -, rfl⟩ := Option.map_eq_some_iff.mp h
    rfl
  | _ =>
    cases h
    rfl

theorem asBuf_valued (at_ : Ref → Option MasterKey) (o : Object Ref) (v : Object MasterKey)
    (h : o.valued at_ = some v) : v.asBuf = o.asBuf := by
  cases o with
  | secretStore store m =>
    obtain ⟨k, -, rfl⟩ := Option.map_eq_some_iff.mp h
    rfl
  | secretBuf b =>
    cases h
    cases b
    all_goals rfl
  | _ =>
    cases h
    rfl

theorem asMasterKey_valued (at_ : Ref → Option MasterKey) (o : Object Ref) (v : Object MasterKey)
    (h : o.valued at_ = some v) : v.asMasterKey = o.asMasterKey := by
  cases o with
  | secretStore store m =>
    obtain ⟨k, -, rfl⟩ := Option.map_eq_some_iff.mp h
    rfl
  | _ =>
    cases h
    rfl

theorem asDerivedKey_valued (at_ : Ref → Option MasterKey) (o : Object Ref) (v : Object MasterKey)
    (h : o.valued at_ = some v) : v.asDerivedKey = o.asDerivedKey := by
  cases o with
  | secretStore store m =>
    obtain ⟨k, -, rfl⟩ := Option.map_eq_some_iff.mp h
    rfl
  | _ =>
    cases h
    rfl

/-- Another object of the class in the place of one. -/
theorem values_write (hget : x.get r = some o) (hr : r ∈ x.held) (hold : ∀ k, o ≠ .masterKey k)
    (hnew : ∀ k, o' ≠ .masterKey k) (hv : o'.valued x.masterAt = some v) :
    (x.write r o').values = x.values.write r v := by
  have hobjects : (x.write r o').values.objects = (x.values.write r v).objects := by
    funext s
    show (if s ∈ x.held then _ else none) = Function.update x.values.objects r (some v) s
    rw [get_write hget, masterAt_write hget hold hnew]
    by_cases hs : s = r
    · rw [hs, if_pos hr, if_pos rfl, Function.update_self]
      exact hv
    · rw [if_neg hs, Function.update_of_ne hs]
      rfl
  exact congrArg (fun f => ({ objects := f, fresh := x.fresh, held := x.held } : Values)) hobjects

theorem Counted.write_step (hx : Counted 0 x) (o' : Object Ref) (hget : x.get r = some o) (hr : r ∈ x.held)
    (hold : ∀ k, o ≠ .masterKey k) (hnew : ∀ k, o' ≠ .masterKey k) (hkeeps : o'.keeps = o.keeps)
    (hhandle : ∀ h m, o' = .secretStore (some h) m → h.master = m) (hv : o'.valued x.masterAt = some v) :
    (x.write r o').values = x.values.write r v ∧ Counted 0 (x.write r o') ∧ Grows x (x.write r o') := by
  refine ⟨values_write hget hr hold hnew hv, hx.write hget hold hnew hkeeps hhandle, fun _ h => h, ?_⟩
  intro m k hk
  rwa [masterAt_write hget hold hnew]

/-- A buffer's bytes are taken, and `left` is left of it. -/
theorem take_acts {f : Object Ref → Except Exception α} {f' : Object MasterKey → Except Exception α}
    {left : α → Object Ref} {left' : α → Object MasterKey} (hr : ∀ x, pre x → r ∈ x.held)
    (hf : ∀ at_ o v, Object.valued at_ o = some v → f' v = f o)
    (hplain : ∀ o a, f o = .ok a → o.keeps = none ∧ ∀ k, o ≠ .masterKey k)
    (hleft : ∀ a, (left a).keeps = none ∧ (∀ k, left a ≠ .masterKey k) ∧
      ∀ at_, Object.valued at_ (left a) = some (left' a)) :
    Acts pre (do let a ← read f r; put r (left a); return a)
      (do let a ← Values.read f' r; Values.put r (left' a); return a) := by
  intro x hx hpre
  obtain ⟨o, v, hget, hv, hobj⟩ := hx.object (hr x hpre)
  have hread : read f r x = .done (.ok (f o, x)) := by rw [read, hget]
  have hread' : Values.read f' r x.values = .done (.ok (f o, x.values)) := by
    rw [Values.read, hobj, ← hf _ o v hv]
  cases ha : f o with
  | error e =>
    rw [ha] at hread hread'
    rw [Stateful.bind_of_error hread, Stateful.bind_of_error hread']
    exact ⟨rfl, hx, Grows.refl x⟩
  | ok a =>
    rw [ha] at hread hread'
    rw [Stateful.bind_of_ok hread, Stateful.bind_of_ok hread']
    obtain ⟨hkeeps, hold⟩ := hplain o a ha
    obtain ⟨hkeeps', hnew, hval⟩ := hleft a
    obtain ⟨hvalues, hx', hgrows⟩ := hx.write_step _ hget (hr x hpre) hold hnew (hkeeps'.trans hkeeps.symm)
      (fun h m he => by rw [he] at hkeeps'; cases hkeeps') (hval _)
    exact ⟨done_values a hvalues, hx', hgrows⟩

theorem store_cases (hx : Counted 0 x) (hr : r ∈ x.held) :
    (∃ h m k, x.get r = some (.secretStore (some h) m) ∧ h.master = m ∧ x.masterAt m = some k ∧
      x.values.objects r = some (.secretStore (some (h.withMaster k)) k)) ∨
    ∃ e, (∀ x', x'.get r = x.get r → read Object.asStore r x' = .done (.ok (.error e, x'))) ∧
      Values.read Object.asStore r x.values = .done (.ok (.error e, x.values)) := by
  obtain ⟨o, v, hget, hv, hobj⟩ := hx.object hr
  have hother (e : Exception) (ho : o.asStore = .error e) (hv : v.asStore = .error e) :
      ∃ e, (∀ x', x'.get r = x.get r → read Object.asStore r x' = .done (.ok (.error e, x'))) ∧
        Values.read Object.asStore r x.values = .done (.ok (.error e, x.values)) := by
    refine ⟨e, fun x' hx' => ?_, ?_⟩
    · rw [read, hx', hget]
      show Prog.done (.ok (o.asStore, x')) = _
      rw [ho]
    · rw [Values.read, hobj]
      show Prog.done (.ok (v.asStore, x.values)) = _
      rw [hv]
  cases o with
  | secretStore store m =>
    obtain ⟨k, hk, rfl⟩ := Option.map_eq_some_iff.mp hv
    cases store with
    | none => exact Or.inr (hother rotatedAway rfl rfl)
    | some h => exact Or.inl ⟨h, m, k, hget, hx.handle r h m hget, hk, hobj⟩
  | _ =>
    cases hv
    exact Or.inr (hother otherClass rfl rfl)

theorem store_acts (hr : ∀ x, pre x → r ∈ x.held) :
    Acts pre (Objects.store r) (Objects.store r) := by
  intro x hx hpre
  rcases store_cases hx (hr x hpre) with ⟨h, m, k, hget, hm, hk, hobj⟩ | ⟨e, hread, hread'⟩
  · have hread : read Object.asStore r x = .done (.ok (.ok (h, m), x)) := by rw [read, hget]; rfl
    have hread' : Values.read Object.asStore r x.values = .done (.ok (.ok (h.withMaster k, k), x.values)) := by
      rw [Values.read, hobj]
      rfl
    have hderef : deref h x = .done (.ok (.ok (h.toStore k), x)) := by rw [deref, hm, hk]
    show (Values.read Object.asStore r >>= _) _ = Prog.viewed _ ((read Object.asStore r >>= _) x) ∧
      Quiet _ _ ((read Object.asStore r >>= _) x) _
    rw [Stateful.bind_of_ok hread, Stateful.bind_of_ok hread']
    show _ = Prog.viewed _ (deref h x) ∧ Quiet _ _ (deref h x) _
    rw [hderef]
    exact ⟨rfl, hx, Grows.refl x⟩
  · show (Values.read Object.asStore r >>= _) _ = Prog.viewed _ ((read Object.asStore r >>= _) x) ∧
      Quiet _ _ ((read Object.asStore r >>= _) x) _
    rw [Stateful.bind_of_error (hread x rfl), Stateful.bind_of_error hread']
    exact ⟨rfl, hx, Grows.refl x⟩

theorem setEntries_acts (hr : ∀ x, pre x → r ∈ x.held) (entries : Store.Entries) :
    Acts pre (Objects.setEntries r entries) (Objects.setEntries r entries) := by
  intro x hx hpre
  show (Values.read Object.asStore r >>= _) _ = Prog.viewed _ ((read Object.asStore r >>= _) x) ∧
    Quiet _ _ ((read Object.asStore r >>= _) x) _
  rcases store_cases hx (hr x hpre) with ⟨h, m, k, hget, hm, hk, hobj⟩ | ⟨e, hread, hread'⟩
  · have hread : read Object.asStore r x = .done (.ok (.ok (h, m), x)) := by rw [read, hget]; rfl
    have hread' : Values.read Object.asStore r x.values = .done (.ok (.ok (h.withMaster k, k), x.values)) := by
      rw [Values.read, hobj]
      rfl
    rw [Stateful.bind_of_ok hread, Stateful.bind_of_ok hread']
    have hv : Object.valued x.masterAt (.secretStore (some { h with entries }) m) =
        some (.secretStore (some { h.withMaster k with entries }) k) := by
      rw [Object.valued, hk]
      rfl
    obtain ⟨hvalues, hx', hgrows⟩ := hx.write_step (.secretStore (some { h with entries }) m) hget (hr x hpre)
      (fun k => by simp) (fun k => by simp) rfl (fun h' m' he => by cases he; exact hm) hv
    exact ⟨done_values () hvalues, hx', hgrows⟩
  · rw [Stateful.bind_of_error (hread x rfl), Stateful.bind_of_error hread']
    exact ⟨rfl, hx, Grows.refl x⟩

theorem takeStore_acts (hr : ∀ x, pre x → r ∈ x.held) :
    Acts pre (Objects.takeStore r) (Objects.takeStore r) := by
  intro x hx hpre
  show (Values.read Object.asStore r >>= _) _ = Prog.viewed _ ((read Object.asStore r >>= _) x) ∧
    Quiet _ _ ((read Object.asStore r >>= _) x) _
  rcases store_cases hx (hr x hpre) with ⟨h, m, k, hget, hm, hk, hobj⟩ | ⟨e, hread, hread'⟩
  · have hread : read Object.asStore r x = .done (.ok (.ok (h, m), x)) := by rw [read, hget]; rfl
    have hread' : Values.read Object.asStore r x.values = .done (.ok (.ok (h.withMaster k, k), x.values)) := by
      rw [Values.read, hobj]
      rfl
    rw [Stateful.bind_of_ok hread, Stateful.bind_of_ok hread']
    have hv : Object.valued x.masterAt (.secretStore none m) = some (.secretStore none k) := by
      rw [Object.valued, hk]
      rfl
    obtain ⟨hvalues, hx', hgrows⟩ := hx.write_step (.secretStore none m) hget (hr x hpre)
      (fun k => by simp) (fun k => by simp) rfl (fun h' m' he => by cases he) hv
    -- the pointer of the handle that was taken still leads to the key
    have hderef : deref h (x.write r (.secretStore none m)) =
        .done (.ok (.ok (h.toStore k), x.write r (.secretStore none m))) := by
      rw [deref, hm, hgrows.master m k hk]
    show _ = Prog.viewed _ (deref h (x.write r (.secretStore none m))) ∧
      Quiet _ _ (deref h (x.write r (.secretStore none m))) _
    rw [hderef]
    exact ⟨done_values (h.toStore k) hvalues, hx', hgrows⟩
  · rw [Stateful.bind_of_error (hread x rfl), Stateful.bind_of_error hread']
    exact ⟨rfl, hx, Grows.refl x⟩

/-! ### New objects -/

theorem values_alloc (hx : Counted owed x) (hv : o.valued x.masterAt = some v) :
    (x.alloc o).values = x.values.alloc v := by
  have hat (m : Ref) (hm : x.masterAt m ≠ none) : (x.alloc o).masterAt m = x.masterAt m := by
    obtain ⟨k, hk⟩ := Option.ne_none_iff_exists'.mp hm
    obtain ⟨c, hc, -⟩ := cell_of_get (masterAt_eq_some.mp hk)
    rw [masterAt, get_alloc hx (hc ▸ Option.some_ne_none c)]
    rfl
  have hobjects : (x.alloc o).values.objects = (x.values.alloc v).objects := by
    funext s
    show (if s ∈ x.fresh ::ₘ x.held then _ else none) = Function.update x.values.objects x.fresh (some v) s
    by_cases hs : s = x.fresh
    · rw [hs, if_pos (Multiset.mem_cons_self _ _), get_alloc_self, Function.update_self]
      show o.valued (x.alloc o).masterAt = some v
      rw [← hv]
      apply valued_congr
      intro m hm
      apply hat
      intro hnone
      cases o with
      | secretStore store m' =>
        cases hm
        rw [Object.valued, hnone] at hv
        cases hv
      | _ => cases hm
    · rw [Function.update_of_ne hs]
      show _ = if s ∈ x.held then _ else none
      by_cases hheld : s ∈ x.held
      · have hlive := hx.live s (Or.inl hheld)
        rw [if_pos hheld, if_pos (Multiset.mem_cons_of_mem hheld), get_alloc hx hlive]
        obtain ⟨c, hc⟩ := Option.ne_none_iff_exists'.mp hlive
        rw [get_of_cell hc]
        apply valued_congr
        intro m hm
        apply hat
        refine hx.master s m ?_
        rw [masterOf, get_of_cell hc]
        exact hm
      · rw [if_neg hheld, if_neg fun h => hheld ((Multiset.mem_cons.mp h).resolve_left hs)]
  exact congrArg (fun f => ({ objects := f, fresh := x.fresh + 1, held := x.fresh ::ₘ x.held } : Values)) hobjects

theorem grows_alloc (hx : Counted owed x) (o : Object Ref) : Grows x (x.alloc o) := by
  refine ⟨fun r hr => Multiset.mem_cons_of_mem hr, fun m k hk => ?_⟩
  obtain ⟨c, hc, -⟩ := cell_of_get (masterAt_eq_some.mp hk)
  rw [masterAt, get_alloc hx (hc ▸ Option.some_ne_none c)]
  exact hk

theorem new_acts {v : Object MasterKey} (hkeeps : o.keeps = none) (hv : ∀ at_, o.valued at_ = some v) :
    Acts pre (new o) (Values.new v) := by
  intro x hx _
  have hrefs : o.refs = 0 := by rw [Object.refs, hkeeps]
  refine ⟨done_values x.fresh (values_alloc hx (hv _)), Counted.alloc (by rwa [hrefs, Multiset.zero_add]) ?_ ?_,
    grows_alloc hx o⟩
  · intro m hm
    rw [hkeeps] at hm
    cases hm
  · intro h m he
    rw [he] at hkeeps
    cases hkeeps

theorem values_incref (x : Interpreter) (r : Ref) : (x.incref r).values = x.values := by
  have hobjects : (x.incref r).values.objects = x.values.objects := by
    funext s
    show (if s ∈ x.held then _ else none) = if s ∈ x.held then _ else none
    rw [get_incref, masterAt_congr (get_incref x r)]
  exact congrArg (fun f => ({ objects := f, fresh := x.fresh, held := x.held } : Values)) hobjects

theorem newStore_acts {st : SecretStore} (hm : ∀ x, pre x → x.masterAt m = some st.master) :
    Acts pre (Objects.newStore st m) (Objects.newStore st m) := by
  intro x hx hpre
  have hat := hm x hpre
  have hat' : (x.incref m).masterAt = x.masterAt := masterAt_congr (get_incref x m)
  obtain ⟨c, hc, -⟩ := cell_of_get (masterAt_eq_some.mp hat)
  have hx' : Counted ((Object.secretStore (some (.ofStore st m)) m).refs + 0) (x.incref m) :=
    hx.incref (hc ▸ Option.some_ne_none c)
  have hv : Object.valued (x.incref m).masterAt (.secretStore (some (.ofStore st m)) m) =
      some (.secretStore (some (.ofStore st st.master)) st.master) := by
    rw [hat', Object.valued, hat]
    rfl
  refine ⟨?_, hx'.alloc ?_ ?_, ?_⟩
  · exact done_values x.fresh ((values_alloc hx' hv).trans (congrArg (Values.alloc · _) (values_incref x m)))
  · intro m' hm'
    cases hm'
    rw [hat', hat]
    exact Option.some_ne_none _
  · intro h m' he
    cases he
    rfl
  · have hgrows := grows_alloc hx' (.secretStore (some (.ofStore st m)) m)
    exact ⟨hgrows.held, fun m' k hk => hgrows.master m' k (hat' ▸ hk)⟩

theorem share_acts (hr : ∀ x, pre x → r ∈ x.held) : Acts pre (Objects.share r) (Objects.share r) := by
  intro x hx hpre
  have hlive := hx.live r (Or.inl (hr x hpre))
  refine ⟨?_, (hx.incref hlive).hold, fun s hs => Multiset.mem_cons_of_mem hs, fun m k hk => ?_⟩
  · have hobjects : Values.objects { x.incref r with held := r ::ₘ x.held }.values = x.values.objects := by
      funext s
      have hmem : s ∈ r ::ₘ x.held ↔ s ∈ x.held := by
        rw [Multiset.mem_cons, or_iff_right_iff_imp]
        rintro rfl
        exact hr x hpre
      show (if s ∈ r ::ₘ x.held then ((x.incref r).get s).bind (Object.valued (x.incref r).masterAt) else none) =
        if s ∈ x.held then _ else none
      rw [get_incref, masterAt_congr (get_incref x r)]
      simp only [hmem]
    exact done_values () (congrArg (fun f => ({ objects := f, fresh := x.fresh, held := r ::ₘ x.held } : Values)) hobjects)
  · show (x.incref r).masterAt m = some k
    rw [masterAt_congr (get_incref x r)]
    exact hk

end Steps

/-! ### One reference less -/

/-- Where objects and references have gone, and the others are as they were. -/
theorem values_less {owed' : Multiset Ref} (hy : Counted owed' y)
    (hheld : ∀ s ∈ y.held, s ∈ x.held) (hless : ∀ s, y.get s = none ∨ y.get s = x.get s)
    (hfresh : y.fresh = x.fresh) :
    y.values = ⟨fun s => if s ∈ y.held then x.values.objects s else none, x.fresh, y.held⟩ := by
  have hobjects : y.values.objects = fun s => if s ∈ y.held then x.values.objects s else none := by
    funext s
    show (if s ∈ y.held then _ else none) = _
    split_ifs with hs
    · obtain ⟨c, hc⟩ := Option.ne_none_iff_exists'.mp (hy.live s (Or.inl hs))
      have hget := get_of_cell hc
      have hsame : x.get s = some c.object := by
        rcases hless s with hnone | hsame
        · rw [hget] at hnone
          cases hnone
        · rw [← hsame, hget]
      show _ = if s ∈ x.held then _ else none
      rw [if_pos (hheld s hs), hget, hsame]
      apply valued_congr
      intro m hm
      have hat : y.masterAt m ≠ none := hy.master s m (by rw [masterOf, hget]; exact hm)
      obtain ⟨k, hk⟩ := Option.ne_none_iff_exists'.mp hat
      rcases hless m with hnone | hsame'
      · rw [masterAt_eq_some, hnone] at hk
        cases hk
      · rw [masterAt, masterAt, hsame']
    · rfl
  rw [← hfresh]
  exact congrArg (fun f => ({ objects := f, fresh := y.fresh, held := y.held } : Values)) hobjects

theorem get_decref (x : Interpreter) (r s : Ref) : (x.decref r).get s = none ∨ (x.decref r).get s = x.get s := by
  by_cases hs : s = r
  · subst hs
    cases hc : x.cells s with
    | none =>
      left
      rw [get_eq, decref]
      dsimp only
      rw [Function.update_self, hc]
      rfl
    | some c =>
      rw [get_eq, get_eq, cells_decref_self hc, hc]
      split_ifs
      · exact Or.inl rfl
      · exact Or.inr rfl
  · right
    rw [get_eq, get_eq, cells_decref_of_ne hs]

theorem valued_drop {at_ : Ref → Option MasterKey} (h : o.valued at_ = some v) : v.drop = o.drop := by
  cases o with
  | secretStore store m =>
    obtain ⟨k, -, rfl⟩ := Option.map_eq_some_iff.mp h
    cases store
    all_goals rfl
  | _ =>
    cases h
    rfl

theorem drop_ends (o : Object Ref) : Quiet (fun _ => True) (fun _ _ => True) o.drop (· = .ok ()) := by
  cases o with
  | secretStore store m =>
    rcases store with _ | ⟨c, path, master, _ | f⟩
    · rfl
    · rfl
    · exact ⟨trivial, fun _ _ => rfl⟩
  | _ => rfl

/-- The same work before a step that only moves the state. -/
theorem drop_then (p : Prog (Call.Reply (ν := Bytes)) Dangling Unit)
    (hp : Quiet (fun _ => True) (fun _ _ => True) p (· = .ok ())) {R : Interpreter → Interpreter → Prop} (hy : Counted 0 y)
    (hR : R x y) {w : Values} (h : y.values = w) :
    (p >>= fun _ => .done (.ok (.ok (), w))) = Prog.viewed values (p >>= fun _ => .done (.ok (.ok (), y)) :
      Prog (Call.Reply (ν := Bytes)) Dangling (Except Exception Unit × Interpreter)) ∧
      Quiet (fun _ => True) (fun _ _ => True) (p >>= fun _ => .done (.ok (.ok (), y)) :
        Prog (Call.Reply (ν := Bytes)) Dangling (Except Exception Unit × Interpreter)) (Keeps (Counted 0) R x) := by
  constructor
  · rw [Prog.viewed, Prog.bind_def, Prog.bind_def, Prog.andThen_assoc]
    apply hp.andThen_congr
    rintro _ rfl
    exact done_values () h
  · rw [quiet_bind]
    refine hp.imp ?_
    rintro _ rfl
    exact ⟨hy, hR⟩

/-- After a reference to `r` is given up: what is left, and that it is in order. -/
theorem Counted.after {c : Cell} (hx : Counted (r ::ₘ 0) x) (hc : x.cells r = some c) (hlast : c.count = 1) :
    ∃ z, (x.decref r).dropKept c.object.keeps = .done (.ok z) ∧ Counted 0 z ∧ z.held = x.held ∧
      z.fresh = x.fresh ∧ ∀ s, z.get s = none ∨ z.get s = x.get s := by
  have hgone := hx.decref_last hc hlast
  cases hkeeps : c.object.keeps with
  | none =>
    rw [Object.refs, hkeeps] at hgone
    exact ⟨x.decref r, rfl, hgone, rfl, rfl, get_decref x r⟩
  | some m =>
    rw [Object.refs, hkeeps] at hgone
    have hgone : Counted (m ::ₘ 0) (x.decref r) := hgone
    -- its master key is still there, and loses a reference
    obtain ⟨d, hd⟩ := Option.ne_none_iff_exists'.mp (hgone.live m (Or.inr (Multiset.mem_cons_self m 0)))
    refine ⟨(x.decref r).decref m, ?_, ?_, rfl, rfl, fun s => ?_⟩
    · rw [dropKept, hd]
      rfl
    · by_cases hone : d.count = 1
      · obtain ⟨k, hk⟩ := Option.ne_none_iff_exists'.mp (hx.master r m (by rw [masterOf, get_of_cell hc]; exact hkeeps))
        have hkey : d.object = .masterKey k := by
          rcases get_decref x r m with hnone | hsame
          · rw [get_of_cell hd] at hnone
            cases hnone
          · rw [get_of_cell hd, masterAt_eq_some.mp hk] at hsame
            exact Option.some.inj hsame
        have hempty := hgone.decref_last hd hone
        rwa [hkey] at hempty
      · exact hgone.decref_more hd hone
    · rcases get_decref (x.decref r) m s with hnone | hsame
      · exact Or.inl hnone
      · rw [hsame]
        exact get_decref x r s

theorem del_acts {pre : Interpreter → Prop} (hr : ∀ x, pre x → r ∈ x.held) :
    Represents (Counted 0) (fun _ _ => True) values pre (Objects.del r : Py Interpreter Unit) (Objects.del r) := by
  intro x hx hpre
  have hheld := hr x hpre
  have hy := hx.unhold hheld
  obtain ⟨c, hc⟩ := Option.ne_none_iff_exists'.mp (hx.live r (Or.inl hheld))
  obtain ⟨o, v, hget, hv, hobj⟩ := hx.object hheld
  obtain rfl : c.object = o := Option.some.inj ((get_of_cell hc).symm.trans hget)
  have hcount : c.count = (x.held.erase r).count r + (r ::ₘ 0).count r + (x.keepers r).card := hy.count r c hc
  rw [Multiset.count_cons_self, Multiset.count_zero] at hcount
  have hvalues (z : Interpreter) (hz : Counted 0 z) (hzh : z.held = x.held.erase r) (hzf : z.fresh = x.fresh)
      (hzl : ∀ s, z.get s = none ∨ z.get s = x.get s) :
      z.values = ⟨fun s => if s ∈ x.held.erase r then x.values.objects s else none, x.fresh, x.held.erase r⟩ := by
    rw [values_less hz (fun s hs => Multiset.mem_of_mem_erase (hzh ▸ hs)) hzl hzf, hzh]
  have hother {s : Ref} (hs : s ≠ r) : (if s ∈ x.held.erase r then x.values.objects s else none) = x.values.objects s := by
    split_ifs with hmem
    · rfl
    · show none = if s ∈ x.held then _ else none
      rw [if_neg fun h => hmem ((Multiset.mem_erase_of_ne hs).mpr h)]
  have hconcrete : (Objects.del r : Py Interpreter Unit) x = if c.count = 1 then (do
      c.object.drop
      let x' ← (Interpreter.decref { x with held := x.held.erase r } r).dropKept c.object.keeps
      .done (.ok (.ok (), x')))
      else .done (.ok (.ok (), Interpreter.decref { x with held := x.held.erase r } r)) := by
    show release r { x with held := x.held.erase r } = _
    unfold release
    dsimp only
    rw [hc]
  by_cases hlast : c.count = 1
  -- the last reference: the object goes, and what it kept is released
  · have hnot : r ∉ x.held.erase r := by
      intro hmem
      have hpos : 0 < (x.held.erase r).count r := Multiset.count_pos.mpr hmem
      omega
    obtain ⟨z, hkept, hz, hzh, hzf, hzl⟩ := hy.after hc hlast
    have habstract : (Objects.del r : Py Values Unit) x.values = (c.object.drop >>= fun _ =>
        .done (.ok (.ok (), ⟨Function.update x.values.objects r none, x.fresh, x.held.erase r⟩))) := by
      show Values.release r x.values = _
      unfold Values.release
      dsimp only
      rw [if_neg (show r ∉ x.values.held.erase r from hnot), hobj, ← valued_drop hv]
      rfl
    rw [habstract, hconcrete, if_pos hlast, hkept]
    refine drop_then (x := x) c.object.drop (drop_ends c.object) hz trivial ?_
    rw [hvalues z hz hzh hzf hzl]
    refine congrArg (fun f => ({ objects := f, fresh := x.fresh, held := x.held.erase r } : Values)) (funext fun s => ?_)
    by_cases hs : s = r
    · rw [hs, if_neg hnot, Function.update_self]
    · rw [hother hs, Function.update_of_ne hs]
  -- something else refers to it: Python code does, or store objects keep it
  · have hz := hy.decref_more hc hlast
    have hzl : ∀ s, (Interpreter.decref { x with held := x.held.erase r } r).get s = none ∨
        (Interpreter.decref { x with held := x.held.erase r } r).get s = x.get s :=
      get_decref { x with held := x.held.erase r } r
    have hleft := hvalues _ hz rfl rfl hzl
    rw [hconcrete, if_neg hlast]
    show Values.release r x.values = _ ∧ _
    unfold Values.release
    dsimp only
    by_cases hmem : r ∈ x.held.erase r
    · rw [if_pos (show r ∈ x.values.held.erase r from hmem)]
      refine ⟨done_values () (hleft.trans ?_), hz, trivial⟩
      refine congrArg (fun f => ({ objects := f, fresh := x.fresh, held := x.held.erase r } : Values)) (funext fun s => ?_)
      by_cases hs : s = r
      · rw [hs, if_pos hmem]
      · exact hother hs
    · -- it is a master key that store objects keep
      have hkeeper : 0 < (x.keepers r).card := by
        have hzero : (x.held.erase r).count r = 0 := Multiset.count_eq_zero.mpr hmem
        omega
      obtain ⟨s, hs⟩ := Finset.card_pos.mp hkeeper
      obtain ⟨k, hk⟩ := Option.ne_none_iff_exists'.mp (hx.master s r (hx.mem_keepers.mp hs))
      obtain rfl : v = .masterKey k := by
        rw [← Option.some.inj ((masterAt_eq_some.mp hk).symm.trans hget)] at hv
        cases hv
        rfl
      rw [if_neg (show r ∉ x.values.held.erase r from hmem), hobj]
      refine ⟨done_values () (hleft.trans ?_), hz, trivial⟩
      refine congrArg (fun f => ({ objects := f, fresh := x.fresh, held := x.held.erase r } : Values)) (funext fun s => ?_)
      by_cases hs : s = r
      · rw [hs, if_neg hmem, Function.update_self]
      · rw [hother hs, Function.update_of_ne hs]

end Interpreter
end Krypto.Python
