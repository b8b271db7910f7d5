import Krypto.Python

/-! The reference counts of the objects, and what each object keeps alive. -/

namespace Krypto.Python
open Effect

namespace Object

def refs (o : Object Ref) : Multiset Ref :=
  match o.keeps with
  | some m => {m}
  | none => 0

theorem mem_refs {o : Object Ref} {m : Ref} : m ∈ o.refs ↔ o.keeps = some m := by
  rw [refs]
  cases o.keeps with
  | none => simp
  | some k => simp [eq_comm]

end Object

namespace Interpreter
variable {x : Interpreter} {owed : Multiset Ref} {r s m : Ref} {o : Object Ref}

def masterOf (x : Interpreter) (s : Ref) : Option Ref := (x.get s).bind Object.keeps

def keepers (x : Interpreter) (r : Ref) : Finset Ref := (Finset.range x.fresh).filter fun s => x.masterOf s = some r

/-- Every object is counted as often as it is referred to, with the references `owed` that are
in no one's hands yet; what a store object keeps is a master key, and its handle points there. -/
structure Counted (owed : Multiset Ref) (x : Interpreter) : Prop where
  count : ∀ r c, x.cells r = some c → c.count = x.held.count r + owed.count r + (x.keepers r).card
  used : ∀ r c, x.cells r = some c → 0 < c.count
  live : ∀ r, r ∈ x.held ∨ r ∈ owed → x.cells r ≠ none
  master : ∀ s m, x.masterOf s = some m → x.masterAt m ≠ none
  handle : ∀ s h m, x.get s = some (.secretStore (some h) m) → h.master = m
  fresh : ∀ r, x.fresh ≤ r → x.cells r = none

theorem counted_start : Counted 0 start where
  count _ _ h := by cases h
  used _ _ h := by cases h
  live r h := by
    rcases h with h | h
    · exact absurd h (Multiset.notMem_zero r)
    · exact absurd h (Multiset.notMem_zero r)
  master _ _ h := by cases h
  handle _ _ _ h := by cases h
  fresh _ _ := rfl

theorem get_eq (x : Interpreter) (r : Ref) : x.get r = (x.cells r).map Cell.object := rfl

theorem get_of_cell {c : Cell} (h : x.cells r = some c) : x.get r = some c.object := by
  rw [get_eq, h]
  rfl

theorem cell_of_get (h : x.get r = some o) : ∃ c, x.cells r = some c ∧ c.object = o := by
  rw [get_eq] at h
  exact Option.map_eq_some_iff.mp h

theorem Counted.lt_fresh (hx : Counted owed x) (h : x.cells r ≠ none) : r < x.fresh := by
  by_contra hle
  exact h (hx.fresh r (Nat.le_of_not_lt hle))

theorem masterOf_eq_some : x.masterOf s = some m ↔ ∃ store, x.get s = some (.secretStore store m) := by
  unfold masterOf
  cases x.get s with
  | none => simp
  | some o => cases o <;> simp [Object.keeps]

theorem masterAt_eq_some {k : MasterKey} : x.masterAt r = some k ↔ x.get r = some (.masterKey k) := by
  unfold masterAt
  cases x.get r with
  | none => simp
  | some o => cases o <;> simp

theorem Counted.mem_keepers (hx : Counted owed x) : s ∈ x.keepers r ↔ x.masterOf s = some r := by
  rw [keepers, Finset.mem_filter, Finset.mem_range, and_iff_right_iff_imp]
  intro h
  obtain ⟨store, hget⟩ := masterOf_eq_some.mp h
  obtain ⟨c, hc, -⟩ := cell_of_get hget
  exact hx.lt_fresh (hc ▸ Option.some_ne_none c)

/-- What depends on the objects only. -/
theorem masterOf_congr {x y : Interpreter} (h : ∀ r, y.get r = x.get r) : y.masterOf = x.masterOf := by
  funext s
  unfold masterOf
  rw [h]

theorem masterAt_congr {x y : Interpreter} (h : ∀ r, y.get r = x.get r) : y.masterAt = x.masterAt := by
  funext s
  unfold masterAt
  rw [h]

theorem keepers_congr {x y : Interpreter} (h : y.masterOf = x.masterOf) (hfresh : y.fresh = x.fresh) :
    y.keepers = x.keepers := by
  funext r
  rw [keepers, keepers, h, hfresh]

/-! ### One reference more -/

theorem get_incref (x : Interpreter) (r s : Ref) : (x.incref r).get s = x.get s := by
  rw [get_eq, get_eq, incref]
  dsimp only
  by_cases hs : s = r
  · subst hs
    rw [Function.update_self, Option.map_map]
    rfl
  · rw [Function.update_of_ne hs]

theorem Counted.incref (hx : Counted owed x) (hr : x.cells r ≠ none) : Counted (r ::ₘ owed) (x.incref r) := by
  have hof := masterOf_congr (get_incref x r)
  have hat := masterAt_congr (get_incref x r)
  have hkeep : (x.incref r).keepers = x.keepers := keepers_congr hof rfl
  obtain ⟨c₀, hc₀⟩ := Option.ne_none_iff_exists'.mp hr
  have hself : (x.incref r).cells r = some { c₀ with count := c₀.count + 1 } := by
    rw [Interpreter.incref]
    dsimp only
    rw [Function.update_self, hc₀]
    rfl
  have hother {s : Ref} (hs : s ≠ r) : (x.incref r).cells s = x.cells s := Function.update_of_ne hs _ _
  constructor
  · intro s c hc
    rw [hkeep]
    by_cases hs : s = r
    · subst hs
      obtain rfl := Option.some.inj (hself.symm.trans hc)
      have := hx.count s c₀ hc₀
      rw [Multiset.count_cons_self]
      show c₀.count + 1 = x.held.count s + (owed.count s + 1) + (x.keepers s).card
      omega
    · rw [Multiset.count_cons_of_ne hs]
      exact hx.count s c (hother hs ▸ hc)
  · intro s c hc
    by_cases hs : s = r
    · subst hs
      obtain rfl := Option.some.inj (hself.symm.trans hc)
      exact Nat.succ_pos _
    · exact hx.used s c (hother hs ▸ hc)
  · intro s hs
    by_cases he : s = r
    · subst he
      exact hself ▸ Option.some_ne_none _
    · rw [hother he]
      apply hx.live s
      rcases hs with hs | hs
      · exact Or.inl hs
      · exact Or.inr ((Multiset.mem_cons.mp hs).resolve_left he)
  · intro s m hm
    rw [hat]
    exact hx.master s m (hof ▸ hm)
  · intro s h m hs
    exact hx.handle s h m (get_incref x r s ▸ hs)
  · intro s hs
    have hne : s ≠ r := by
      rintro rfl
      exact hr (hx.fresh s hs)
    rw [hother hne]
    exact hx.fresh s hs

/-- A reference that was owed is held. -/
theorem Counted.hold (hx : Counted (r ::ₘ owed) x) : Counted owed { x with held := r ::ₘ x.held } := by
  constructor
  · intro s c hc
    have := hx.count s c hc
    show c.count = (r ::ₘ x.held).count s + owed.count s + (x.keepers s).card
    rw [Multiset.count_cons] at this ⊢
    omega
  · exact hx.used
  · intro s hs
    apply hx.live s
    rcases hs with hs | hs
    · rcases Multiset.mem_cons.mp hs with rfl | hs
      · exact Or.inr (Multiset.mem_cons_self _ _)
      · exact Or.inl hs
    · exact Or.inr (Multiset.mem_cons_of_mem hs)
  · exact hx.master
  · exact hx.handle
  · exact hx.fresh

/-- A reference that was held is owed. -/
theorem Counted.unhold (hx : Counted owed x) (hr : r ∈ x.held) :
    Counted (r ::ₘ owed) { x with held := x.held.erase r } := by
  constructor
  · intro s c hc
    have hcount := hx.count s c hc
    have hback : x.held.count s = (r ::ₘ x.held.erase r).count s := by rw [Multiset.cons_erase hr]
    show c.count = (x.held.erase r).count s + (r ::ₘ owed).count s + (x.keepers s).card
    rw [Multiset.count_cons] at hback ⊢
    omega
  · exact hx.used
  · intro s hs
    apply hx.live s
    rcases hs with hs | hs
    · exact Or.inl (Multiset.mem_of_mem_erase hs)
    · rcases Multiset.mem_cons.mp hs with rfl | hs
      · exact Or.inl hr
      · exact Or.inr hs
  · exact hx.master
  · exact hx.handle
  · exact hx.fresh

/-! ### A new object -/

theorem get_alloc (hx : Counted owed x) (hs : x.cells s ≠ none) : (x.alloc o).get s = x.get s := by
  rw [get_eq, get_eq, alloc]
  dsimp only
  rw [Function.update_of_ne (hx.lt_fresh hs).ne]

theorem get_alloc_self (x : Interpreter) (o : Object Ref) : (x.alloc o).get x.fresh = some o := by
  rw [get_eq, alloc]
  dsimp only
  rw [Function.update_self]
  rfl

theorem masterOf_alloc (x : Interpreter) (o : Object Ref) (s : Ref) :
    (x.alloc o).masterOf s = if s = x.fresh then o.keeps else x.masterOf s := by
  split_ifs with hs
  · rw [hs, masterOf, get_alloc_self]
    rfl
  · rw [masterOf, masterOf, get_eq, get_eq, alloc]
    dsimp only
    rw [Function.update_of_ne hs]

theorem Counted.masterOf_fresh (hx : Counted owed x) : x.masterOf x.fresh = none := by
  rw [masterOf, get_eq, hx.fresh x.fresh le_rfl]
  rfl

theorem Counted.keepers_fresh (hx : Counted owed x) : x.keepers x.fresh = ∅ := by
  apply Finset.eq_empty_of_forall_notMem
  intro s hs
  have hat := hx.master s x.fresh (hx.mem_keepers.mp hs)
  apply hat
  rw [masterAt, get_eq, hx.fresh x.fresh le_rfl]
  rfl

theorem card_keepers_alloc (hx : Counted owed x) (o : Object Ref) (r : Ref) :
    ((x.alloc o).keepers r).card = (x.keepers r).card + o.refs.count r := by
  have hsplit : (x.alloc o).keepers r =
      if o.keeps = some r then insert x.fresh (x.keepers r) else x.keepers r := by
    ext s
    have hrange : (x.alloc o).fresh = x.fresh + 1 := rfl
    rw [keepers, Finset.mem_filter, Finset.mem_range, hrange, masterOf_alloc]
    by_cases hs : s = x.fresh
    · subst hs
      have hnot : x.fresh ∉ x.keepers r := by
        rw [hx.mem_keepers, hx.masterOf_fresh]
        exact fun h => by cases h
      by_cases hkeeps : o.keeps = some r
      · simp [hkeeps]
      · simp [hkeeps, hnot]
    · have hlt : s < x.fresh + 1 ∧ x.masterOf s = some r ↔ s ∈ x.keepers r := by
        rw [hx.mem_keepers, and_iff_right_iff_imp]
        intro h
        have hin := hx.mem_keepers.mpr h
        rw [keepers, Finset.mem_filter, Finset.mem_range] at hin
        exact Nat.lt_succ_of_lt hin.1
      rw [if_neg hs, hlt]
      split_ifs
      · rw [Finset.mem_insert, or_iff_right hs]
      · rfl
  rw [hsplit, Object.refs]
  cases hkeeps : o.keeps with
  | none => simp
  | some m =>
    by_cases hm : m = r
    · subst hm
      have hnot : x.fresh ∉ x.keepers m := by
        rw [hx.mem_keepers, hx.masterOf_fresh]
        exact fun h => by cases h
      rw [if_pos rfl, Finset.card_insert_of_notMem hnot, Multiset.count_singleton_self]
    · rw [if_neg fun h => hm (Option.some.inj h), Multiset.count_singleton, if_neg (Ne.symm hm)]
      rfl

/-- What the new object keeps was owed to it. -/
theorem Counted.alloc (hx : Counted (o.refs + owed) x) (hmaster : ∀ m, o.keeps = some m → x.masterAt m ≠ none)
    (hhandle : ∀ h m, o = .secretStore (some h) m → h.master = m) : Counted owed (x.alloc o) := by
  have hself : (x.alloc o).cells x.fresh = some ⟨o, 1⟩ := Function.update_self _ _ _
  have hother {s : Ref} (hs : s ≠ x.fresh) : (x.alloc o).cells s = x.cells s := Function.update_of_ne hs _ _
  have hheld (s : Ref) (hs : s ∈ x.held ∨ s ∈ o.refs + owed) : s ≠ x.fresh :=
    (hx.lt_fresh (hx.live s hs)).ne
  constructor
  · intro s c hc
    rw [card_keepers_alloc hx]
    show c.count = (x.fresh ::ₘ x.held).count s + owed.count s + _
    by_cases hs : s = x.fresh
    · subst hs
      obtain rfl := Option.some.inj (hself.symm.trans hc)
      have h1 : x.held.count x.fresh = 0 := Multiset.count_eq_zero.mpr fun h => hheld _ (Or.inl h) rfl
      have h2 : (o.refs + owed).count x.fresh = 0 := Multiset.count_eq_zero.mpr fun h => hheld _ (Or.inr h) rfl
      rw [Multiset.count_add] at h2
      rw [Multiset.count_cons_self, hx.keepers_fresh, Finset.card_empty]
      dsimp only
      omega
    · have hcount := hx.count s c (hother hs ▸ hc)
      rw [Multiset.count_add] at hcount
      rw [Multiset.count_cons_of_ne hs]
      omega
  · intro s c hc
    by_cases hs : s = x.fresh
    · subst hs
      obtain rfl := Option.some.inj (hself.symm.trans hc)
      exact Nat.one_pos
    · exact hx.used s c (hother hs ▸ hc)
  · intro s hs
    by_cases he : s = x.fresh
    · rw [he, hself]
      exact Option.some_ne_none _
    · rw [hother he]
      apply hx.live s
      rcases hs with hs | hs
      · exact Or.inl ((Multiset.mem_cons.mp hs).resolve_left he)
      · exact Or.inr (Multiset.mem_add.mpr (Or.inr hs))
  · intro s m hm
    have hat : x.masterAt m ≠ none := by
      rw [masterOf_alloc] at hm
      split_ifs at hm with hs
      · exact hmaster m hm
      · exact hx.master s m hm
    obtain ⟨k, hk⟩ := Option.ne_none_iff_exists'.mp hat
    have hget := masterAt_eq_some.mp hk
    obtain ⟨c, hc, -⟩ := cell_of_get hget
    rw [masterAt_eq_some.mpr ((get_alloc hx (hc ▸ Option.some_ne_none c)).trans hget)]
    exact Option.some_ne_none k
  · intro s h m hs
    by_cases he : s = x.fresh
    · rw [he, get_alloc_self] at hs
      exact hhandle h m (Option.some.inj hs)
    · rw [get_eq, hother he] at hs
      exact hx.handle s h m hs
  · intro s hs
    have hle : x.fresh + 1 ≤ s := hs
    rw [hother (Nat.ne_of_gt hle)]
    exact hx.fresh s (Nat.le_of_succ_le hle)

/-! ### One reference less -/

theorem cells_decref_of_ne (hs : s ≠ r) : (x.decref r).cells s = x.cells s := Function.update_of_ne hs _ _

theorem cells_decref_self {c : Cell} (hc : x.cells r = some c) :
    (x.decref r).cells r = if c.count = 1 then none else some { c with count := c.count - 1 } := by
  rw [decref]
  dsimp only
  rw [Function.update_self, hc]
  rfl

/-- The object stays: it is counted once less. -/
theorem Counted.decref_more {c : Cell} (hx : Counted (r ::ₘ owed) x) (hc : x.cells r = some c)
    (hmore : c.count ≠ 1) : Counted owed (x.decref r) := by
  have hself : (x.decref r).cells r = some { c with count := c.count - 1 } :=
    (cells_decref_self hc).trans (if_neg hmore)
  have hget (s : Ref) : (x.decref r).get s = x.get s := by
    rw [get_eq, get_eq]
    by_cases hs : s = r
    · rw [hs, hself, hc]
      rfl
    · rw [cells_decref_of_ne hs]
  have hof := masterOf_congr hget
  have hat := masterAt_congr hget
  have hkeep : (x.decref r).keepers = x.keepers := keepers_congr hof rfl
  have hpos := hx.used r c hc
  constructor
  · intro s d hd
    rw [hkeep]
    by_cases hs : s = r
    · subst hs
      obtain rfl := Option.some.inj (hself.symm.trans hd)
      have hcount := hx.count s c hc
      rw [Multiset.count_cons_self] at hcount
      show c.count - 1 = x.held.count s + owed.count s + (x.keepers s).card
      omega
    · have hcount := hx.count s d (cells_decref_of_ne hs ▸ hd)
      rwa [Multiset.count_cons_of_ne hs] at hcount
  · intro s d hd
    by_cases hs : s = r
    · subst hs
      obtain rfl := Option.some.inj (hself.symm.trans hd)
      show 0 < c.count - 1
      omega
    · exact hx.used s d (cells_decref_of_ne hs ▸ hd)
  · intro s hs
    by_cases he : s = r
    · rw [he, hself]
      exact Option.some_ne_none _
    · rw [cells_decref_of_ne he]
      exact hx.live s (hs.imp_right Multiset.mem_cons_of_mem)
  · intro s m hm
    rw [hat]
    exact hx.master s m (hof ▸ hm)
  · intro s h m hs
    exact hx.handle s h m (hget s ▸ hs)
  · intro s hs
    have hne : s ≠ r := by
      rintro rfl
      rw [hx.fresh s hs] at hc
      cases hc
    rw [cells_decref_of_ne hne]
    exact hx.fresh s hs

/-- The object goes: what it kept is owed. -/
theorem Counted.decref_last {c : Cell} (hx : Counted (r ::ₘ owed) x) (hc : x.cells r = some c)
    (hlast : c.count = 1) : Counted (c.object.refs + owed) (x.decref r) := by
  have hself : (x.decref r).cells r = none := (cells_decref_self hc).trans (if_pos hlast)
  have hget : x.get r = some c.object := get_of_cell hc
  have hget' (s : Ref) : (x.decref r).get s = if s = r then none else x.get s := by
    rw [get_eq, get_eq]
    split_ifs with hs
    · rw [hs, hself]
      rfl
    · rw [cells_decref_of_ne hs]
  have hmasterOf (s : Ref) : (x.decref r).masterOf s = if s = r then none else x.masterOf s := by
    rw [masterOf, hget']
    split_ifs
    · rfl
    · rfl
  have hof : x.masterOf r = c.object.keeps := by
    rw [masterOf, hget]
    rfl
  -- no other reference to it is left
  have hcount := hx.count r c hc
  rw [hlast, Multiset.count_cons_self] at hcount
  have hheld : r ∉ x.held := Multiset.count_eq_zero.mp (by omega)
  have howed : r ∉ owed := Multiset.count_eq_zero.mp (by omega)
  have hkeepers : x.keepers r = ∅ := Finset.card_eq_zero.mp (by omega)
  have hkept {s : Ref} (h : x.masterOf s = some r) : False := by
    rw [← hx.mem_keepers, hkeepers] at h
    exact Finset.notMem_empty s h
  have hcard (s : Ref) : ((x.decref r).keepers s).card + c.object.refs.count s = (x.keepers s).card := by
    have herase : (x.decref r).keepers s = (x.keepers s).erase r := by
      ext t
      rw [keepers, Finset.mem_filter, hmasterOf, Finset.mem_erase, keepers, Finset.mem_filter]
      by_cases ht : t = r
      · rw [if_pos ht]
        simp [ht]
      · rw [if_neg ht]
        show t ∈ Finset.range x.fresh ∧ _ ↔ _
        rw [and_iff_right (show t ≠ r from ht)]
    rw [herase, Object.refs, ← hof]
    cases hm : x.masterOf r with
    | none =>
      have hnot : r ∉ x.keepers s := by
        rw [hx.mem_keepers, hm]
        exact fun h => by cases h
      rw [Finset.erase_eq_of_notMem hnot]
      rfl
    | some m =>
      by_cases hs : m = s
      · have hmem : r ∈ x.keepers s := hx.mem_keepers.mpr (hs ▸ hm)
        have hone : 0 < (x.keepers s).card := Finset.card_pos.mpr ⟨r, hmem⟩
        rw [Finset.card_erase_of_mem hmem, hs]
        show (x.keepers s).card - 1 + Multiset.count s {s} = _
        rw [Multiset.count_singleton_self]
        omega
      · have hnot : r ∉ x.keepers s := by
          rw [hx.mem_keepers, hm]
          exact fun h => hs (Option.some.inj h)
        rw [Finset.erase_eq_of_notMem hnot]
        show (x.keepers s).card + Multiset.count s {m} = _
        rw [Multiset.count_singleton, if_neg (Ne.symm hs), Nat.add_zero]
  have hmasterAt {m : Ref} (hm : m ≠ r) : (x.decref r).masterAt m = x.masterAt m := by
    rw [masterAt, hget', if_neg hm]
    rfl
  constructor
  · intro s d hd
    have hs : s ≠ r := by
      rintro rfl
      rw [hself] at hd
      cases hd
    have hold := hx.count s d (cells_decref_of_ne hs ▸ hd)
    have hmove := hcard s
    rw [Multiset.count_cons_of_ne hs] at hold
    rw [Multiset.count_add]
    show d.count = x.held.count s + _ + _
    omega
  · intro s d hd
    have hs : s ≠ r := by
      rintro rfl
      rw [hself] at hd
      cases hd
    exact hx.used s d (cells_decref_of_ne hs ▸ hd)
  · intro s hs
    have hlive : s ≠ r ∧ x.cells s ≠ none := by
      rcases hs with hs | hs
      · exact ⟨fun h => hheld (h ▸ hs), hx.live s (Or.inl hs)⟩
      · rcases Multiset.mem_add.mp hs with hs | hs
        · have hm : x.masterOf r = some s := by
            rw [hof]
            exact Object.mem_refs.mp hs
          have hat := hx.master r s hm
          obtain ⟨k, hk⟩ := Option.ne_none_iff_exists'.mp hat
          obtain ⟨d, hd, -⟩ := cell_of_get (masterAt_eq_some.mp hk)
          exact ⟨fun h => hkept (h ▸ hm), hd ▸ Option.some_ne_none d⟩
        · exact ⟨fun h => howed (h ▸ hs), hx.live s (Or.inr (Multiset.mem_cons_of_mem hs))⟩
    rw [cells_decref_of_ne hlive.1]
    exact hlive.2
  · intro s m hm
    rw [hmasterOf] at hm
    split_ifs at hm with hs
    have hne : m ≠ r := fun h => hkept (h ▸ hm)
    rw [hmasterAt hne]
    exact hx.master s m hm
  · intro s h m hs
    rw [hget'] at hs
    split_ifs at hs
    exact hx.handle s h m hs
  · intro s hs
    by_cases he : s = r
    · exact he ▸ hself
    · rw [cells_decref_of_ne he]
      exact hx.fresh s hs

/-! ### Another object of the class in its place -/

theorem get_write {o' : Object Ref} (hget : x.get r = some o) (s : Ref) :
    (x.write r o').get s = if s = r then some o' else x.get s := by
  obtain ⟨c, hc, -⟩ := cell_of_get hget
  rw [get_eq, write]
  dsimp only
  split_ifs with hs
  · rw [hs, Function.update_self, hc]
    rfl
  · rw [Function.update_of_ne hs]
    rfl

theorem masterAt_write {o' : Object Ref} (hget : x.get r = some o) (hold : ∀ k, o ≠ .masterKey k)
    (hnew : ∀ k, o' ≠ .masterKey k) : (x.write r o').masterAt = x.masterAt := by
  funext s
  by_cases hs : s = r
  · subst hs
    have hnone {y : Interpreter} {o : Object Ref} (h : y.get s = some o) (ho : ∀ k, o ≠ .masterKey k) :
        y.masterAt s = none := by
      cases hk : y.masterAt s with
      | none => rfl
      | some k => exact absurd (Option.some.inj (h.symm.trans (masterAt_eq_some.mp hk))) (ho k)
    have hwritten : (x.write s o').get s = some o' := by rw [get_write hget, if_pos rfl]
    rw [hnone hwritten hnew, hnone hget hold]
  · rw [masterAt, get_write hget, if_neg hs]
    rfl

theorem Counted.write {o' : Object Ref} (hx : Counted owed x) (hget : x.get r = some o)
    (hold : ∀ k, o ≠ .masterKey k) (hnew : ∀ k, o' ≠ .masterKey k) (hkeeps : o'.keeps = o.keeps)
    (hhandle : ∀ h m, o' = .secretStore (some h) m → h.master = m) : Counted owed (x.write r o') := by
  have hof : (x.write r o').masterOf = x.masterOf := by
    funext s
    rw [masterOf, masterOf, get_write hget]
    split_ifs with hs
    · rw [hs, hget]
      exact hkeeps
    · rfl
  have hat := masterAt_write hget hold hnew
  have hkeep : (x.write r o').keepers = x.keepers := keepers_congr hof rfl
  have hcell (s : Ref) (c' : Cell) (hc' : (x.write r o').cells s = some c') :
      ∃ c, x.cells s = some c ∧ c'.count = c.count := by
    unfold Interpreter.write at hc'
    by_cases hs : s = r
    · subst hs
      dsimp only at hc'
      rw [Function.update_self] at hc'
      obtain ⟨c, hc, rfl⟩ := Option.map_eq_some_iff.mp hc'
      exact ⟨c, hc, rfl⟩
    · dsimp only at hc'
      rw [Function.update_of_ne hs] at hc'
      exact ⟨c', hc', rfl⟩
  have hsame (s : Ref) : (x.write r o').cells s = none ↔ x.cells s = none := by
    unfold Interpreter.write
    by_cases hs : s = r
    · subst hs
      dsimp only
      rw [Function.update_self, Option.map_eq_none_iff]
    · dsimp only
      rw [Function.update_of_ne hs]
  constructor
  · intro s c' hc'
    obtain ⟨c, hc, hcount⟩ := hcell s c' hc'
    rw [hkeep, hcount]
    exact hx.count s c hc
  · intro s c' hc'
    obtain ⟨c, hc, hcount⟩ := hcell s c' hc'
    exact hcount ▸ hx.used s c hc
  · intro s hs
    exact mt (hsame s).mp (hx.live s hs)
  · intro s m hm
    rw [hat]
    exact hx.master s m (hof ▸ hm)
  · intro s h m hs
    rw [get_write hget] at hs
    split_ifs at hs with he
    · exact hhandle h m (Option.some.inj hs)
    · exact hx.handle s h m hs
  · intro s hs
    exact (hsame s).mpr (hx.fresh s hs)

end Interpreter
end Krypto.Python
