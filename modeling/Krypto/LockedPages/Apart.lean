import Krypto.LockedPages
import Mathlib.Data.Set.Lattice
import Mathlib.Order.CompletePartialOrder
import Mathlib.Order.Interval.Set.Disjoint

/-! The layout of one secret, and of all the secrets of a process: its threads make
and drop them in any order, and none shares a page with another. -/

namespace Krypto.LockedPages
open Effect Memory

/-! ### One secret -/

section One
variable {size len : ℕ} {x : LockedPages}

structure Tiles (size len : ℕ) (x : LockedPages) : Prop where
  bytes : x.len = len
  wraps : x.map + x.mapLen ≤ 2 ^ 64
  tiled : Set.Ico x.map (x.map + size) ∪ Set.Ico (x.map + size) (x.map + size + dataLen size len) ∪
    Set.Ico (x.map + size + dataLen size len) (x.map + size + dataLen size len + size) =
      Set.Ico x.map (x.map + x.mapLen)
  front_data : Disjoint (Set.Ico x.map (x.map + size))
    (Set.Ico (x.map + size) (x.map + size + dataLen size len))
  front_back : Disjoint (Set.Ico x.map (x.map + size))
    (Set.Ico (x.map + size + dataLen size len) (x.map + size + dataLen size len + size))
  data_back : Disjoint (Set.Ico (x.map + size) (x.map + size + dataLen size len))
    (Set.Ico (x.map + size + dataLen size len) (x.map + size + dataLen size len + size))
  whole : size ∣ x.map ∧ size ∣ dataLen size len
  inside : Set.Ico x.data (x.data + x.len) ⊆ Set.Ico (x.map + size) (x.map + size + dataLen size len)
  ends : x.data + x.len = x.map + size + dataLen size len
  gap : x.map + size ≤ x.data ∧ x.data - (x.map + size) < size

theorem tiles_of_layout (hx : Layout size len x) (hpos : 0 < size) : Tiles size len x := by
  obtain ⟨hle, hlt⟩ := dataLen_bounds len hpos
  obtain ⟨hbytes, haligned, htiles, hfits, hends⟩ := hx
  have hend : x.map + size + dataLen size len + size = x.map + x.mapLen := by omega
  refine ⟨hbytes, hfits, ?_, ?_, ?_, ?_, ⟨Nat.dvd_of_mod_eq_zero haligned, ⟨_, Nat.mul_comm _ _⟩⟩, ?_, ?_, ?_⟩
  · rw [Set.Ico_union_Ico_eq_Ico (by omega) (by omega), Set.Ico_union_Ico_eq_Ico (by omega) (by omega), hend]
  · exact Set.Ico_disjoint_Ico_same
  · rw [Set.Ico_disjoint_Ico]
    omega
  · exact Set.Ico_disjoint_Ico_same
  · rw [hbytes]
    exact Set.Ico_subset_Ico (by omega) (by omega)
  · rw [hbytes]
    exact hends
  · omega

end One

/-! ### The secrets of a party -/

section Party
variable {ι : Type} {size : ℕ} {i : ι} {v w : Space ι} {x : LockedPages} {h : List LockedPages}

structure Held (size : ℕ) (i : ι) (v : Space ι) (x : LockedPages) : Prop where
  layout : x = noPages ∨ ∃ len, 0 < len ∧ Layout size len x
  pages : ∀ p ∈ x.pages size, v p = some (x.page i size p)

structure Holds (size : ℕ) (i : ι) (v : Space ι) (h : List LockedPages) : Prop where
  held : ∀ x ∈ h, Held size i v x
  apart : h.Pairwise fun x y => Disjoint (x.pages size) (y.pages size)

theorem Held.mapped (hx : Held size i v x) : ∀ p ∈ x.pages size, v p ≠ none := by
  intro p hp
  rw [hx.pages p hp]
  exact Option.some_ne_none _

theorem Held.of_same (hx : Held size i v x) (hsame : ∀ p ∈ x.pages size, w p = v p) : Held size i w x :=
  ⟨hx.layout, fun p hp => (hsame p hp).trans (hx.pages p hp)⟩

theorem Holds.kept (hh : Holds size i v h) (hkept : Kept v w) : Holds size i w h :=
  ⟨fun x hx => (hh.held x hx).of_same fun p hp => hkept p ((hh.held x hx).mapped p hp), hh.apart⟩

theorem Holds.sublist {h' : List LockedPages} (hh : Holds size i v h) (hsub : h'.Sublist h) :
    Holds size i v h' :=
  ⟨fun x hx => hh.held x (hsub.subset hx), hh.apart.sublist hsub⟩

theorem pages_noPages (size : ℕ) : noPages.pages size = ∅ := pages_zero size dangling

theorem held_noPages : Held size i v noPages := by
  refine ⟨Or.inl rfl, fun p hp => ?_⟩
  rw [pages_noPages] at hp
  exact absurd hp (Finset.notMem_empty p)

theorem Holds.cons {len : ℕ} (hh : Holds size i v h) (hlen : 0 < len) (hx : Layout size len x)
    (hfree : ∀ p ∈ x.pages size, v p = none) : Holds size i (x.added i size v) (x :: h) := by
  have hapart : ∀ y ∈ h, Disjoint (x.pages size) (y.pages size) := by
    intro y hy
    apply Finset.disjoint_left.mpr
    intro p hp hpy
    exact (hh.held y hy).mapped p hpy (hfree p hp)
  have hkept : Kept v (x.added i size v) := by
    intro p hp
    exact if_neg fun hx => hp (hfree p hx)
  refine ⟨?_, List.pairwise_cons.mpr ⟨hapart, hh.apart⟩⟩
  intro y hy
  obtain rfl | hy := List.mem_cons.mp hy
  · exact ⟨Or.inr ⟨len, hlen, hx⟩, fun p hp => if_pos hp⟩
  · exact (hh.kept hkept).held y hy

theorem Holds.eraseIdx {n : ℕ} (hh : Holds size i v h) (hn : h[n]? = some x)
    (hsame : ∀ p ∉ x.pages size, w p = v p) : Holds size i w (h.eraseIdx n) := by
  obtain ⟨hlt, rfl⟩ := List.getElem?_eq_some_iff.mp hn
  have hperm := List.getElem_cons_eraseIdx_perm hlt
  have hall := (hperm.pairwise_iff fun hab => Disjoint.symm hab).mpr hh.apart
  obtain ⟨hothers, hrest⟩ := List.pairwise_cons.mp hall
  refine ⟨fun y hy => ?_, hrest⟩
  apply (hh.held y (List.mem_of_mem_eraseIdx hy)).of_same
  intro p hp
  exact hsame p (Finset.disjoint_right.mp (hothers y hy) hp)

end Party

/-! ### The threads of a process -/

section Threads
variable {ι : Type} [DecidableEq ι]

inductive Request where
  | new (len : UInt64)
  | drop (n : ℕ)

def serve : Server Syscall.Reply Error Request (Except Error Unit) (List LockedPages)
  | .new len, h => do
    match ← (new len.toNat).attempt with
    | .ok x => pure (.ok (), x :: h)
    | .error e => pure (.error e, h)
  | .drop n, h =>
    match h[n]? with
    | some x => do
      x.drop
      pure (.ok (), h.eraseIdx n)
    | none => pure (.ok (), h)

/-- The threads of one process; whoever else maps pages leaves theirs alone. -/
def threads (ι : Type) [DecidableEq ι] (size : ℕ) : Parties ι Syscall.Reply Error Request (Except Error Unit)
    (List LockedPages) (Space ι) (List (Event Syscall.Reply)) where
  machine := kernel size
  env _ _ _ := True
  serve := serve
  record _ _ _ _ g := g
  outside g g' := ∀ i, Same i g g'

def kept : Request → List LockedPages → List LockedPages
  | .new _, h => h
  | .drop n, h => h.eraseIdx n

variable (size : ℕ)

def Idle (i : ι) (h : List LockedPages) (s : Space ι × List (Event Syscall.Reply)) : Prop :=
  Holds size i (s.1.view i) h

def Amid (i : ι) (q : Request) (h : List LockedPages) (s : Space ι × List (Event Syscall.Reply)) : Prop :=
  Holds size i (s.1.view i) (kept q h)

def Finished (i : ι) (q : Request) (h : List LockedPages)
    (r : Outcome Error (Except Error Unit × List LockedPages)) (s : Space ι × List (Event Syscall.Reply)) : Prop :=
  ∃ a h', r = .ok (a, h') ∧ (kept q h).Sublist h' ∧ Holds size i (s.1.view i) h'

variable {size} {i : ι} {h : List LockedPages} {s : Space ι × List (Event Syscall.Reply)}

theorem new_serves {k : ℕ} (hk : k ≤ 62) (hsize : size = 2 ^ k) (len : UInt64) (hh : Idle size i h s) :
    Among size i (Amid size i (.new len) h) (serve (.new len) h) (Finished size i (.new len) h) s := by
  obtain ⟨g, l⟩ := s
  have hpos : 0 < size := hsize ▸ Nat.two_pow_pos k
  apply rg_bind relies_self
  apply rg_attempt
  apply (new_among hk hsize len.toNat_lt rfl fun t l hkept => hh.kept hkept).imp
  rintro r t hmade
  cases hmade with
  | empty hlen view =>
    rintro u ⟨hsame, hlog, -⟩
    have hview : u.1.view i = g.view i := hsame.symm.trans view
    refine ⟨_, _, rfl, List.sublist_cons_self _ _, ?_, ?_⟩
    · intro y hy
      obtain rfl | hy := List.mem_cons.mp hy
      · exact held_noPages
      · rw [hview]
        exact Holds.held hh y hy
    · refine List.pairwise_cons.mpr ⟨fun y hy => ?_, Holds.apart hh⟩
      rw [pages_noPages]
      exact Finset.disjoint_empty_left _
  | tooLarge hlen past view =>
    rintro u ⟨hsame, hlog, -⟩
    refine ⟨_, _, rfl, List.Sublist.refl h, ?_⟩
    rw [show u.1.view i = g.view i from hsame.symm.trans view]
    exact hh
  | made hlen fits layout free view =>
    rintro u ⟨hsame, hlog, -⟩
    refine ⟨_, _, rfl, List.sublist_cons_self _ _, ?_⟩
    rw [show u.1.view i = _ from hsame.symm.trans view]
    exact Holds.cons hh hlen layout free
  | refused hlen refused kept =>
    rintro u ⟨hsame, hlog, -⟩
    refine ⟨_, _, rfl, List.Sublist.refl h, ?_⟩
    rw [← show _ = u.1.view i from hsame]
    exact Holds.kept hh kept

theorem drop_serves (n : ℕ) (hh : Idle size i h s) :
    Among size i (Amid size i (.drop n) h) (serve (.drop n) h) (Finished size i (.drop n) h) s := by
  obtain ⟨g, l⟩ := s
  rw [serve]
  cases hn : h[n]? with
  | none =>
    rintro u ⟨hsame, hlog, -⟩
    have hall : h.eraseIdx n = h := List.eraseIdx_of_length_le (List.getElem?_eq_none_iff.mp hn)
    refine ⟨_, _, rfl, ?_, ?_⟩
    · rw [kept, hall]
    · rw [← show _ = u.1.view i from hsame]
      exact hh
  | some x =>
    apply rg_bind relies_self
    have hx := hh.held x (List.mem_of_getElem? hn)
    apply (drop_among rfl hx.mapped _).imp
    · rintro r t ⟨rfl, -, hothers⟩
      rintro u ⟨hsame, hlog, -⟩
      refine ⟨_, _, rfl, List.Sublist.refl _, ?_⟩
      rw [← show _ = u.1.view i from hsame]
      exact hh.eraseIdx hn hothers
    · intro t ht
      unfold Amid
      rw [ht]
      exact hh.sublist (List.eraseIdx_sublist h n)

/-- What every thread keeps, and may rely on the others to keep. -/
theorem discipline {k : ℕ} (hk : k ≤ 62) (hsize : size = 2 ^ k) :
    (threads ι size).Discipline Same (fun _ => True) (Idle size) (Amid size) (Finished size) where
  refl i g := rfl
  trans i := fun hab hbc => hab.trans hbc
  idle i h g g' l hidle hsame _ := by
    unfold Idle at hidle ⊢
    rwa [← show g.view i = g'.view i from hsame]
  start i q h g l _ hidle := by
    cases q with
    | new len => exact new_serves hk hsize len hidle
    | drop n => exact drop_serves n hidle
  answer i q h a h' g l _ hdone := by
    obtain ⟨a', h'', he, -, hholds⟩ := hdone
    obtain ⟨rfl, rfl⟩ := Prod.mk.inj (Outcome.ok.inj he)
    exact ⟨trivial, fun j hj => rfl, hholds⟩
  outside g g' _ hsame := ⟨trivial, hsame⟩

abbrev Process (ι : Type) := World ι Syscall.Reply Error Request (Except Error Unit) (List LockedPages)
  (Space ι) (List (Event Syscall.Reply))

/-- The secrets that a thread has, during a request those it keeps. -/
def live (w : Process ι) (i : ι) : List LockedPages :=
  match w.status i with
  | .idle h => h
  | .running q h _ => kept q h

theorem choice_total (op : Syscall) : ∃ _ : Choice op, True := by
  cases op with
  | sysconf => exact ⟨true, trivial⟩
  | mmap len => exact ⟨Except.ok 0, trivial⟩
  | change kind addr len => exact ⟨(none : Ending), trivial⟩
  | munmap addr len => exact ⟨(none : Ending), trivial⟩

theorem live_holds {k : ℕ} (hk : k ≤ 62) (hsize : size = 2 ^ k) {w₀ w : Process ι}
    (hstart : ∀ i, w₀.status i = .idle []) (hrun : (threads ι size).Runs w₀ w) (i : ι) :
    Holds size i (w.shared.view i) (live w i) := by
  have hfirst : (threads ι size).Disciplined Same (fun _ => True) (Idle size) (Amid size) (Finished size) w₀ := by
    refine ⟨trivial, fun i => ?_⟩
    rw [hstart i]
    exact ⟨by simp, List.Pairwise.nil⟩
  have hw := (discipline hk hsize).runs hfirst hrun
  unfold live
  cases hst : w.status i with
  | idle h =>
    have hi := hw.party i
    rw [hst] at hi
    exact hi
  | running q h p =>
    rcases hw.mid (discipline hk hsize) (fun _ => choice_total) hst with
      ⟨op, next, rfl, hamid⟩ | ⟨r, rfl, a, h', rfl, hsub, hholds⟩
    · exact hamid
    · exact hholds.sublist hsub

theorem mapped_of_view {s : Space ι} {p : ℕ} {page : Page ι} (h : s.view i p = some page) :
    s p = some page := (Option.filter_eq_some_iff.mp h).1

theorem views_apart {s : Space ι} {j : ι} {p : ℕ} (hi : s.view i p ≠ none) (hj : s.view j p ≠ none) :
    i = j := by
  by_contra hne
  exact hj (Space.view_other hi fun he => hne he.symm)

/-- The layout of a secret's pages. A call of `new` says that the secret is too large exactly where
the sizes do not fit, fails where a call of the system did, and else has mapped a guard, the data
pages and a guard, with the bytes at the end of the data, and has protected these ranges and no
others. In a process whose threads make and drop secrets in any order, every secret is on protected
pages of its own. -/
theorem layout_is_right {size k : ℕ} (hk : k ≤ 62) (hsize : size = 2 ^ k) :
    (∀ (i : ι) (len : ℕ) (s s' : Space ι × List (Event Syscall.Reply)) (r : Outcome Error LockedPages),
      0 < len → len < 2 ^ 64 → Ends (kernel size i) (fun _ _ => True) (new len) s r s' →
        (r = .err (tooLarge len) ∧ (2 ^ 64 ≤ dataLen size len ∨ 2 ^ 64 ≤ dataLen size len + 2 * size) ∧
          s'.2 = s.2 ++ [⟨.sysconf, (size : ℤ)⟩]) ∨
        (∃ x, r = .ok x ∧ dataLen size len + 2 * size < 2 ^ 64 ∧ Tiles size len x ∧
          s'.2 = s.2 ++ [⟨.sysconf, (size : ℤ)⟩, ⟨.mmap x.mapLen, Except.ok x.map⟩,
            ⟨.change .mprotect x.map size, Except.ok ()⟩,
            ⟨.change .mprotect (x.map + size + dataLen size len) size, Except.ok ()⟩,
            ⟨.change .mlock (x.map + size) (dataLen size len), Except.ok ()⟩,
            ⟨.change .madvise (x.map + size) (dataLen size len), Except.ok ()⟩]) ∨
        ∃ e more ev, r = .err e ∧ e ≠ tooLarge len ∧ s'.2 = s.2 ++ more ∧ ev ∈ more ∧ Failed ev) ∧
    ∀ w₀ w : Process ι, (∀ i, w₀.status i = .idle []) → (threads ι size).Runs w₀ w →
      (∀ i, ∀ x ∈ live w i, ∀ p ∈ x.pages size, w.shared p = some (x.page i size p)) ∧
      (∀ i, (live w i).Pairwise fun x y => Disjoint (x.pages size) (y.pages size)) ∧
      ∀ i j, i ≠ j → ∀ x ∈ live w i, ∀ y ∈ live w j, Disjoint (x.pages size) (y.pages size) := by
  have hpos : 0 < size := hsize ▸ Nat.two_pow_pos k
  refine ⟨?_, ?_⟩
  · rintro i len ⟨g, l⟩ ⟨g', l'⟩ r hlen hlt hrun
    have hmade := (new_among hk hsize hlt rfl (fun _ _ _ => trivial) :
      Among size i (fun _ => True) (new len) (Made size i len (g.view i) l) (g, l)).ends
        (fun s => ⟨rfl, rfl, trivial⟩) hrun
    cases hmade with
    | empty hzero => omega
    | tooLarge _ hover _ => exact Or.inl ⟨rfl, Or.inr hover, rfl⟩
    | made _ hfits hlayout _ _ => exact Or.inr (Or.inl ⟨_, rfl, hfits, tiles_of_layout hlayout hpos, rfl⟩)
    | refused _ hrefused _ =>
      obtain ⟨⟨more, ev, hlog, hev, hfailed⟩, hother⟩ := hrefused
      exact Or.inr (Or.inr ⟨_, more, ev, rfl, hother, hlog, hev, hfailed⟩)
  · intro w₀ w hstart hrun
    have hholds := live_holds hk hsize hstart hrun
    refine ⟨fun i x hx p hp => ?_, fun i => (hholds i).apart, fun i j hij x hx y hy => ?_⟩
    · exact mapped_of_view (((hholds i).held x hx).pages p hp)
    · apply Finset.disjoint_left.mpr
      intro p hp hpy
      exact hij (views_apart (((hholds i).held x hx).mapped p hp) (((hholds j).held y hy).mapped p hpy))

def granting : (op : Syscall) → Choice op
  | .sysconf => true
  | .mmap _ => (.ok 65536 : Except String ℕ)
  | .change _ _ _ | .munmap _ _ => (none : Ending)

/-- A hundred bytes on pages of 4096, in a mapping of three of them. -/
theorem layout_is_right_hundred : ∃ s', Ends (kernel 4096 ()) (fun _ _ => True) (new 100)
    ((fun _ => none), []) (.ok ⟨65536, 12288, 73628, 100⟩) s' ∧ Tiles 4096 100 ⟨65536, 12288, 73628, 100⟩ := by
  obtain ⟨s', hrun⟩ := ends_of_play (M := kernel 4096 ()) (E := fun _ _ => True) granting (fun _ => trivial)
    (p := new 100) (s := ((fun _ => none), [])) (r := .ok ⟨65536, 12288, 73628, 100⟩)
    (by decide +kernel)
  obtain ⟨h, -⟩ | ⟨x, h, -, htiles, -⟩ | ⟨e, -, -, h, -⟩ :=
    (@layout_is_right Unit _ 4096 12 (by decide) rfl).1 () 100 _ s' _ (by decide) (by decide) hrun
  · cases h
  · cases h
    exact ⟨s', hrun, htiles⟩
  · cases h

end Threads

end Krypto.LockedPages
