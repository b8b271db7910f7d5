import Krypto.Effect.Parties
import Mathlib.Data.Finset.Basic
import Mathlib.Order.Interval.Finset.Nat

/-! The address space of a process whose parties share it: which pages are
mapped, by whom, and how they are protected. The system chooses where a mapping
goes, and any call may fail. -/

namespace Krypto.Effect.Memory

structure Page (ι : Type) where
  owner : Option ι
  access : Bool
  locked : Bool
  dumped : Bool
  deriving DecidableEq

abbrev Space (ι : Type) := ℕ → Option (Page ι)

/-- What can be asked for a range: `PROT_NONE`, a lock, `MADV_DONTDUMP`. -/
inductive Change where
  | mprotect
  | mlock
  | madvise
  deriving DecidableEq

def Change.apply {ι : Type} : Change → Page ι → Page ι
  | mprotect, page => { page with access := false }
  | mlock, page => { page with locked := true }
  | madvise, page => { page with dumped := false }

@[simp] theorem Change.apply_owner {ι : Type} (kind : Change) (page : Page ι) :
    (kind.apply page).owner = page.owner := by
  cases kind
  all_goals rfl

inductive Syscall where
  | sysconf
  | mmap (len : ℕ)
  | change (kind : Change) (addr len : ℕ)
  | munmap (addr len : ℕ)
  deriving DecidableEq

def Syscall.Reply : Syscall → Type
  | sysconf => ℤ
  | mmap _ => Except String ℕ
  | change _ _ _ | munmap _ _ => Except String Unit

def pages (size addr len : ℕ) : Finset ℕ :=
  if len = 0 then ∅ else Finset.Ico (addr / size) ((addr + len + size - 1) / size)

@[simp] theorem pages_zero (size addr : ℕ) : pages size addr 0 = ∅ := if_pos rfl

theorem pages_whole {size : ℕ} (hsize : 0 < size) (a n : ℕ) :
    pages size (a * size) (n * size) = Finset.Ico a (a + n) := by
  unfold pages
  split_ifs with hn
  · obtain rfl : n = 0 := (Nat.mul_eq_zero.mp hn).resolve_right hsize.ne'
    simp
  · have hlast : (a * size + n * size + size - 1) / size = a + n := by
      rw [← Nat.add_mul, Nat.add_sub_assoc hsize, Nat.mul_comm, Nat.mul_add_div hsize,
        Nat.div_eq_of_lt (by omega), Nat.add_zero]
    rw [Nat.mul_div_cancel _ hsize, hlast]

namespace Space
variable {ι : Type}

def map (s : Space ι) (range : Finset ℕ) (page : Page ι) : Space ι :=
  fun p => if p ∈ range then some page else s p

def change (s : Space ι) (range : Finset ℕ) (f : Page ι → Page ι) : Space ι :=
  fun p => if p ∈ range then (s p).map f else s p

def clear (s : Space ι) (range : Finset ℕ) : Space ι := fun p => if p ∈ range then none else s p

theorem change_of_none {s : Space ι} {range : Finset ℕ} {f : Page ι → Page ι} (h : ∀ p ∈ range, s p = none) : s.change range f = s := by
  funext p
  unfold change
  split_ifs with hp
  · rw [h p hp]
    rfl
  · rfl

theorem clear_of_none {s : Space ι} {range : Finset ℕ} (h : ∀ p ∈ range, s p = none) : s.clear range = s := by
  funext p
  unfold clear
  split_ifs with hp
  · exact (h p hp).symm
  · rfl

def view [DecidableEq ι] (s : Space ι) (i : ι) : Space ι := fun p => (s p).filter fun page => page.owner = some i

section Views
variable [DecidableEq ι] {s : Space ι} {i j : ι} {range : Finset ℕ}

theorem view_change {f : Page ι → Page ι} (hf : ∀ page, (f page).owner = page.owner) :
    (s.change range f).view j = (s.view j).change range f := by
  funext p
  by_cases hp : p ∈ range
  · simp only [view, change, if_pos hp]
    cases s p with
    | none => rfl
    | some page =>
      rw [Option.map_some, Option.filter_some, Option.filter_some, hf]
      split_ifs
      · rfl
      · rfl
  · simp only [view, change, if_neg hp]

theorem view_clear : (s.clear range).view j = (s.view j).clear range := by
  funext p
  unfold view clear
  split_ifs
  · rfl
  · rfl

theorem view_other {p : ℕ} (h : s.view i p ≠ none) (hj : j ≠ i) : s.view j p = none := by
  obtain ⟨page, hpage⟩ := Option.ne_none_iff_exists'.mp h
  obtain ⟨hp, howner⟩ := Option.filter_eq_some_iff.mp hpage
  have hother : ¬page.owner = some j := by
    rw [of_decide_eq_true howner]
    exact fun he => hj (Option.some.inj he).symm
  rw [view, hp, Option.filter_some, if_neg (by simpa using hother)]

theorem view_of_none {p : ℕ} (h : s p = none) : s.view j p = none := by
  rw [view, h]
  rfl

theorem view_map_self {page : Page ι} (h : page.owner = some i) :
    (s.map range page).view i = (s.view i).map range page := by
  funext p
  unfold view map
  split_ifs
  · rw [Option.filter_some, if_pos (decide_eq_true h)]
  · rfl

theorem view_map_other {page : Page ι} (h : page.owner = some i) (hj : j ≠ i)
    (hfree : ∀ p ∈ range, s p = none) : (s.map range page).view j = s.view j := by
  funext p
  by_cases hp : p ∈ range
  · have hother : ¬page.owner = some j := by
      rw [h]
      exact fun he => hj (Option.some.inj he).symm
    rw [view_of_none (hfree p hp)]
    unfold view map
    rw [if_pos hp, Option.filter_some, if_neg (by simpa using hother)]
  · unfold view map
    rw [if_neg hp]

end Views
end Space

/-- How a call on a range ends: it goes through, or fails after it has reached some of the pages. -/
abbrev Ending := Option (String × Finset ℕ)

section Kernel
variable {ι : Type} (size : ℕ) (i : ι)

def Choice : Syscall → Type
  | .sysconf => Bool
  | .mmap _ => Except String ℕ
  | .change _ _ _ | .munmap _ _ => Ending

def invalid : String := "Invalid argument (os error 22)"

def noMemory : String := "Cannot allocate memory (os error 12)"

def fresh : Page ι := { owner := some i, access := true, locked := false, dumped := true }

def step : (op : Syscall) → Choice op → Space ι → op.Reply × Space ι
  | .sysconf, true, s => ((size : ℤ), s)
  | .sysconf, false, s => ((-1 : ℤ), s)
  | .mmap _, .error e, s => (.error e, s)
  | .mmap len, .ok addr, s =>
    -- a mapping is whole pages, does not wrap, and goes where nothing is mapped
    if addr % size = 0 ∧ addr + len ≤ 2 ^ 64 ∧ ∀ p ∈ pages size addr len, (s p).isNone then
      (.ok addr, s.map (pages size addr len) (fresh i))
    else
      (.error noMemory, s)
  | .change kind addr len, some (e, reached), s =>
    (.error e, s.change (pages size addr len ∩ reached) kind.apply)
  | .change kind addr len, none, s =>
    if addr % size = 0 then
      if ∀ p ∈ pages size addr len, (s p).isSome then
        (.ok (), s.change (pages size addr len) kind.apply)
      else
        (.error noMemory, s)
    else
      (.error invalid, s)
  | .munmap _ _, some (e, _), s => (.error e, s)
  | .munmap addr len, none, s =>
    if addr % size = 0 then (.ok (), s.clear (pages size addr len)) else (.error invalid, s)

def kernel : Machine Syscall.Reply (Space ι × List (Event Syscall.Reply)) where
  Choice := Choice
  step op c s := ((step size i op c s.1).1, (step size i op c s.1).2,
    s.2 ++ [⟨op, (step size i op c s.1).1⟩])

end Kernel

/-! ## What one party sees of its calls -/

section Rules
variable {ι ε α : Type} [DecidableEq ι] {size : ℕ} {i : ι}
  {Mid : Space ι × List (Event Syscall.Reply) → Prop}
  {Q : Outcome ε α → Space ι × List (Event Syscall.Reply) → Prop} {s v : Space ι}
  {l : List (Event Syscall.Reply)}

def Same (i : ι) (s t : Space ι) : Prop := s.view i = t.view i

/-- Every run of `p` of party `i` among others that leave its pages alone keeps `Mid` before each
call, leaves theirs alone and ends in `Q`. -/
abbrev Among (size : ℕ) (i : ι) (Mid : Space ι × List (Event Syscall.Reply) → Prop)
    (p : Prog Syscall.Reply ε α) (Q : Outcome ε α → Space ι × List (Event Syscall.Reply) → Prop)
    (s : Space ι × List (Event Syscall.Reply)) : Prop :=
  rg (kernel size i) (fun _ _ => True) (Parties.Relies Same (fun _ => True) i)
    (Parties.Guarantees Same (fun _ => True) Mid i) p Q s

/-- A call, from any state that looks the same to its party. -/
theorem among_perform {op : Syscall} {f : op.Reply → Prog Syscall.Reply ε α}
    (h : ∀ t, t.view i = v → ∀ c, Mid (t, l) ∧ (∀ j, j ≠ i → t.view j = (step size i op c t).2.view j) ∧
      Among size i Mid (f (step size i op c t).1) Q ((step size i op c t).2,
        l ++ [⟨op, (step size i op c t).1⟩])) (hs : s.view i = v) :
    Among size i Mid (Prog.perform op >>= f) Q (s, l) := by
  rintro ⟨t, l'⟩ ⟨hsame, hlog, -⟩ c -
  obtain rfl : l' = l := hlog
  obtain ⟨hmid, hothers, hnext⟩ := h t (hsame.symm.trans hs) c
  exact ⟨⟨hmid, trivial, hothers⟩, hnext⟩

theorem among_sysconf {f : Syscall.sysconf.Reply → Prog Syscall.Reply ε α} (hs : s.view i = v)
    (hmid : ∀ t, t.view i = v → Mid (t, l))
    (hok : ∀ t, t.view i = v → Among size i Mid (f (size : ℤ)) Q (t, l ++ [⟨.sysconf, (size : ℤ)⟩]))
    (herr : ∀ t, t.view i = v → Among size i Mid (f (-1 : ℤ)) Q (t, l ++ [⟨.sysconf, (-1 : ℤ)⟩])) :
    Among size i Mid (Prog.perform .sysconf >>= f) Q (s, l) := by
  apply among_perform _ hs
  intro t ht c
  refine ⟨hmid t ht, ?_⟩
  match c with
  | true => exact ⟨fun j hj => rfl, hok t ht⟩
  | false => exact ⟨fun j hj => rfl, herr t ht⟩

theorem among_mmap {len : ℕ} {f : (Syscall.mmap len).Reply → Prog Syscall.Reply ε α} (hs : s.view i = v)
    (hmid : ∀ t, t.view i = v → Mid (t, l))
    (hok : ∀ t addr, addr % size = 0 → addr + len ≤ 2 ^ 64 → (∀ p ∈ pages size addr len, v p = none) →
      t.view i = v.map (pages size addr len) (fresh i) →
      Among size i Mid (f (.ok addr)) Q (t, l ++ [⟨.mmap len, .ok addr⟩]))
    (herr : ∀ t e, t.view i = v → Among size i Mid (f (.error e)) Q (t, l ++ [⟨.mmap len, .error e⟩])) :
    Among size i Mid (Prog.perform (.mmap len) >>= f) Q (s, l) := by
  apply among_perform _ hs
  intro t ht c
  refine ⟨hmid t ht, ?_⟩
  match c with
  | .error e => exact ⟨fun j hj => rfl, herr t e ht⟩
  | .ok addr =>
    simp only [step]
    split_ifs with hfits
    · obtain ⟨haligned, hwraps, hfree⟩ := hfits
      have hnone : ∀ p ∈ pages size addr len, t p = none := fun p hp => Option.isNone_iff_eq_none.mp (hfree p hp)
      refine ⟨fun j hj => (Space.view_map_other rfl hj hnone).symm, ?_⟩
      apply hok _ addr haligned hwraps
      · intro p hp
        rw [← ht]
        exact Space.view_of_none (hnone p hp)
      · rw [Space.view_map_self rfl, ht]
    · exact ⟨fun j hj => rfl, herr t _ ht⟩

theorem among_change {kind : Change} {addr len : ℕ} {f : (Syscall.change kind addr len).Reply → Prog Syscall.Reply ε α}
    (hs : s.view i = v) (hmid : ∀ t, t.view i = v → Mid (t, l))
    (hmine : ∀ p ∈ pages size addr len, v p ≠ none)
    (hok : ∀ t, t.view i = v.change (pages size addr len) kind.apply →
      Among size i Mid (f (.ok ())) Q (t, l ++ [⟨.change kind addr len, .ok ()⟩]))
    (herr : ∀ t e reached, t.view i = v.change (pages size addr len ∩ reached) kind.apply →
      Among size i Mid (f (.error e)) Q (t, l ++ [⟨.change kind addr len, .error e⟩])) :
    Among size i Mid (Prog.perform (.change kind addr len) >>= f) Q (s, l) := by
  apply among_perform _ hs
  intro t ht c
  refine ⟨hmid t ht, ?_⟩
  have hothers (range : Finset ℕ) (hsub : range ⊆ pages size addr len) (j : ι) (hj : j ≠ i) :
      t.view j = (t.change range kind.apply).view j := by
    rw [Space.view_change kind.apply_owner, Space.change_of_none]
    intro p hp
    have hp' : t.view i p ≠ none := by
      rw [ht]
      exact hmine p (hsub hp)
    exact Space.view_other hp' hj
  have hsame : t.view i = v.change (pages size addr len ∩ ∅) kind.apply := by
    rw [ht, Finset.inter_empty, Space.change_of_none]
    exact fun p hp => absurd hp (Finset.notMem_empty p)
  have hview (range : Finset ℕ) : (t.change range kind.apply).view i = v.change range kind.apply := by
    rw [Space.view_change kind.apply_owner, ht]
  match c with
  | some (e, reached) => exact ⟨hothers _ Finset.inter_subset_left, herr _ e reached (hview _)⟩
  | none =>
    simp only [step]
    split_ifs
    · exact ⟨hothers _ (Finset.Subset.refl _), hok _ (hview _)⟩
    · exact ⟨fun j hj => rfl, herr t _ ∅ hsame⟩
    · exact ⟨fun j hj => rfl, herr t _ ∅ hsame⟩

theorem among_munmap {addr len : ℕ} {f : (Syscall.munmap addr len).Reply → Prog Syscall.Reply ε α}
    (hs : s.view i = v) (hmid : ∀ t, t.view i = v → Mid (t, l))
    (hmine : ∀ p ∈ pages size addr len, v p ≠ none)
    (hok : ∀ t, t.view i = v.clear (pages size addr len) →
      Among size i Mid (f (.ok ())) Q (t, l ++ [⟨.munmap addr len, .ok ()⟩]))
    (herr : ∀ t e, t.view i = v →
      Among size i Mid (f (.error e)) Q (t, l ++ [⟨.munmap addr len, .error e⟩])) :
    Among size i Mid (Prog.perform (.munmap addr len) >>= f) Q (s, l) := by
  apply among_perform _ hs
  intro t ht c
  refine ⟨hmid t ht, ?_⟩
  match c with
  | some (e, _) => exact ⟨fun j hj => rfl, herr t e ht⟩
  | none =>
    simp only [step]
    split_ifs
    · refine ⟨fun j hj => ?_, hok _ ?_⟩
      · rw [Space.view_clear, Space.clear_of_none]
        intro p hp
        have hp' : t.view i p ≠ none := by
          rw [ht]
          exact hmine p hp
        exact Space.view_other hp' hj
      · rw [Space.view_clear, ht]
    · exact ⟨fun j hj => rfl, herr t _ ht⟩

end Rules

end Krypto.Effect.Memory
