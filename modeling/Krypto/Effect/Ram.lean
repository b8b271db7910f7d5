import Krypto.Effect.Embed
import Krypto.Effect.Kernel
import Krypto.Effect.Memory
import Mathlib.Data.List.GetD

/-! What is in the memory that the parties of a process share: their pages hold bytes, which are
read and written where the pages allow it. A page that is unmapped keeps what is on it; a page
that is mapped is zero. -/

namespace Krypto.Effect.Memory

inductive Access where
  | sys (op : Syscall)
  | load (addr len : ℕ)
  | store (addr : ℕ) (data : Bytes)
  | getrandom (addr len : ℕ)

namespace Access

def Reply : Access → Type
  | sys op => op.Reply
  | load _ _ => Bytes
  | store _ _ => Unit
  | getrandom _ len => Except String (Fixed len)

/-- A draw that fails may have written any part. -/
def Choice : Access → Type
  | sys op => Memory.Choice op
  | load _ _ | store _ _ => Unit
  | getrandom _ len => Except (String × Bytes) (Fixed len)

def noted : (op : Access) → op.Reply → List (Event Syscall.Reply)
  | sys op, y => [⟨op, y⟩]
  | _, _ => []

end Access

def onSpace : Into Syscall.Reply Access.Reply where
  op := .sys
  back _ y := y

structure Ram (ι : Type) where
  space : Space ι
  bytes : ℕ → UInt8
  /-- An access was made that the pages do not allow. -/
  faulted : Bool

namespace Ram
variable {ι : Type} (size : ℕ)

def read (g : Ram ι) (addr len : ℕ) : Bytes := (List.range len).map fun k => g.bytes (addr + k)

def write (g : Ram ι) (addr : ℕ) (data : Bytes) : Ram ι :=
  { g with bytes := fun a => if addr ≤ a ∧ a < addr + data.length then data.getD (a - addr) 0 else g.bytes a }

def Reaches (g : Ram ι) (addr len : ℕ) : Prop := ∀ p ∈ pages size addr len, (g.space p).any Page.access = true

instance (g : Ram ι) (addr len : ℕ) : Decidable (g.Reaches size addr len) :=
  inferInstanceAs (Decidable (∀ p ∈ pages size addr len, _))

def remap (g : Ram ι) (s : Space ι) : Ram ι :=
  { g with
    space := s
    bytes := fun a => if (g.space (a / size)).isNone ∧ (s (a / size)).isSome then 0 else g.bytes a }

def badAddress : String := "Bad address (os error 14)"

def step (i : ι) : (op : Access) → op.Choice → Ram ι → op.Reply × Ram ι
  | .sys op, c, g => ((Memory.step size i op c g.space).1, g.remap size (Memory.step size i op c g.space).2)
  | .load addr len, _, g =>
    (g.read addr len, if g.Reaches size addr len then g else { g with faulted := true })
  | .store addr data, _, g =>
    ((), if g.Reaches size addr data.length then g.write addr data else { g with faulted := true })
  | .getrandom addr len, .ok b, g =>
    if g.Reaches size addr len then (.ok b, g.write addr b.toList) else (.error badAddress, g)
  | .getrandom addr len, .error (e, part), g =>
    (.error e, if g.Reaches size addr len then g.write addr (part.take len) else g)

end Ram

def ram {ι : Type} (size : ℕ) (i : ι) : Machine Access.Reply (Ram ι × List (Event Syscall.Reply)) where
  Choice := Access.Choice
  step op c s := ((Ram.step size i op c s.1).1, (Ram.step size i op c s.1).2,
    s.2 ++ op.noted (Ram.step size i op c s.1).1)

/-! ### Bytes -/

namespace Ram
variable {ι : Type} {size : ℕ} {g : Ram ι} {addr len a : ℕ} {data : Bytes}

theorem read_length : (g.read addr len).length = len := by
  rw [read, List.length_map, List.length_range]

theorem read_congr {g' : Ram ι} (h : ∀ a, addr ≤ a → a < addr + len → g'.bytes a = g.bytes a) :
    g'.read addr len = g.read addr len := by
  apply List.map_congr_left
  intro k hk
  exact h (addr + k) (Nat.le_add_right _ _) (Nat.add_lt_add_left (List.mem_range.mp hk) _)

theorem bytes_of_read {b : Bytes} (h : g.read addr len = b) (hle : addr ≤ a) (hlt : a < addr + len) :
    g.bytes a = b.getD (a - addr) 0 := by
  have hk : a - addr < len := by omega
  rw [← h, read, List.getD_eq_getElem _ _ (by rwa [List.length_map, List.length_range]), List.getElem_map,
    List.getElem_range]
  congr 1
  omega

theorem write_of_out (h : ¬(addr ≤ a ∧ a < addr + data.length)) : (g.write addr data).bytes a = g.bytes a :=
  if_neg h

theorem read_write : (g.write addr data).read addr data.length = data := by
  apply List.ext_getElem read_length
  intro k hk hk'
  have hin : addr ≤ addr + k ∧ addr + k < addr + data.length := ⟨Nat.le_add_right _ _, Nat.add_lt_add_left hk' _⟩
  simp only [read, write, List.getElem_map, List.getElem_range, if_pos hin, Nat.add_sub_cancel_left,
    List.getD_eq_getElem _ _ hk']

theorem mem_pages (hsize : 0 < size) (hle : addr ≤ a) (hlt : a < addr + len) : a / size ∈ pages size addr len := by
  unfold pages
  rw [if_neg (by omega), Finset.mem_Ico]
  refine ⟨Nat.div_le_div_right hle, ?_⟩
  rw [Nat.div_lt_iff_lt_mul hsize]
  have hdiv := Nat.div_add_mod (addr + len + size - 1) size
  have hmod := Nat.mod_lt (addr + len + size - 1) hsize
  rw [Nat.mul_comm] at hdiv
  omega

theorem pages_mono (size addr : ℕ) {m n : ℕ} (h : m ≤ n) : pages size addr m ⊆ pages size addr n := by
  unfold pages
  by_cases hm : m = 0
  · rw [if_pos hm]
    exact Finset.empty_subset _
  · rw [if_neg hm, if_neg (by omega)]
    exact Finset.Ico_subset_Ico (Nat.le_refl _) (Nat.div_le_div_right (by omega))

end Ram

/-! ### What one party sees, and what all keep -/

/-- A page that is reached, kept in memory, and in no dump. -/
def Page.Sealed {ι : Type} (page : Page ι) : Prop :=
  page.access = true ∧ page.locked = true ∧ page.dumped = false

section Views
variable {ι : Type} [DecidableEq ι]

def Looks (size : ℕ) (i : ι) (g g' : Ram ι) : Prop :=
  Same i g.space g'.space ∧ ∀ a, g.space.view i (a / size) ≠ none → g'.bytes a = g.bytes a

/-- Nothing went wrong, and what is not zero is on a sealed page of some party. -/
def Safe (size : ℕ) (g : Ram ι) : Prop :=
  g.faulted = false ∧ ∀ a, g.bytes a ≠ 0 → ∃ i page, g.space.view i (a / size) = some page ∧ page.Sealed

/-- A program of party `i` among others, on the memory: each leaves the pages and the bytes of the
others alone, and all keep the memory safe. -/
abbrev Amidst {ε α : Type} (size : ℕ) (i : ι) (Mid : Ram ι × List (Event Syscall.Reply) → Prop)
    (p : Prog Access.Reply ε α) (Q : Outcome ε α → Ram ι × List (Event Syscall.Reply) → Prop)
    (s : Ram ι × List (Event Syscall.Reply)) : Prop :=
  rg (ram size i) (fun _ _ => True) (Parties.Relies (Looks size) (Safe size) i)
    (Parties.Guarantees (Looks size) (Safe size) Mid i) p Q s

variable {size : ℕ} {i j : ι} {g g' g'' : Ram ι} {l : List (Event Syscall.Reply)}

theorem Looks.refl (size : ℕ) (i : ι) (g : Ram ι) : Looks size i g g := ⟨rfl, fun _ _ => rfl⟩

theorem Looks.trans (h : Looks size i g g') (h' : Looks size i g' g'') : Looks size i g g'' := by
  refine ⟨h.1.trans h'.1, fun a ha => ?_⟩
  have hview : g.space.view i = g'.space.view i := h.1
  exact (h'.2 a (hview ▸ ha)).trans (h.2 a ha)

theorem sealed_reaches {addr len : ℕ}
    (h : ∀ p ∈ pages size addr len, ∃ page, g.space.view i p = some page ∧ page.Sealed) :
    g.Reaches size addr len := by
  intro p hp
  obtain ⟨page, hview, haccess, -⟩ := h p hp
  rw [(Option.filter_eq_some_iff.mp hview).1]
  exact haccess

/-- A party writes to its own sealed pages. -/
theorem write_guarantees {addr : ℕ} {d : Bytes} (hsize : 0 < size)
    (hmine : ∀ p ∈ pages size addr d.length, ∃ page, g.space.view i p = some page ∧ page.Sealed)
    (hsafe : Safe size g) : Safe size (g.write addr d) ∧ ∀ j, j ≠ i → Looks size j g (g.write addr d) := by
  refine ⟨⟨hsafe.1, fun a ha => ?_⟩, fun j hj => ⟨rfl, fun a ha => ?_⟩⟩
  · by_cases hin : addr ≤ a ∧ a < addr + d.length
    · exact ⟨i, hmine _ (Ram.mem_pages hsize hin.1 hin.2)⟩
    · rw [Ram.write_of_out hin] at ha
      exact hsafe.2 a ha
  · apply Ram.write_of_out
    intro hin
    obtain ⟨page, hview, -⟩ := hmine _ (Ram.mem_pages hsize hin.1 hin.2)
    have hsome : g.space.view i (a / size) ≠ none := by
      rw [hview]
      exact Option.some_ne_none _
    exact ha (Space.view_other hsome hj)

section Rules
variable {ε α : Type} {Mid : Ram ι × List (Event Syscall.Reply) → Prop}
  {Q : Outcome ε α → Ram ι × List (Event Syscall.Reply) → Prop} {addr len : ℕ} {data : Bytes}

theorem amidst_self {a b : Ram ι × List (Event Syscall.Reply)}
    (h : Parties.Relies (Looks size) (Safe size) i a b) : Parties.Relies (Looks size) (Safe size) i b b :=
  ⟨Looks.refl size i _, rfl, h.2.2⟩

theorem amidst_done {r : Outcome ε α} (h : ∀ t, Looks size i g t → Q r (t, l)) :
    Amidst size i Mid (.done r) Q (g, l) := by
  rintro ⟨t, l'⟩ ⟨hlooks, rfl, -⟩
  exact h t hlooks

theorem amidst_store {f : (Access.store addr data).Reply → Prog Access.Reply ε α} (hsize : 0 < size)
    (hmine : ∀ p ∈ pages size addr data.length, ∃ page, g.space.view i p = some page ∧ page.Sealed)
    (hmid : ∀ t, Looks size i g t → Mid (t, l))
    (h : ∀ t, Looks size i g t → Amidst size i Mid (f ()) Q (t.write addr data, l)) :
    Amidst size i Mid (Prog.perform (.store addr data) >>= f) Q (g, l) := by
  rintro ⟨t, l'⟩ ⟨hlooks, hlog, hsafe⟩ c -
  obtain rfl : l' = l := hlog
  have hview : g.space.view i = t.space.view i := hlooks.1
  rw [hview] at hmine
  obtain ⟨hsafe', hothers⟩ := write_guarantees hsize hmine hsafe
  have hstep : (ram size i).step (.store addr data) c (t, l') = ((), t.write addr data, l') := by
    show (_, (if t.Reaches size addr data.length then _ else _), l' ++ []) = _
    rw [if_pos (sealed_reaches hmine), List.append_nil]
    rfl
  rw [hstep]
  exact ⟨⟨hmid t hlooks, hsafe', hothers⟩, h t hlooks⟩

theorem amidst_load {f : (Access.load addr len).Reply → Prog Access.Reply ε α}
    (hmine : ∀ p ∈ pages size addr len, ∃ page, g.space.view i p = some page ∧ page.Sealed)
    (hmid : ∀ t, Looks size i g t → Mid (t, l))
    (h : ∀ t, Looks size i g t → Amidst size i Mid (f (t.read addr len)) Q (t, l)) :
    Amidst size i Mid (Prog.perform (.load addr len) >>= f) Q (g, l) := by
  rintro ⟨t, l'⟩ ⟨hlooks, hlog, hsafe⟩ c -
  obtain rfl : l' = l := hlog
  have hview : g.space.view i = t.space.view i := hlooks.1
  rw [hview] at hmine
  have hstep : (ram size i).step (.load addr len) c (t, l') = (t.read addr len, t, l') := by
    show (_, (if t.Reaches size addr len then _ else _), l' ++ []) = _
    rw [if_pos (sealed_reaches hmine), List.append_nil]
    rfl
  rw [hstep]
  exact ⟨⟨hmid t hlooks, hsafe, fun j _ => Looks.refl size j t⟩, h t hlooks⟩

theorem amidst_getrandom {f : (Access.getrandom addr len).Reply → Prog Access.Reply ε α} (hsize : 0 < size)
    (hmine : ∀ p ∈ pages size addr len, ∃ page, g.space.view i p = some page ∧ page.Sealed)
    (hmid : ∀ t, Looks size i g t → Mid (t, l))
    (hok : ∀ t (b : Fixed len), Looks size i g t →
      Amidst size i Mid (f (.ok b)) Q (t.write addr b.toList, l))
    (herr : ∀ t e part, part.length ≤ len → Looks size i g t →
      Amidst size i Mid (f (.error e)) Q (t.write addr part, l)) :
    Amidst size i Mid (Prog.perform (.getrandom addr len) >>= f) Q (g, l) := by
  rintro ⟨t, l'⟩ ⟨hlooks, hlog, hsafe⟩ c -
  obtain rfl : l' = l := hlog
  have hview : g.space.view i = t.space.view i := hlooks.1
  rw [hview] at hmine
  have hreach := sealed_reaches hmine
  rcases c with ⟨e, part⟩ | b
  · have hle : (part.take len).length ≤ len := List.length_take_le len part
    have hsub := Ram.pages_mono size addr hle
    obtain ⟨hsafe', hothers⟩ := write_guarantees (d := part.take len) hsize (fun p hp => hmine p (hsub hp)) hsafe
    have hstep : (ram size i).step (.getrandom addr len) (.error (e, part)) (t, l') =
        (.error e, t.write addr (part.take len), l') := by
      show (_, (if t.Reaches size addr len then _ else _), l' ++ []) = _
      rw [if_pos hreach, List.append_nil]
      rfl
    rw [hstep]
    exact ⟨⟨hmid t hlooks, hsafe', hothers⟩, herr t e _ hle hlooks⟩
  · have hlen := b.length_eq
    obtain ⟨hsafe', hothers⟩ := write_guarantees (d := b.toList) hsize (hlen.symm ▸ hmine) hsafe
    have hstep : (ram size i).step (.getrandom addr len) (.ok b) (t, l') = (.ok b, t.write addr b.toList, l') := by
      have hboth : Ram.step size i (.getrandom addr len) (.ok b) t = (.ok b, t.write addr b.toList) := if_pos hreach
      show ((Ram.step size i (.getrandom addr len) (.ok b) t).1, (Ram.step size i (.getrandom addr len) (.ok b) t).2,
        l' ++ []) = _
      rw [hboth, List.append_nil]
    rw [hstep]
    exact ⟨⟨hmid t hlooks, hsafe', hothers⟩, hok t b hlooks⟩

end Rules

/-! ### Programs that only change the address space -/

section Embed
variable {ε α : Type} {K : Set ℕ} {v : Space ι} {b : ℕ → UInt8} {Mid : Ram ι × List (Event Syscall.Reply) → Prop}
  {Q : Outcome ε α → Ram ι × List (Event Syscall.Reply) → Prop}

/-- The pages of `K` are as in `v`, with the bytes `b`; the other pages of party `i` are zero. -/
structure Untouched (size : ℕ) (i : ι) (K : Set ℕ) (v : Space ι) (b : ℕ → UInt8) (g : Ram ι) : Prop where
  view : ∀ q ∈ K, g.space.view i q = v q
  kept : ∀ a, a / size ∈ K → v (a / size) ≠ none → g.bytes a = b a
  zero : ∀ a, a / size ∉ K → g.space.view i (a / size) ≠ none → g.bytes a = 0

theorem Untouched.looks (h : Untouched size i K v b g) (hlooks : Looks size i g g') : Untouched size i K v b g' := by
  have hview : g.space.view i = g'.space.view i := hlooks.1
  refine ⟨fun q hq => hview ▸ h.view q hq, fun a ha hv => ?_, fun a ha hsome => ?_⟩
  · rw [hlooks.2 a (by rwa [h.view _ ha]), h.kept a ha hv]
  · rw [← hview] at hsome
    rw [hlooks.2 a hsome, h.zero a ha hsome]

omit [DecidableEq ι] in
/-- No call gives a page to someone else. -/
theorem step_owner {op : Syscall} {c : Memory.Choice op} {s : Space ι} {q : ℕ} {page page' : Page ι}
    (h : s q = some page) (h' : (Memory.step size i op c s).2 q = some page') : page'.owner = page.owner := by
  have hchange (kind : Change) (range : Finset ℕ) (h' : s.change range kind.apply q = some page') :
      page'.owner = page.owner := by
    unfold Space.change at h'
    rw [h] at h'
    split_ifs at h'
    · rw [← Option.some.inj h', Change.apply_owner]
    · rw [← Option.some.inj h']
  have hsame (h' : s q = some page') : page'.owner = page.owner := by
    rw [h] at h'
    rw [Option.some.inj h']
  cases op with
  | sysconf =>
    cases c
    · exact hsame h'
    · exact hsame h'
  | mmap len =>
    rcases c with e | addr
    · exact hsame h'
    · simp only [Memory.step] at h'
      split_ifs at h' with hfits
      · dsimp only [Space.map] at h'
        split_ifs at h' with hq
        · have hnone := hfits.2.2 q hq
          rw [h] at hnone
          cases hnone
        · exact hsame h'
      · exact hsame h'
  | change kind addr len =>
    rcases c with _ | ⟨e, reached⟩
    · simp only [Memory.step] at h'
      split_ifs at h'
      · exact hchange kind _ h'
      · exact hsame h'
      · exact hsame h'
    · exact hchange kind _ h'
  | munmap addr len =>
    rcases c with _ | ⟨e, reached⟩
    · simp only [Memory.step] at h'
      split_ifs at h'
      · dsimp only [Space.clear] at h'
        split_ifs at h'
        exact hsame h'
      · exact hsame h'
    · exact hsame h'

omit [DecidableEq ι] in
theorem Ram.remap_of_mapped {s : Space ι} {a : ℕ} (h : g.space (a / size) ≠ none) :
    (g.remap size s).bytes a = g.bytes a := by
  apply if_neg
  rintro ⟨hnone, -⟩
  exact h (Option.isNone_iff_eq_none.mp hnone)

theorem mapped_of_view_ne {s : Space ι} {q : ℕ} (h : s.view i q ≠ none) :
    ∃ page, s q = some page ∧ page.owner = some i := by
  obtain ⟨page, hpage⟩ := Option.ne_none_iff_exists'.mp h
  obtain ⟨hs, howner⟩ := Option.filter_eq_some_iff.mp hpage
  exact ⟨page, hs, of_decide_eq_true howner⟩

/-- What a call on the address space does to the bytes, where it leaves `K` as it is. -/
theorem Untouched.step {op : Syscall} {c : Memory.Choice op} (h : Untouched size i K v b g) (hsafe : Safe size g)
    (hview : ∀ q ∈ K, (Memory.step size i op c g.space).2.view i q = v q)
    (hothers : ∀ j, j ≠ i → Same j g.space (Memory.step size i op c g.space).2) :
    Untouched size i K v b (g.remap size (Memory.step size i op c g.space).2) ∧
      Safe size (g.remap size (Memory.step size i op c g.space).2) ∧
      ∀ j, j ≠ i → Looks size j g (g.remap size (Memory.step size i op c g.space).2) := by
  have howner {q : ℕ} {page page' : Page ι} (hq : g.space q = some page)
      (hq' : (Memory.step size i op c g.space).2 q = some page') : page'.owner = page.owner := step_owner hq hq'
  generalize (Memory.step size i op c g.space).2 = s at hview hothers howner
  have hmapped {j : ι} {a : ℕ} (ha : g.space.view j (a / size) ≠ none) : (g.remap size s).bytes a = g.bytes a := by
    obtain ⟨page, hpage, -⟩ := mapped_of_view_ne ha
    apply Ram.remap_of_mapped
    rw [hpage]
    exact Option.some_ne_none _
  refine ⟨⟨hview, fun a ha hv => ?_, fun a ha hs => ?_⟩, ⟨hsafe.1, fun a ha => ?_⟩, fun j hj => ⟨hothers j hj, fun a ha => hmapped ha⟩⟩
  · rw [hmapped (by rwa [h.view _ ha]), h.kept a ha hv]
  · obtain ⟨page', hpage', howner'⟩ := mapped_of_view_ne hs
    have hpage' : s (a / size) = some page' := hpage'
    cases hold : g.space (a / size) with
    | none => exact if_pos ⟨by rw [hold]; rfl, by rw [hpage']; rfl⟩
    | some page =>
      have hmine : g.space.view i (a / size) ≠ none := by
        rw [Space.view, hold, Option.filter_some, if_pos (decide_eq_true ((howner hold hpage').symm.trans howner'))]
        exact Option.some_ne_none _
      rw [hmapped hmine, h.zero a ha hmine]
  · -- what is not zero was there before, on a page that the call leaves as it is
    have hbefore : ¬((g.space (a / size)).isNone ∧ (s (a / size)).isSome) := fun hnew => ha (if_pos hnew)
    have ha' : g.bytes a ≠ 0 := fun hzero => ha ((if_neg hbefore).trans hzero)
    obtain ⟨j, page, hpage, hsealed⟩ := hsafe.2 a ha'
    refine ⟨j, page, ?_, hsealed⟩
    by_cases hj : j = i
    · subst hj
      by_cases hK : a / size ∈ K
      · exact (hview _ hK).trans ((h.view _ hK).symm.trans hpage)
      · exact absurd (h.zero a hK (by rw [hpage]; exact Option.some_ne_none _)) ha'
    · have hsame : g.space.view j = s.view j := hothers j hj
      exact hsame ▸ hpage

theorem amidst_embed {p : Prog Syscall.Reply ε α} {Mid₀ : Space ι × List (Event Syscall.Reply) → Prop}
    {Q₀ : Outcome ε α → Space ι × List (Event Syscall.Reply) → Prop}
    (h : Among size i Mid₀ p Q₀ (g.space, l)) (hE : ∀ op, ∃ _ : Memory.Choice op, True)
    (hview : ∀ t, Mid₀ t → ∀ q ∈ K, t.1.view i q = v q) (hend : ∀ r t, Q₀ r t → ∀ q ∈ K, t.1.view i q = v q)
    (hg : Untouched size i K v b g)
    (hmid : ∀ t l, Mid₀ (t.space, l) → Untouched size i K v b t → Mid (t, l))
    (hdone : ∀ r t l, Q₀ r (t.space, l) → Untouched size i K v b t → Q r (t, l)) :
    Amidst size i Mid (p.embed onSpace id) Q (g, l) := by
  apply rg_of_moved amidst_self
  rintro ⟨g', l'⟩ ⟨hlooks, rfl, hsafe⟩
  have hmoved := rg.moved h (fun hab hbc => ⟨hab.1.trans hbc.1, hbc.2.1.trans hab.2.1, trivial⟩)
    (⟨hlooks.1, rfl, trivial⟩ : Parties.Relies Same (fun _ => True) i (g.space, l') (g'.space, l'))
  have hafter := hmoved.after (fun _ => ⟨rfl, rfl, trivial⟩) hE (fun op s t hg => hview s hg.1) hend
  apply rg_embed hafter (B := fun s t => s = (t.1.space, t.2) ∧ Untouched size i K v b t.1 ∧ Safe size t.1)
    (fun _ c => c) ⟨rfl, hg.looks hlooks, hsafe⟩
  · rintro _ t u ⟨rfl, hu, -⟩ ⟨hlooks, hown, hsafe'⟩
    exact ⟨(u.1.space, u.2), ⟨hlooks.1, hown, trivial⟩, rfl, hu.looks hlooks, hsafe'⟩
  · rintro op c _ ⟨t, l'⟩ - ⟨rfl, hu, hs⟩
    refine ⟨trivial, rfl, ?_⟩
    rintro ⟨⟨hmid₀, -, hothers⟩, hview'⟩
    obtain ⟨hu', hs', hlooks⟩ := hu.step hs hview' hothers
    exact ⟨⟨rfl, hu', hs'⟩, hmid t l' hmid₀ hu, hs', hlooks⟩
  · rintro r _ ⟨t, l'⟩ ⟨rfl, hu, -⟩ hr
    have hsame : r.mapErr id = r := by
      cases r
      all_goals rfl
    rw [hsame]
    exact hdone r t l' hr hu

end Embed
end Views
end Krypto.Effect.Memory
