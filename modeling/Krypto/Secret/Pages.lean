import Krypto.Effect.Ram
import Krypto.LockedPages.Apart
import Krypto.Secret

/-! `secret.rs`, in memory: a secret is made on locked pages, read there, and wiped before its pages
are unmapped. -/

namespace Krypto.Secret
open Effect Memory

abbrev Step (α : Type) := Prog Access.Reply Error α

variable {α : Type}

def mapped (p : LockedPages.Step α) : Step α := p.embed onSpace id

structure SecretBuf where
  pages : LockedPages
  deriving DecidableEq

namespace SecretBuf

/-- Wiped first; then the pages are unmapped. -/
def drop (s : SecretBuf) : Step Unit := do
  Prog.perform (Access.store s.pages.data (List.replicate s.pages.len 0))
  mapped s.pages.drop

/-- `s` goes where `p` does not end well, as it unwinds too. -/
def guard (s : SecretBuf) (p : Step α) : Step α :=
  p.andThen fun
    | .ok a => .done (.ok a)
    | .err e => s.drop.andThen fun _ => .done (.err e)
    | .panic => s.drop.andThen fun _ => .done .panic

def fromVec (v : Bytes) : Step (Except Error SecretBuf × Bytes) := do
  let out ← (do
    let pages ← mapped (LockedPages.new v.length)
    Prog.perform (Access.store pages.data v)
    pure ⟨pages⟩ : Step SecretBuf).attempt
  pure (out, List.replicate v.length 0)

/-- `left` is what the closure leaves in the buffer, and `fill` how it ends. -/
def fillWith (len : ℕ) (left : Fixed len) (fill : Outcome Error Unit) : Step SecretBuf := do
  let pages ← mapped (LockedPages.new len)
  let s : SecretBuf := ⟨pages⟩
  s.guard do
    Prog.perform (Access.store s.pages.data left.toList)
    Prog.done fill
  pure s

/-- With what was drawn, which the code itself does not see. -/
def randomWithLimit (len limit : ℕ) : Step (SecretBuf × Fixed len) := do
  Prog.done (checkRandomLen len limit)
  let pages ← mapped (LockedPages.new len)
  let s : SecretBuf := ⟨pages⟩
  let drawn ← s.guard do
    let filled : Except String (Fixed len) ← Prog.perform (Access.getrandom s.pages.data len)
    match filled with
    | .ok b => Prog.done (.ok b)
    | .error e => Prog.throw (.hardening ("getrandom failed: " ++ e))
  pure (s, drawn)

def expose (s : SecretBuf) : Step Bytes := Prog.perform (Access.load s.pages.data s.pages.len)

end SecretBuf

/-! ### The secrets of a party -/

section Party
variable {ι : Type} [DecidableEq ι] {size : ℕ} {i : ι} {g g' : Ram ι} {s : SecretBuf} {b b' : Bytes}
  {h h' : List (SecretBuf × Bytes)}

def SecretBuf.Spans (s : SecretBuf) (a : ℕ) : Prop := s.pages.data ≤ a ∧ a < s.pages.data + s.pages.len

structure Carries (size : ℕ) (i : ι) (g : Ram ι) (h : List (SecretBuf × Bytes)) : Prop where
  holds : LockedPages.Holds size i (g.space.view i) (h.map fun e => e.1.pages)
  contents : ∀ e ∈ h, g.read e.1.pages.data e.1.pages.len = e.2

structure Clean (size : ℕ) (i : ι) (g : Ram ι) (h : List (SecretBuf × Bytes)) : Prop extends
    Carries size i g h where
  only : ∀ a, g.space.view i (a / size) ≠ none → g.bytes a ≠ 0 → ∃ e ∈ h, e.1.Spans a

omit [DecidableEq ι] in
theorem page_sealed {x : LockedPages} {p : ℕ} (hp : p ∈ x.inner size) : (x.page i size p).Sealed :=
  ⟨decide_eq_true hp, decide_eq_true hp, decide_eq_false fun hn => hn hp⟩

/-- The pages that the bytes of a secret reach are between its guards. -/
theorem data_inner {len : ℕ} {x : LockedPages} (hsize : 0 < size) (hlen : 0 < len) (hx : LockedPages.Layout size len x) :
    Memory.pages size x.data x.len ⊆ x.inner size := by
  obtain ⟨a, n, hdata, hmap, -, hinner, -⟩ := hx.ranges hsize
  obtain ⟨hle, -⟩ := LockedPages.dataLen_bounds len hsize
  have hends := hx.ends
  rw [hinner, hx.bytes, Memory.pages, if_neg hlen.ne']
  have hfirst : (a + 1) * size ≤ x.data := by
    rw [Nat.add_mul, Nat.one_mul]
    omega
  have hlast : x.data + len + size - 1 < (a + 1 + n + 1) * size := by
    rw [hends, hdata, hmap, Nat.add_mul, Nat.add_mul, Nat.add_mul]
    omega
  apply Finset.Ico_subset_Ico
  · rwa [Nat.le_div_iff_mul_le hsize]
  · exact Nat.lt_succ_iff.mp ((Nat.div_lt_iff_lt_mul hsize).mpr hlast)

theorem inner_pages {len : ℕ} {x : LockedPages} (hsize : 0 < size) (hx : LockedPages.Layout size len x) :
    x.inner size ⊆ x.pages size := by
  obtain ⟨a, n, -, -, hpages, hinner, -⟩ := hx.ranges hsize
  rw [hpages, hinner]
  exact Finset.Ico_subset_Ico (by omega) (by omega)

omit [DecidableEq ι] in
/-- The bytes of a secret are on sealed pages of its own. -/
theorem held_data {v : Space ι} {x : LockedPages} (hsize : 0 < size) (hx : LockedPages.Held size i v x) {p : ℕ}
    (hp : p ∈ Memory.pages size x.data x.len) : p ∈ x.pages size ∧ ∃ page, v p = some page ∧ page.Sealed := by
  rcases hx.layout with rfl | ⟨len, hlen, hlayout⟩
  · have hnone : Memory.pages size LockedPages.noPages.data LockedPages.noPages.len = ∅ := pages_zero size _
    rw [hnone] at hp
    exact absurd hp (Finset.notMem_empty p)
  · have hin := data_inner hsize hlen hlayout hp
    have hmine := inner_pages hsize hlayout hin
    exact ⟨hmine, _, hx.pages p hmine, page_sealed hin⟩

theorem Carries.sublist (hc : Carries size i g h) (hsub : h'.Sublist h) : Carries size i g h' :=
  ⟨hc.holds.sublist (hsub.map _), fun e he => hc.contents e (hsub.subset he)⟩

omit [DecidableEq ι] in
theorem holds_perm {v : Space ι} {l l' : List LockedPages} (hperm : l.Perm l') (hl : LockedPages.Holds size i v l) :
    LockedPages.Holds size i v l' :=
  ⟨fun x hx => hl.held x (hperm.mem_iff.mpr hx), (hperm.pairwise_iff fun hab => Disjoint.symm hab).mp hl.apart⟩

theorem Clean.perm (hperm : h.Perm h') (hc : Clean size i g h) : Clean size i g h' where
  holds := holds_perm (hperm.map _) hc.holds
  contents e he := hc.contents e (hperm.mem_iff.mpr he)
  only a ha hb := by
    obtain ⟨e, he, hspans⟩ := hc.only a ha hb
    exact ⟨e, hperm.mem_iff.mp he, hspans⟩

/-- What a secret has stays, while its pages and their bytes do. -/
theorem Carries.same (hsize : 0 < size) (hc : Carries size i g h)
    (hview : ∀ e ∈ h, ∀ p ∈ e.1.pages.pages size, g'.space.view i p = g.space.view i p)
    (hbytes : ∀ e ∈ h, ∀ a, a / size ∈ e.1.pages.pages size → g'.bytes a = g.bytes a) : Carries size i g' h := by
  refine ⟨⟨fun x hx => ?_, hc.holds.apart⟩, fun e he => ?_⟩
  · obtain ⟨e, he, rfl⟩ := List.mem_map.mp hx
    exact (hc.holds.held _ hx).of_same (hview e he)
  · rw [Ram.read_congr, hc.contents e he]
    intro a hle hlt
    have hheld := hc.holds.held _ (List.mem_map_of_mem he)
    exact hbytes e he a (held_data hsize hheld (Ram.mem_pages hsize hle hlt)).1

theorem Carries.mapped (hc : Carries size i g h) {e : SecretBuf × Bytes} (he : e ∈ h) {p : ℕ}
    (hp : p ∈ e.1.pages.pages size) : g.space.view i p ≠ none :=
  (hc.holds.held _ (List.mem_map_of_mem he)).mapped p hp

theorem Carries.looks (hsize : 0 < size) (hc : Carries size i g h) (hlooks : Looks size i g g') : Carries size i g' h := by
  have hview : g.space.view i = g'.space.view i := hlooks.1
  exact hc.same hsize (fun _ _ _ _ => hview ▸ rfl) fun e he a ha => hlooks.2 a (hc.mapped he ha)

/-- What a party had before it mapped more. -/
theorem Carries.untouched {v : Space ι} (hsize : 0 < size) (hc : Carries size i g h) (hv : g.space.view i = v)
    (hu : Untouched size i {q | v q ≠ none} v g.bytes g') : Carries size i g' h := by
  subst hv
  exact hc.same hsize (fun e he p hp => hu.view p (hc.mapped he hp))
    fun e he a ha => hu.kept a (hc.mapped he ha) (hc.mapped he ha)

theorem Clean.looks (hsize : 0 < size) (hc : Clean size i g h) (hlooks : Looks size i g g') : Clean size i g' h where
  toCarries := hc.toCarries.looks hsize hlooks
  only a ha hb := by
    have hview : g.space.view i = g'.space.view i := hlooks.1
    rw [← hview] at ha
    rw [hlooks.2 a ha] at hb
    exact hc.only a ha hb

theorem Clean.untouched {v : Space ι} (hsize : 0 < size) (hc : Clean size i g h) (hv : g.space.view i = v)
    (hu : Untouched size i {q | v q ≠ none} v g.bytes g') : Clean size i g' h where
  toCarries := hc.toCarries.untouched hsize hv hu
  only a ha hb := by
    by_cases hmapped : v (a / size) = none
    · exact absurd (hu.zero a (fun hne => hne hmapped) ha) hb
    · rw [hu.kept a hmapped hmapped] at hb
      exact hc.only a (hv ▸ hmapped) hb

/-- A party takes in the secret that it has made, and which is still zero. -/
theorem Clean.cons {x : LockedPages} (hc : Clean size i g h)
    (hholds : LockedPages.Holds size i (g.space.view i) (x :: h.map fun e => e.1.pages))
    (hzero : ∀ a, x.data ≤ a → a < x.data + x.len → g.bytes a = 0) :
    Clean size i g ((⟨x⟩, List.replicate x.len 0) :: h) := by
  refine ⟨⟨hholds, fun e he => ?_⟩, fun a ha hb => ?_⟩
  · obtain rfl | he := List.mem_cons.mp he
    · apply List.ext_getElem
      · rw [Ram.read_length, List.length_replicate]
      · intro k hk hk'
        rw [Ram.read_length] at hk
        simp only [Ram.read, List.getElem_map, List.getElem_range, List.getElem_replicate]
        exact hzero _ (Nat.le_add_right _ _) (Nat.add_lt_add_left hk _)
    · exact hc.contents e he
  · obtain ⟨e, he, hspans⟩ := hc.only a ha hb
    exact ⟨e, List.mem_cons_of_mem _ he, hspans⟩

/-- The secret at the head is written over, or the first of its bytes. -/
theorem Clean.write_part (hsize : 0 < size) (hc : Clean size i g ((s, b) :: h)) {data : Bytes}
    (hlen : data.length ≤ s.pages.len) : Clean size i (g.write s.pages.data data)
      ((s, (g.write s.pages.data data).read s.pages.data s.pages.len) :: h) := by
  have hheld := hc.holds.held _ List.mem_cons_self
  obtain ⟨hapart, -⟩ := List.pairwise_cons.mp hc.holds.apart
  refine ⟨⟨hc.holds, fun e he => ?_⟩, fun a ha hb => ?_⟩
  · obtain rfl | he := List.mem_cons.mp he
    · rfl
    · -- the others are on other pages
      have hother := hc.holds.held _ (List.mem_map_of_mem (List.mem_cons_of_mem _ he))
      rw [Ram.read_congr, hc.contents e (List.mem_cons_of_mem _ he)]
      intro a hle hlt
      apply Ram.write_of_out
      rintro ⟨hle', hlt'⟩
      have hp := (held_data hsize hother (Ram.mem_pages hsize hle hlt)).1
      have hp' := (held_data hsize hheld (Ram.mem_pages hsize hle' (hlt'.trans_le (Nat.add_le_add_left hlen _)))).1
      exact Finset.disjoint_left.mp (hapart _ (List.mem_map_of_mem he)) hp' hp
  · by_cases hin : s.pages.data ≤ a ∧ a < s.pages.data + data.length
    · exact ⟨_, List.mem_cons_self, hin.1, hin.2.trans_le (Nat.add_le_add_left hlen _)⟩
    · rw [Ram.write_of_out hin] at hb
      obtain ⟨e, he, hspans⟩ := hc.only a ha hb
      obtain rfl | he := List.mem_cons.mp he
      · exact ⟨_, List.mem_cons_self, hspans⟩
      · exact ⟨e, List.mem_cons_of_mem _ he, hspans⟩

theorem Clean.write (hsize : 0 < size) (hc : Clean size i g ((s, b) :: h)) {data : Bytes}
    (hlen : data.length = s.pages.len) : Clean size i (g.write s.pages.data data) ((s, data) :: h) := by
  have hpart := hc.write_part hsize hlen.le
  rwa [← hlen, Ram.read_write] at hpart

/-- Of a secret that is wiped, no page holds anything. -/
theorem Clean.wiped (hsize : 0 < size) {n : ℕ} (hc : Clean size i g ((s, List.replicate n 0) :: h)) {a : ℕ}
    (ha : a / size ∈ s.pages.pages size) : g.bytes a = 0 := by
  by_contra hb
  obtain ⟨e, he, hle, hlt⟩ := hc.only a (hc.mapped List.mem_cons_self ha) hb
  obtain rfl | he' := List.mem_cons.mp he
  · apply hb
    rw [Ram.bytes_of_read (hc.contents _ he) hle hlt]
    simp [List.getD]
  · obtain ⟨hapart, -⟩ := List.pairwise_cons.mp hc.holds.apart
    have hheld := hc.holds.held _ (List.mem_map_of_mem he)
    have hp := (held_data hsize hheld (Ram.mem_pages hsize hle hlt)).1
    exact Finset.disjoint_left.mp (hapart _ (List.mem_map_of_mem he')) ha hp

end Party

/-! ### The programs, among others -/

section Programs
variable {ι : Type} [DecidableEq ι] {size k : ℕ} {i : ι} {g : Ram ι} {s : SecretBuf} {b : Bytes}
  {h : List (SecretBuf × Bytes)} {l : List (Event Syscall.Reply)}
  {Mid : Ram ι × List (Event Syscall.Reply) → Prop}

theorem made_kept {len : ℕ} {v : Space ι} {r : Outcome Error LockedPages} {t : Space ι × List (Event Syscall.Reply)}
    (hmade : LockedPages.Made size i len v l r t) : LockedPages.Kept v (t.1.view i) := by
  cases hmade with
  | empty _ view => exact view ▸ LockedPages.Kept.refl v
  | tooLarge _ _ view => exact view ▸ LockedPages.Kept.refl v
  | made _ _ _ free view =>
    intro p hp
    rw [view]
    exact if_neg fun hx => hp (free p hx)
  | refused _ _ kept => exact kept

def Refuses (r : Outcome Error α) : Prop := ∀ e, r = .err e → ∃ m : String, e = .hardening (.text m)

abbrev Refusing (p : LockedPages.Step α) : Prop := Quiet (fun _ => True) (fun _ _ => True) p Refuses

theorem refuses_ok (a : α) : Refuses (.ok a) := by
  rintro e he
  cases he

theorem refuses_panic : Refuses (.panic : Outcome Error α) := by
  rintro e he
  cases he

theorem refuses_err (m : String) : Refuses (.err (.hardening (.text m)) : Outcome Error α) := by
  rintro e he
  cases he
  exact ⟨m, rfl⟩

theorem Refuses.recast {β : Type} {e : Error} (h : Refuses (.err e : Outcome Error α)) :
    Refuses (.err e : Outcome Error β) := by
  obtain ⟨m, rfl⟩ := h e rfl
  exact refuses_err m

theorem refusing_bind {β : Type} {p : LockedPages.Step α} {f : α → LockedPages.Step β} (hp : Refusing p)
    (hf : ∀ a, Refusing (f a)) : Refusing (p >>= f) :=
  hp.bind (fun a _ => hf a) (fun _ h => h.recast) fun _ => refuses_panic

theorem refusing_perform (op : Syscall) : Refusing (Prog.perform op) := ⟨trivial, fun y _ => refuses_ok y⟩

theorem refusing_check (call : String) (r : Except String Unit) : Refusing (LockedPages.check call r) := by
  cases r with
  | ok _ => exact refuses_ok ()
  | error e => exact refuses_err _

theorem new_refuses (len : ℕ) : Refusing (LockedPages.new len) := by
  unfold LockedPages.new
  split_ifs
  · exact refuses_ok _
  refine refusing_bind ?_ fun page => ?_
  · refine refusing_bind (refusing_perform _) fun n => ?_
    split_ifs
    · exact refuses_ok _
    · exact refuses_err _
  have hsize {n : Option ℕ} : Refuses (.ofOption (LockedPages.tooLarge len) n) := by
    cases n with
    | none => exact refuses_err _
    | some n => exact refuses_ok n
  have husize {p : Prop} [Decidable p] {n : ℕ} : Refuses (if p then .ok n else .panic) := by
    split_ifs
    · exact refuses_ok n
    · exact refuses_panic
  unfold LockedPages.newOn
  refine refusing_bind hsize fun dataLen => refusing_bind husize fun guards => refusing_bind hsize fun mapLen => ?_
  refine refusing_bind (refusing_perform _) fun mapped => ?_
  cases mapped with
  | error e => exact refuses_err _
  | ok map =>
    refine refusing_bind husize fun gap => ?_
    show Refusing (Prog.onErr _ _)
    unfold Prog.onErr Refusing
    rw [quiet_andThen]
    have hprotect (pages : LockedPages) (p d n back : ℕ) : Refusing (LockedPages.protect pages p d n back) := by
      unfold LockedPages.protect
      refine refusing_bind (refusing_perform _) fun r => refusing_bind (refusing_check _ r) fun _ => ?_
      refine refusing_bind (refusing_perform _) fun r => refusing_bind (refusing_check _ r) fun _ => ?_
      refine refusing_bind (refusing_perform _) fun r => refusing_bind (refusing_check _ r) fun _ => ?_
      exact refusing_bind (refusing_perform _) fun r => refusing_bind (refusing_check _ r) fun _ => refuses_ok _
    refine (hprotect _ _ _ _ _).imp fun r hr => ?_
    cases r with
    | ok x => exact hr
    | err e =>
      -- the pages are dropped, and the error is kept
      rw [quiet_andThen]
      refine (yields_any _).imp fun _ _ => hr
    | panic => exact hr

theorem new_amidst (hk : k ≤ 62) (hsize : size = 2 ^ k) {len : ℕ} (hlen : len < 2 ^ 64) (hc : Clean size i g h)
    (hmid : ∀ t l, Carries size i t h → Mid (t, l)) :
    Amidst size i Mid (mapped (LockedPages.new len)) (fun r t =>
      (∃ s : SecretBuf, r = .ok s.pages ∧ s.pages.len = len ∧ Clean size i t.1 ((s, List.replicate len 0) :: h)) ∨
        ∃ m : String, r = .err (.hardening (.text m)) ∧ len ≠ 0 ∧ Clean size i t.1 h) (g, l) := by
  have hpos : 0 < size := hsize ▸ Nat.two_pow_pos k
  generalize hv : g.space.view i = v
  have hnew : Among size i (fun t => LockedPages.Kept v (t.1.view i)) (LockedPages.new len)
      (LockedPages.Made size i len v l) (g.space, l) :=
    LockedPages.new_among hk hsize hlen hv fun t l ht => ht
  apply amidst_embed (hnew.and_quiet (new_refuses len)) LockedPages.choice_total (K := {q | v q ≠ none}) (v := v) (b := g.bytes)
    (fun t ht => ht) (fun r t hr => made_kept hr.1)
  · refine ⟨fun q _ => by rw [hv], fun _ _ _ => rfl, fun a ha hne => ?_⟩
    rw [hv] at hne
    exact absurd hne ha
  · exact fun t l _ hu => hmid t l (hc.toCarries.untouched hpos hv hu)
  · rintro r t l' ⟨hmade, hrefuses⟩ hu
    have hclean := hc.untouched hpos hv hu
    cases hmade with
    | empty hzero _ =>
      subst hzero
      refine Or.inl ⟨⟨LockedPages.noPages⟩, rfl, rfl, hclean.cons ⟨?_, ?_⟩ fun a hle hlt => ?_⟩
      · intro y hy
        obtain rfl | hy := List.mem_cons.mp hy
        · exact LockedPages.held_noPages
        · exact hclean.holds.held y hy
      · refine List.pairwise_cons.mpr ⟨fun y hy => ?_, hclean.holds.apart⟩
        rw [LockedPages.pages_noPages]
        exact Finset.disjoint_empty_left _
      · exact absurd hlt (Nat.not_lt.mpr hle)
    | tooLarge hlen _ _ =>
      obtain ⟨m, hm⟩ := hrefuses _ rfl
      exact Or.inr ⟨m, by rw [hm], hlen.ne', hclean⟩
    | @made x _ hlenpos _ layout free view =>
      have hview : t.space.view i = x.added i size v := view
      have hholds := LockedPages.Holds.cons (hv ▸ hc.holds) hlenpos layout free
      rw [← hview] at hholds
      have hbytes := hclean.cons hholds fun a hle hlt => ?_
      · rw [layout.bytes] at hbytes
        exact Or.inl ⟨⟨x⟩, rfl, layout.bytes, hbytes⟩
      · have hp := inner_pages hpos layout (data_inner hpos hlenpos layout (Ram.mem_pages hpos hle hlt))
        apply hu.zero a (fun hne => hne (free _ hp))
        exact (hholds.held x List.mem_cons_self).mapped _ hp
    | refused hlen _ _ =>
      obtain ⟨m, rfl⟩ := hrefuses _ rfl
      exact Or.inr ⟨m, rfl, hlen.ne', hclean⟩

theorem data_sealed (hpos : 0 < size) (hc : Clean size i g ((s, b) :: h)) :
    ∀ p ∈ Memory.pages size s.pages.data s.pages.len, ∃ page, g.space.view i p = some page ∧ page.Sealed :=
  fun _ hp => (held_data hpos (hc.holds.held _ List.mem_cons_self) hp).2

theorem Clean.rest (hc : Clean size i g ((s, b) :: h)) : Carries size i g h :=
  hc.toCarries.sublist (List.sublist_cons_self _ _)

/-- Whatever becomes of the call that unmaps the pages, nothing is left on them. -/
theorem drop_amidst (hpos : 0 < size) (hc : Clean size i g ((s, b) :: h))
    (hmid : ∀ t l, Carries size i t h → Mid (t, l)) :
    Amidst size i Mid s.drop (fun r t => r = .ok () ∧ Clean size i t.1 h) (g, l) := by
  unfold SecretBuf.drop
  apply amidst_store hpos
  · rw [List.length_replicate]
    exact data_sealed hpos hc
  · exact fun t hlooks => hmid t l (hc.rest.looks hpos hlooks)
  intro t hlooks
  have hwiped := (hc.looks hpos hlooks).write hpos (List.length_replicate (n := s.pages.len) (a := (0 : UInt8)))
  generalize t.write s.pages.data (List.replicate s.pages.len 0) = t' at hwiped
  obtain ⟨hapart, -⟩ := List.pairwise_cons.mp hwiped.holds.apart
  have hother {e : SecretBuf × Bytes} (he : e ∈ h) {p : ℕ} (hp : p ∈ e.1.pages.pages size) :
      p ∉ s.pages.pages size := Finset.disjoint_right.mp (hapart _ (List.mem_map_of_mem he)) hp
  have hdrop : Among size i (fun u => u.1.view i = t'.space.view i) s.pages.drop
      (fun r u => r = .ok () ∧ (∃ more, u.2 = l ++ more) ∧ ∀ p ∉ s.pages.pages size, u.1.view i p = t'.space.view i p)
      (t'.space, l) :=
    LockedPages.drop_among rfl (fun p hp => hwiped.mapped List.mem_cons_self hp) fun u hu => hu
  have hkept {u : Ram ι} (hu : Untouched size i {q | q ∉ s.pages.pages size} (t'.space.view i) t'.bytes u) :
      Carries size i u h :=
    hwiped.rest.same hpos (fun e he p hp => hu.view p (hother he hp))
      fun e he a ha => hu.kept a (hother he ha) (hwiped.rest.mapped he ha)
  apply amidst_embed hdrop LockedPages.choice_total (K := {q | q ∉ s.pages.pages size})
  · exact fun u hu q _ => by rw [hu]
  · exact fun r u hr q hq => hr.2.2 q hq
  · exact ⟨fun _ _ => rfl, fun _ _ _ => rfl, fun a ha _ => hwiped.wiped hpos (not_not.mp ha)⟩
  · exact fun u l _ hu => hmid u l (hkept hu)
  · rintro r u l' ⟨rfl, -, -⟩ hu
    refine ⟨rfl, hkept hu, fun a ha hb => ?_⟩
    by_cases hp : a / size ∈ s.pages.pages size
    · exact absurd (hu.zero a (fun hn => hn hp) ha) hb
    · rw [hu.view _ hp] at ha
      rw [hu.kept a hp ha] at hb
      obtain ⟨e, he, hspans⟩ := hwiped.only a ha hb
      obtain rfl | he := List.mem_cons.mp he
      · have hheld := hwiped.holds.held _ List.mem_cons_self
        exact absurd (held_data hpos hheld (Ram.mem_pages hpos hspans.1 hspans.2)).1 hp
      · exact ⟨e, he, hspans⟩

/-- What `p` leaves in `s` stays where `p` ends well, and goes with `s` where it does not. -/
theorem guard_amidst {V : Outcome Error α → Bytes → Prop} {p : Step α} (hpos : 0 < size)
    (hmid : ∀ t l, Carries size i t h → Mid (t, l))
    (hp : Amidst size i Mid p (fun r t => ∃ b, Clean size i t.1 ((s, b) :: h) ∧ V r b) (g, l)) :
    Amidst size i Mid (s.guard p) (fun r t => (∃ a b, r = .ok a ∧ V r b ∧ Clean size i t.1 ((s, b) :: h)) ∨
      (∀ a, r ≠ .ok a) ∧ (∃ b, V r b) ∧ Clean size i t.1 h) (g, l) := by
  apply rg_andThen amidst_self
  refine hp.imp ?_
  rintro r ⟨t, l'⟩ ⟨b, hc, hV⟩
  cases r with
  | ok a => exact amidst_done fun u hlooks => Or.inl ⟨a, b, rfl, hV, hc.looks hpos hlooks⟩
  | err e =>
    apply rg_andThen amidst_self
    refine (drop_amidst hpos hc hmid).imp ?_
    rintro r ⟨u, l''⟩ ⟨rfl, hc'⟩
    exact amidst_done fun w hlooks =>
      Or.inr ⟨fun a h => (by cases h), ⟨b, hV⟩, hc'.looks hpos hlooks⟩
  | panic =>
    apply rg_andThen amidst_self
    refine (drop_amidst hpos hc hmid).imp ?_
    rintro r ⟨u, l''⟩ ⟨rfl, hc'⟩
    exact amidst_done fun w hlooks =>
      Or.inr ⟨fun a h => (by cases h), ⟨b, hV⟩, hc'.looks hpos hlooks⟩

end Programs
end Krypto.Secret
