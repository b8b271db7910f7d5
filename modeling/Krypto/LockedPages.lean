import Krypto.Effect.Memory
import Krypto.Error
import Krypto.Text

/-! `LockedPages` of `ffi.rs`: the memory of one secret, on pages of its own
between two guard pages. -/

namespace Krypto
open Effect Memory

structure LockedPages where
  map : ℕ
  mapLen : ℕ
  data : ℕ
  len : ℕ
  deriving DecidableEq

def usizeMul {ε : Type} (a b : ℕ) : Outcome ε ℕ := if a * b < 2 ^ 64 then .ok (a * b) else .panic

def checkedNextMultipleOf (a b : ℕ) : Option ℕ :=
  if b = 0 then none else if a % b = 0 then some a else checkedAdd a (b - a % b)

/-- `<*mut u8>::wrapping_add` -/
def wrappingAdd (a b : ℕ) : ℕ := (a + b) % 2 ^ 64

namespace LockedPages

abbrev Step (α : Type) := Prog Syscall.Reply Error α

def dangling : ℕ := 1

def noPages : LockedPages := { map := dangling, mapLen := 0, data := dangling, len := 0 }

def isPowerOfTwo (n : ℕ) : Prop := 2 ^ n.log2 = n

instance : DecidablePred isPowerOfTwo := fun n => inferInstanceAs (Decidable (2 ^ n.log2 = n))

def pageSize : Step ℕ := do
  let n : ℤ ← Prog.perform Syscall.sysconf
  if 0 ≤ n ∧ isPowerOfTwo n.toNat then
    pure n.toNat
  else
    Prog.throw (.hardening "sysconf(_SC_PAGESIZE) failed")

def osError (call e : String) : Error := .hardening (call ++ " failed: " ++ e)

def tooLarge (len : ℕ) : Error := .hardening s!"a secret of {len} bytes is too large"

def check (call : String) : Except String Unit → Step Unit
  | .ok () => pure ()
  | .error e => Prog.throw (osError call e)

/-- `Drop`: unmapped, at best effort. -/
def drop (pages : LockedPages) : Step Unit := do
  if pages.mapLen = 0 then
    pure ()
  else
    let _ : Except String Unit ← Prog.perform (Syscall.munmap pages.map pages.mapLen)
    pure ()

def protect (pages : LockedPages) (page dataPages dataLen backGuard : ℕ) : Step LockedPages := do
  check s!"mprotect({page})" (← Prog.perform (.change .mprotect pages.map page))
  check s!"mprotect({page})" (← Prog.perform (.change .mprotect backGuard page))
  check s!"mlock({dataLen})" (← Prog.perform (.change .mlock dataPages dataLen))
  check s!"madvise(MADV_DONTDUMP, {dataLen})" (← Prog.perform (.change .madvise dataPages dataLen))
  pure pages

def newOn (len page : ℕ) : Step LockedPages := do
  let dataLen ← Prog.done (.ofOption (tooLarge len) (checkedNextMultipleOf len page))
  let guards ← Prog.done (usizeMul 2 page)
  let mapLen ← Prog.done (.ofOption (tooLarge len) (checkedAdd dataLen guards))
  let mapped : Except String ℕ ← Prog.perform (Syscall.mmap mapLen)
  match mapped with
  | .error e => Prog.throw (osError s!"mmap({mapLen})" e)
  | .ok map =>
    let dataPages := wrappingAdd map page
    let gap ← Prog.done (usizeSub dataLen len)
    -- from here on the pages own the mapping: an error below drops them
    let pages := { map, mapLen, data := wrappingAdd dataPages gap, len }
    (protect pages page dataPages dataLen (wrappingAdd dataPages dataLen)).onErr pages.drop

def new (len : ℕ) : Step LockedPages := do
  if len = 0 then pure noPages else newOn len (← pageSize)

/-! ### Sizes -/

section Sizes
variable {size len : ℕ}

def dataLen (size len : ℕ) : ℕ := (len + size - 1) / size * size

theorem dataLen_bounds (len : ℕ) (hsize : 0 < size) : len ≤ dataLen size len ∧ dataLen size len < len + size := by
  have hmod := Nat.div_add_mod (len + size - 1) size
  have hlt := Nat.mod_lt (len + size - 1) hsize
  rw [Nat.mul_comm] at hmod
  unfold dataLen
  omega

theorem checkedNextMultipleOf_eq (hsize : 0 < size) (hlen : len < 2 ^ 64) :
    checkedNextMultipleOf len size = if dataLen size len < 2 ^ 64 then some (dataLen size len) else none := by
  have hdiv := Nat.div_add_mod len size
  have hlt := Nat.mod_lt len hsize
  rw [Nat.mul_comm] at hdiv
  unfold checkedNextMultipleOf checkedAdd
  rw [if_neg hsize.ne']
  by_cases hmod : len % size = 0
  · have hsame : dataLen size len = len := by
      unfold dataLen
      have hq : (len + size - 1) / size = len / size := by
        rw [Nat.div_eq_iff hsize]
        omega
      rw [hq]
      omega
    rw [if_pos hmod, hsame, if_pos hlen]
  · have hnext : dataLen size len = len + (size - len % size) := by
      unfold dataLen
      have hq : (len + size - 1) / size = len / size + 1 := by
        rw [Nat.div_eq_iff hsize]
        rw [Nat.add_mul]
        omega
      rw [hq, Nat.add_mul]
      omega
    rw [if_neg hmod, hnext]

theorem isPowerOfTwo_pow (k : ℕ) : isPowerOfTwo (2 ^ k) := by
  rw [isPowerOfTwo, Nat.log2_two_pow]

end Sizes

/-! ### The pages of a secret -/

section Layout
variable {ι : Type}

def pages (size : ℕ) (x : LockedPages) : Finset ℕ := Memory.pages size x.map x.mapLen

def inner (size : ℕ) (x : LockedPages) : Finset ℕ := Memory.pages size (x.map + size) (x.mapLen - 2 * size)

/-- Where the pages of `len` bytes lie: guard, data and guard fill the mapping, and the bytes end
where the second guard begins. -/
structure Layout (size len : ℕ) (x : LockedPages) : Prop where
  bytes : x.len = len
  aligned : x.map % size = 0
  tiles : x.mapLen = size + dataLen size len + size
  fits : x.map + x.mapLen ≤ 2 ^ 64
  ends : x.data + len = x.map + size + dataLen size len

/-- A page of a secret: a guard without access, or one that is locked and not dumped. -/
def page (i : ι) (size : ℕ) (x : LockedPages) (p : ℕ) : Page ι where
  owner := some i
  access := p ∈ x.inner size
  locked := p ∈ x.inner size
  dumped := p ∉ x.inner size

def added (i : ι) (size : ℕ) (x : LockedPages) (v : Space ι) : Space ι :=
  fun p => if p ∈ x.pages size then some (x.page i size p) else v p

def Elsewhere (size : ℕ) (x : LockedPages) (v w : Space ι) : Prop :=
  (∀ p ∈ x.pages size, w p ≠ none) ∧ ∀ p ∉ x.pages size, w p = v p

def Kept (v w : Space ι) : Prop := ∀ p, v p ≠ none → w p = v p

theorem Kept.refl (v : Space ι) : Kept v v := fun _ _ => rfl

theorem Elsewhere.kept {size : ℕ} {x : LockedPages} {v w : Space ι} (h : Elsewhere size x v w)
    (hfree : ∀ p ∈ x.pages size, v p = none) : Kept v w :=
  fun p hp => h.2 p fun hx => hp (hfree p hx)

theorem Elsewhere.change {size : ℕ} {x : LockedPages} {v w : Space ι} {range : Finset ℕ}
    (h : Elsewhere size x v w) (hsub : range ⊆ x.pages size) (f : Page ι → Page ι) :
    Elsewhere size x v (w.change range f) := by
  constructor
  · intro p hp
    have hne := h.1 p hp
    unfold Space.change
    split_ifs
    · rwa [ne_eq, Option.map_eq_none_iff]
    · exact hne
  · intro p hp
    have hout : p ∉ range := fun hr => hp (hsub hr)
    rw [Space.change, if_neg hout, h.2 p hp]

theorem Layout.ranges {size len : ℕ} {x : LockedPages} (h : Layout size len x) (hsize : 0 < size) :
    ∃ a n, dataLen size len = n * size ∧ x.map = a * size ∧ x.pages size = Finset.Ico a (a + n + 2) ∧
      x.inner size = Finset.Ico (a + 1) (a + 1 + n) ∧
      Memory.pages size x.map size = Finset.Ico a (a + 1) ∧
      Memory.pages size (x.map + size) (dataLen size len) = x.inner size ∧
      Memory.pages size (x.map + size + dataLen size len) size = Finset.Ico (a + 1 + n) (a + n + 2) := by
  obtain ⟨a, hmap⟩ := Nat.dvd_of_mod_eq_zero h.aligned
  rw [Nat.mul_comm] at hmap
  have hdata : dataLen size len = (len + size - 1) / size * size := rfl
  generalize (len + size - 1) / size = n at hdata
  have hlen : x.mapLen = (n + 2) * size := by
    rw [h.tiles, hdata, Nat.add_mul]
    omega
  have hnext : x.map + size = (a + 1) * size := by rw [hmap, Nat.add_mul, Nat.one_mul]
  have hback : x.map + size + dataLen size len = (a + 1 + n) * size := by rw [hnext, hdata, ← Nat.add_mul]
  have hinner : x.mapLen - 2 * size = n * size := by rw [hlen, Nat.add_mul, Nat.add_sub_cancel]
  have hone : size = 1 * size := (Nat.one_mul size).symm
  refine ⟨a, n, hdata, hmap, ?_, ?_, ?_, ?_, ?_⟩
  · rw [pages, hmap, hlen, pages_whole hsize, Nat.add_assoc]
  · rw [inner, hnext, hinner, pages_whole hsize]
  · have h1 := pages_whole hsize a 1
    rwa [← hmap, Nat.one_mul] at h1
  · rw [inner, hinner, hdata]
  · have h1 := pages_whole hsize (a + 1 + n) 1
    rw [Nat.one_mul, ← hback] at h1
    rw [h1]
    congr 1
    omega

/-- The four calls together: guards without access around pages that are locked and not dumped. -/
theorem protected_eq {size len : ℕ} {i : ι} {x : LockedPages} {v : Space ι} (hsize : 0 < size)
    (hx : Layout size len x) :
    ((((v.map (x.pages size) (fresh i)).change (Memory.pages size x.map size) Change.mprotect.apply).change
      (Memory.pages size (x.map + size + dataLen size len) size) Change.mprotect.apply).change
      (Memory.pages size (x.map + size) (dataLen size len)) Change.mlock.apply).change
      (Memory.pages size (x.map + size) (dataLen size len)) Change.madvise.apply = x.added i size v := by
  obtain ⟨a, n, -, -, hpages, hinner, hfront, hrange, hback⟩ := hx.ranges hsize
  rw [hfront, hback, hrange]
  funext p
  have hin : p ∈ x.inner size ↔ a + 1 ≤ p ∧ p < a + 1 + n := by rw [hinner, Finset.mem_Ico]
  have hall : p ∈ x.pages size ↔ a ≤ p ∧ p < a + n + 2 := by rw [hpages, Finset.mem_Ico]
  unfold added page Space.change Space.map
  by_cases hp : p ∈ x.pages size
  -- a page of the mapping: inside, the front guard, or the guard behind
  · have hbounds := hall.mp hp
    by_cases hdata : p ∈ x.inner size
    · have hinside := hin.mp hdata
      have hnotfront : p ∉ Finset.Ico a (a + 1) := by
        rw [Finset.mem_Ico]
        omega
      have hnotback : p ∉ Finset.Ico (a + 1 + n) (a + n + 2) := by
        rw [Finset.mem_Ico]
        omega
      simp only [if_pos hp, if_neg hnotfront, if_neg hnotback, hdata, not_true_eq_false]
      rfl
    · have houtside := mt hin.mpr hdata
      by_cases hguard : p ∈ Finset.Ico a (a + 1)
      · have hnotback : p ∉ Finset.Ico (a + 1 + n) (a + n + 2) := by
          rw [Finset.mem_Ico] at hguard ⊢
          omega
        simp only [if_pos hp, if_pos hguard, if_neg hnotback, hdata, not_false_eq_true]
        rfl
      · have hlast : p ∈ Finset.Ico (a + 1 + n) (a + n + 2) := by
          rw [Finset.mem_Ico] at hguard ⊢
          omega
        simp only [if_pos hp, if_neg hguard, if_pos hlast, hdata, not_false_eq_true]
        rfl
  · have hbounds := mt hall.mpr hp
    have hout : p ∉ x.inner size ∧ p ∉ Finset.Ico a (a + 1) ∧ p ∉ Finset.Ico (a + 1 + n) (a + n + 2) := by
      rw [hin, Finset.mem_Ico, Finset.mem_Ico]
      omega
    simp only [if_neg hp, if_neg hout.1, if_neg hout.2.1, if_neg hout.2.2]

end Layout

/-! ### What a call of `new` does -/

section Spec
variable {ι : Type} [DecidableEq ι] {size len : ℕ} {i : ι} {x : LockedPages} {v : Space ι}
  {l : List (Event Syscall.Reply)} {Mid : Space ι × List (Event Syscall.Reply) → Prop}

def Failed : Event Syscall.Reply → Prop
  | ⟨.sysconf, n⟩ => n = (-1 : ℤ)
  | ⟨.mmap _, r⟩ => ∃ e : String, r = Except.error e
  | ⟨.change _ _ _, r⟩ => ∃ e : String, r = Except.error e
  | ⟨.munmap _ _, r⟩ => ∃ e : String, r = Except.error e

def protections (size len : ℕ) (x : LockedPages) : List (Event Syscall.Reply) :=
  [⟨.change .mprotect x.map size, Except.ok ()⟩,
    ⟨.change .mprotect (x.map + size + dataLen size len) size, Except.ok ()⟩,
    ⟨.change .mlock (x.map + size) (dataLen size len), Except.ok ()⟩,
    ⟨.change .madvise (x.map + size) (dataLen size len), Except.ok ()⟩]

def calls (size len : ℕ) (x : LockedPages) : List (Event Syscall.Reply) :=
  [⟨.sysconf, (size : ℤ)⟩, ⟨.mmap x.mapLen, Except.ok x.map⟩] ++ protections size len x

structure Refused (len : ℕ) (l l' : List (Event Syscall.Reply)) (e : Error) : Prop where
  because : ∃ more ev, l' = l ++ more ∧ ev ∈ more ∧ Failed ev
  other : e ≠ tooLarge len

theorem ne_tooLarge {text : String} {c : Char} (htext : text.toList.head? = some c) (hc : c ≠ 'a') :
    Error.hardening text ≠ tooLarge len := by
  intro h
  have hhead := congrArg (fun t => t.toList.head?) (Message.text.inj (Error.hardening.inj h))
  have hlarge : (s!"a secret of {len} bytes is too large").toList.head? = some 'a' := by
    rw [String.toList_append, String.toList_append, List.append_assoc, List.head?_append]
    rfl
  rw [htext, hlarge] at hhead
  exact hc (Option.some.inj hhead)

theorem osError_ne {call e : String} {c : Char} (hcall : call.toList.head? = some c) (hc : c ≠ 'a') :
    osError call e ≠ tooLarge len := by
  apply ne_tooLarge _ hc
  rw [String.toList_append, String.toList_append, List.append_assoc, List.head?_append, hcall]
  rfl

theorem Refused.append {l m l' : List (Event Syscall.Reply)} {e : Error} (h : Refused len (l ++ m) l' e) :
    Refused len l l' e := by
  obtain ⟨⟨more, ev, rfl, hev, hfailed⟩, hother⟩ := h
  exact ⟨⟨m ++ more, ev, List.append_assoc l m more, List.mem_append_right m hev, hfailed⟩, hother⟩

theorem check_among {kind : Change} {addr n : ℕ} {call : String} {w : Space ι}
    {f : Unit → Step LockedPages} {Q : Outcome Error LockedPages → Space ι × List (Event Syscall.Reply) → Prop}
    (hcall : call.toList.head? = some 'm') {s : Space ι} (hs : s.view i = w)
    (hw : Elsewhere size x v w) (hsub : Memory.pages size addr n ⊆ x.pages size)
    (hMid : ∀ t, Elsewhere size x v (t.view i) → Mid (t, l))
    (hok : ∀ t, t.view i = w.change (Memory.pages size addr n) kind.apply →
      Among size i Mid (f ()) Q (t, l ++ [⟨.change kind addr n, Except.ok ()⟩]))
    (herr : ∀ t e, Elsewhere size x v (t.view i) → Refused len l (l ++ [⟨.change kind addr n, Except.error e⟩]) (osError call e) →
      Q (.err (osError call e)) (t, l ++ [⟨.change kind addr n, Except.error e⟩])) :
    Among size i Mid (Prog.perform (Syscall.change kind addr n) >>= fun r => check call r >>= f) Q (s, l) := by
  apply among_change hs
  · intro t ht
    apply hMid
    rw [ht]
    exact hw
  · exact fun p hp => hw.1 p (hsub hp)
  · exact hok
  · intro t e reached ht
    show Among size i Mid (.done (.err (osError call e))) Q _
    rintro ⟨u, l'⟩ ⟨hsame, rfl, -⟩
    refine herr u e ?_ ⟨⟨_, _, rfl, List.mem_singleton_self _, e, rfl⟩, osError_ne hcall (by decide)⟩
    rw [← show t.view i = u.view i from hsame, ht]
    exact hw.change (Finset.inter_subset_left.trans hsub) _

/-- Whoever has the mapping gets the pages protected, or an error and what is left of it. -/
theorem protect_among (hsize : 0 < size) (hx : Layout size len x) {s : Space ι}
    (hs : s.view i = v.map (x.pages size) (fresh i)) (hMid : ∀ t l, Elsewhere size x v (t.view i) → Mid (t, l)) :
    Among size i Mid
      (protect x size (x.map + size) (dataLen size len) (x.map + size + dataLen size len))
      (fun r t => (r = .ok x ∧ t.1.view i = x.added i size v ∧ t.2 = l ++ protections size len x) ∨
        ∃ e, r = .err e ∧ Refused len l t.2 e ∧ Elsewhere size x v (t.1.view i)) (s, l) := by
  obtain ⟨a, n, hdata, hmap, hpages, hinner, hfront, hrange, hback⟩ := hx.ranges hsize
  have hsub : Memory.pages size x.map size ⊆ x.pages size ∧
      Memory.pages size (x.map + size) (dataLen size len) ⊆ x.pages size ∧
      Memory.pages size (x.map + size + dataLen size len) size ⊆ x.pages size := by
    rw [hfront, hrange, hinner, hback, hpages]
    refine ⟨Finset.Ico_subset_Ico (by omega) (by omega), Finset.Ico_subset_Ico (by omega) (by omega),
      Finset.Ico_subset_Ico (by omega) (by omega)⟩
  have hmapped : Elsewhere size x v (v.map (x.pages size) (fresh i)) := by
    constructor
    · intro p hp
      rw [Space.map, if_pos hp]
      exact Option.some_ne_none _
    · intro p hp
      rw [Space.map, if_neg hp]
  -- every refusal's text begins with the call's name
  have hname (call : String) (n : ℕ) (back : String) (hcall : call.toList.head? = some 'm') :
      (call ++ toString n ++ back).toList.head? = some 'm' := by
    rw [String.toList_append, String.toList_append, List.append_assoc, List.head?_append, hcall]
    rfl
  unfold protect
  -- the four calls in order: a refusal at one keeps what those before it did
  apply check_among (hname "mprotect(" size ")" rfl) hs hmapped hsub.1 fun t ht => hMid t _ ht
  · intro t ht
    have h1 := hmapped.change hsub.1 Change.mprotect.apply
    apply check_among (hname "mprotect(" size ")" rfl) ht h1 hsub.2.2 fun t ht => hMid t _ ht
    · intro t ht
      have h2 := h1.change hsub.2.2 Change.mprotect.apply
      apply check_among (hname "mlock(" (dataLen size len) ")" rfl) ht h2 hsub.2.1 fun t ht => hMid t _ ht
      · intro t ht
        have h3 := h2.change hsub.2.1 Change.mlock.apply
        apply check_among (hname "madvise(MADV_DONTDUMP, " (dataLen size len) ")" rfl) ht h3 hsub.2.1
          fun t ht => hMid t _ ht
        · intro t ht
          rintro ⟨u, l'⟩ ⟨hsame, rfl, -⟩
          refine Or.inl ⟨rfl, ?_, by simp [protections]⟩
          rw [← show t.view i = u.view i from hsame, ht]
          exact protected_eq hsize hx
        · intro t e ht hrefused
          exact Or.inr ⟨_, rfl, hrefused.append.append.append, ht⟩
      · intro t e ht hrefused
        exact Or.inr ⟨_, rfl, hrefused.append.append, ht⟩
    · intro t e ht hrefused
      exact Or.inr ⟨_, rfl, hrefused.append, ht⟩
  · intro t e ht hrefused
    exact Or.inr ⟨_, rfl, hrefused, ht⟩

theorem drop_among {w : Space ι} {s : Space ι} (hs : s.view i = w) (hw : ∀ p ∈ x.pages size, w p ≠ none)
    (hMid : ∀ t, t.view i = w → Mid (t, l)) :
    Among size i Mid x.drop (fun r t => r = .ok () ∧ (∃ more, t.2 = l ++ more) ∧
      ∀ p ∉ x.pages size, t.1.view i p = w p) (s, l) := by
  unfold drop
  by_cases hlen : x.mapLen = 0
  · rw [if_pos hlen]
    rintro ⟨t, l'⟩ ⟨hsame, rfl, -⟩
    refine ⟨rfl, ⟨[], (List.append_nil _).symm⟩, fun p _ => ?_⟩
    rw [← show s.view i = t.view i from hsame, hs]
  · rw [if_neg hlen]
    apply among_munmap hs hMid hw
    · rintro t ht ⟨u, l'⟩ ⟨hsame, rfl, -⟩
      refine ⟨rfl, ⟨_, rfl⟩, fun p hp => ?_⟩
      rw [← show t.view i = u.view i from hsame, ht, Space.clear]
      exact if_neg hp
    · rintro t e ht ⟨u, l'⟩ ⟨hsame, rfl, -⟩
      refine ⟨rfl, ⟨_, rfl⟩, fun p _ => ?_⟩
      rw [← show t.view i = u.view i from hsame, ht]

/-- How a call of `new` for `len` bytes ends, for a party that had mapped `v`. -/
inductive Made (size : ℕ) (i : ι) (len : ℕ) (v : Space ι) (l : List (Event Syscall.Reply)) :
    Outcome Error LockedPages → Space ι × List (Event Syscall.Reply) → Prop where
  | empty {t} (hlen : len = 0) (view : t.view i = v) : Made size i len v l (.ok noPages) (t, l)
  | tooLarge {t} (hlen : 0 < len) (past : 2 ^ 64 ≤ dataLen size len + 2 * size) (view : t.view i = v) :
      Made size i len v l (.err (tooLarge len)) (t, l ++ [⟨.sysconf, (size : ℤ)⟩])
  | made {x t} (hlen : 0 < len) (fits : dataLen size len + 2 * size < 2 ^ 64) (layout : Layout size len x)
      (free : ∀ p ∈ x.pages size, v p = none) (view : t.view i = x.added i size v) :
      Made size i len v l (.ok x) (t, l ++ calls size len x)
  | refused {e t l'} (hlen : 0 < len) (refused : Refused len l l' e) (kept : Kept v (t.view i)) :
      Made size i len v l (.err e) (t, l')

theorem relies_self {a b : Space ι × List (Event Syscall.Reply)}
    (_ : Parties.Relies Same (fun _ => True) i a b) : Parties.Relies Same (fun _ => True) i b b :=
  ⟨rfl, rfl, trivial⟩

theorem pageSize_among {k : ℕ} (hsize : size = 2 ^ k) {s : Space ι} (hs : s.view i = v)
    (hMid : ∀ t, t.view i = v → Mid (t, l)) :
    Among size i Mid pageSize (fun r t => t.1.view i = v ∧
      ((r = .ok size ∧ t.2 = l ++ [⟨.sysconf, (size : ℤ)⟩]) ∨
        r = .err (.hardening "sysconf(_SC_PAGESIZE) failed") ∧ t.2 = l ++ [⟨.sysconf, (-1 : ℤ)⟩])) (s, l) := by
  have hpower : isPowerOfTwo (size : ℤ).toNat := hsize ▸ isPowerOfTwo_pow k
  apply among_sysconf hs hMid
  · intro t ht
    rw [if_pos ⟨Int.natCast_nonneg size, hpower⟩]
    rintro ⟨u, l'⟩ ⟨hsame, rfl, -⟩
    exact ⟨hsame.symm.trans ht, Or.inl ⟨rfl, rfl⟩⟩
  · intro t ht
    rw [if_neg (by decide)]
    rintro ⟨u, l'⟩ ⟨hsame, rfl, -⟩
    exact ⟨hsame.symm.trans ht, Or.inr ⟨rfl, rfl⟩⟩

theorem layout_of_map (len : ℕ) (hpos : 0 < size) {map : ℕ} (haligned : map % size = 0)
    (hfits : map + (dataLen size len + 2 * size) ≤ 2 ^ 64) :
    wrappingAdd map size = map + size ∧
      wrappingAdd (map + size) (dataLen size len) = map + size + dataLen size len ∧
      Layout size len ⟨map, dataLen size len + 2 * size,
        wrappingAdd (map + size) (dataLen size len - len), len⟩ := by
  obtain ⟨hle, hlt⟩ := dataLen_bounds len hpos
  have hgap : wrappingAdd (map + size) (dataLen size len - len) = map + size + (dataLen size len - len) :=
    Nat.mod_eq_of_lt (by omega)
  refine ⟨Nat.mod_eq_of_lt (by omega), Nat.mod_eq_of_lt (by omega), rfl, haligned, ?_, hfits, ?_⟩
  · dsimp only
    omega
  · dsimp only
    rw [hgap]
    omega

theorem done_ok_bind {α β : Type} (a : α) (f : α → Step β) : (Prog.done (.ok a) >>= f : Step β) = f a := rfl

theorem protected_among (hpos : 0 < size) (hlenpos : 0 < len) (hfits : dataLen size len + 2 * size < 2 ^ 64)
    (hx : Layout size len x) (hfree : ∀ p ∈ x.pages size, v p = none) {s : Space ι}
    (hs : s.view i = v.map (x.pages size) (fresh i)) (hMid : ∀ t l, Kept v (t.view i) → Mid (t, l)) :
    Among size i Mid
      ((protect x size (x.map + size) (dataLen size len) (x.map + size + dataLen size len)).onErr x.drop)
      (Made size i len v l)
      (s, l ++ [⟨.sysconf, (size : ℤ)⟩] ++ [⟨.mmap x.mapLen, Except.ok x.map⟩]) := by
  apply rg_andThen relies_self
  apply (protect_among hpos hx hs fun t l ht => hMid t l (ht.kept hfree)).imp
  rintro r ⟨t, l'⟩ (⟨rfl, hview, rfl⟩ | ⟨e, rfl, hrefused, hleft⟩)
  · rintro ⟨u, l'⟩ ⟨hsame, rfl, -⟩
    have hlog : l ++ [⟨.sysconf, (size : ℤ)⟩] ++ [⟨.mmap x.mapLen, Except.ok x.map⟩] ++ protections size len x =
        l ++ calls size len x := by
      simp [calls]
    rw [hlog]
    exact .made hlenpos hfits hx hfree (hsame.symm.trans hview)
  · apply rg_andThen relies_self
    apply (drop_among rfl hleft.1 fun u hu => hMid u _ (hu ▸ hleft.kept hfree)).imp
    rintro r ⟨u, _⟩ ⟨-, ⟨more, rfl⟩, hgone⟩ ⟨w, _⟩ ⟨hsame, rfl, -⟩
    obtain ⟨more', ev, rfl, hev, hfailed⟩ := hrefused.append.append.because
    refine .refused hlenpos ⟨⟨more' ++ more, ev, by simp, List.mem_append_left _ hev, hfailed⟩, hrefused.other⟩ ?_
    intro p hp
    have hout : p ∉ x.pages size := fun hx => hp (hfree p hx)
    rw [← show u.view i = w.view i from hsame, hgone p hout, hleft.2 p hout]

theorem newOn_among (hpos : 0 < size) (hsizele : size ≤ 2 ^ 62) (hlen : len < 2 ^ 64) (hlenpos : 0 < len)
    {s : Space ι} (hs : s.view i = v) (hMid : ∀ t l, Kept v (t.view i) → Mid (t, l)) :
    Among size i Mid (newOn len size) (Made size i len v l) (s, l ++ [⟨.sysconf, (size : ℤ)⟩]) := by
  obtain ⟨hle, hlt⟩ := dataLen_bounds len hpos
  have hguards : 2 * size < 2 ^ 64 := by omega
  unfold newOn
  rw [checkedNextMultipleOf_eq hpos hlen]
  have htooLarge (hover : 2 ^ 64 ≤ dataLen size len + 2 * size) :
      Among size i Mid (.done (.err (tooLarge len))) (Made size i len v l)
        (s, l ++ [⟨.sysconf, (size : ℤ)⟩]) := by
    rintro ⟨t, l'⟩ ⟨hsame, rfl, -⟩
    exact .tooLarge hlenpos hover (hsame.symm.trans hs)
  by_cases hround : dataLen size len < 2 ^ 64
  · rw [if_pos hround, usizeMul, if_pos hguards, Outcome.ofOption_some, done_ok_bind, done_ok_bind, checkedAdd]
    by_cases hfits : dataLen size len + 2 * size < 2 ^ 64
    · rw [if_pos hfits, Outcome.ofOption_some, done_ok_bind, usizeSub_of_le hle]
      apply among_mmap hs fun t ht => hMid t _ (ht ▸ Kept.refl v)
      · intro t map haligned hwraps hfree ht
        obtain ⟨hdata, hback, hlayout⟩ := layout_of_map len hpos haligned hwraps
        dsimp only [done_ok_bind]
        rw [hdata, hback]
        exact protected_among hpos hlenpos hfits hlayout hfree ht hMid
      · rintro t e ht ⟨u, l'⟩ ⟨hsame, rfl, -⟩
        have hname : (s!"mmap({dataLen size len + 2 * size})").toList.head? = some 'm' := by
          rw [String.toList_append, String.toList_append, List.append_assoc, List.head?_append]
          rfl
        refine .refused hlenpos ⟨⟨_, _, List.append_assoc _ _ _, List.mem_append_right _ (List.mem_singleton_self _),
          e, rfl⟩, osError_ne hname (by decide)⟩ ?_
        rw [← show t.view i = u.view i from hsame, ht]
        exact Kept.refl v
    · rw [if_neg hfits]
      exact htooLarge (by omega)
  · rw [if_neg hround]
    exact htooLarge (by omega)

theorem new_among {k : ℕ} (hk : k ≤ 62) (hsize : size = 2 ^ k) (hlen : len < 2 ^ 64) {s : Space ι}
    (hs : s.view i = v) (hMid : ∀ t l, Kept v (t.view i) → Mid (t, l)) :
    Among size i Mid (new len) (Made size i len v l) (s, l) := by
  have hpos : 0 < size := hsize ▸ Nat.two_pow_pos k
  have hsizele : size ≤ 2 ^ 62 := hsize ▸ Nat.pow_le_pow_right (by decide) hk
  unfold new
  by_cases hzero : len = 0
  · rw [if_pos hzero]
    rintro ⟨t, l'⟩ ⟨hsame, rfl, -⟩
    exact .empty hzero (hsame.symm.trans hs)
  · have hlenpos := Nat.pos_of_ne_zero hzero
    rw [if_neg hzero]
    apply rg_bind relies_self
    apply (pageSize_among hsize hs fun t ht => hMid t l (ht ▸ Kept.refl v)).imp
    rintro r ⟨t, l'⟩ ⟨hview, ⟨rfl, rfl⟩ | ⟨rfl, rfl⟩⟩
    · exact newOn_among hpos hsizele hlen hlenpos hview hMid
    · rintro ⟨u, l'⟩ ⟨hsame, rfl, -⟩
      refine .refused hlenpos ⟨⟨_, _, rfl, List.mem_singleton_self _, rfl⟩, ?_⟩ ?_
      · exact ne_tooLarge (c := 's') rfl (by decide)
      · rw [← show t.view i = u.view i from hsame, hview]
        exact Kept.refl v

end Spec

end LockedPages
end Krypto
