import Krypto.Store.Holder
import Krypto.Store.Session

/-! What a handle holds when it is the only one: what the operations that succeeded,
one after another, make of the store, and that each operation keeps it so. -/

namespace Krypto.Store
open Effect

section Mine
variable {ι : Type} {P : Primitives} {path : Bytes} {start : Option Bytes}

/-- A handle of the store at `path`: `v` is stored there after the operations `l`, and it is what
the handle holds. -/
structure Mine (P : Primitives) (path : Bytes) (start : Option Bytes) (st : SecretStore)
    (l : List (Done ι)) (v : Option Bytes) : Prop where
  path : st.path = path
  valid : Valid st.entries
  fits : Fits st.toContents
  stored : ∃ d c₀ c c', v = some d ∧ Begins start c₀ ∧ Chain P c₀ l c ∧ load d = .ok c' ∧
    c'.Same c ∧ st.toContents.Same c

theorem Mine.explains {st : SecretStore} {l : List (Done ι)} {v : Option Bytes}
    (h : Mine P path start st l v) : Explains P start l v := by
  obtain ⟨d, c₀, c, c', rfl, hbegins, hchain, hload, hsame, -⟩ := h.stored
  exact .file hbegins hchain hload hsame

/-- What was loaded from the file is what the operations made of it. -/
theorem mine_of_load {l : List (Done ι)} {d : Bytes} {c : Contents}
    (h : Explains P start l (some d)) (hcap : d.length ≤ MAX_STORE_BYTES) (hload : load d = .ok c)
    (master : MasterKey) (lock : Option Nat) :
    Mine P path start { c with path, master, lock } l (some d) := by
  have hlt : d.length < 2 ^ 63 := Nat.lt_of_le_of_lt hcap (by decide)
  refine ⟨rfl, load_valid hlt hload, fits_of_load hcap hload, ?_⟩
  obtain ⟨v, hv⟩ : ∃ v, v = some d := ⟨_, rfl⟩
  rw [← hv] at h
  cases h with
  | untouched =>
    have hbegins : Begins start c := by
      rw [hv]
      exact hload
    exact ⟨d, c, c, c, rfl, hbegins, .nil, hload, .refl c, .refl c⟩
  | @file _ d' c₀ c₁ c' hbegins hchain hload' hsame =>
    obtain rfl := Option.some.inj hv
    obtain rfl := Outcome.ok.inj (hload'.symm.trans hload)
    exact ⟨d', c₀, c₁, c', rfl, hbegins, hchain, hload, hsame, hsame⟩

theorem explains_none {l : List (Done ι)} (h : Explains P start l none) : l = [] ∧ start = none := by
  obtain ⟨v, hv⟩ : ∃ v : Option Bytes, v = none := ⟨_, rfl⟩
  rw [← hv] at h
  cases h with
  | untouched => exact ⟨rfl, hv⟩
  | file => cases hv

theorem mine_of_created {l : List (Done ι)} {salt keyId : Fixed 16} {data : Bytes}
    (h : Explains P start l none) (himage : checkedImage ⟨salt, keyId, ∅⟩ = .ok data)
    (master : MasterKey) (lock : Option Nat) :
    Mine P path start { salt, keyId, entries := ∅, path, master, lock } l (some data) := by
  obtain ⟨rfl, rfl⟩ := explains_none h
  obtain ⟨c', hload, hsame⟩ := load_checkedImage valid_empty himage
  have hbegins : Begins none ⟨salt, keyId, ∅⟩ := rfl
  exact ⟨rfl, valid_empty, fits_empty _ _, data, _, _, c', rfl, hbegins, .nil, hload, hsame, .refl _⟩

variable {st : SecretStore} {l : List (Done ι)} {v : Option Bytes} {e : Done ι}

theorem Mine.rolled (h : Mine P path start st l v) {entries : Entries}
    (hsame : Same entries st.entries) : Mine P path start { st with entries } l v := by
  obtain ⟨d, c₀, c, c', hv, hbegins, hchain, hload, hfile, hst⟩ := h.stored
  have hrolled : Contents.Same ⟨st.salt, st.keyId, entries⟩ st.toContents := ⟨rfl, rfl, hsame⟩
  exact ⟨h.path, h.valid.same hsame, h.fits.same hsame, d, c₀, c, c', hv, hbegins, hchain, hload,
    hfile, hrolled.trans hst⟩

theorem Mine.saved (h : Mine P path start st l v) {c : Contents}
    (hyields : ∀ c₁, st.toContents.Same c₁ → Yields P c₁ e c) (hvalid : Valid c.entries)
    {data : Bytes} (himage : checkedImage c = .ok data) (master : MasterKey) (lock : Option Nat) :
    Mine P path start { c with path := st.path, master, lock } (l ++ [e]) (some data) := by
  obtain ⟨d, c₀, c₁, c', -, hbegins, hchain, -, -, hst⟩ := h.stored
  obtain ⟨c₂, hload, hsame⟩ := load_checkedImage hvalid himage
  exact ⟨h.path, hvalid, fits_of_checkedImage himage, data, c₀, c, c₂, rfl, hbegins,
    .snoc hchain (hyields c₁ hst), hload, hsame, .refl c⟩

theorem Mine.idle (h : Mine P path start st l v)
    (hyields : ∀ c₁, st.toContents.Same c₁ → Yields P c₁ e st.toContents) :
    Mine P path start st (l ++ [e]) v := by
  obtain ⟨d, c₀, c, c', hv, hbegins, hchain, hload, hsame, hst⟩ := h.stored
  exact ⟨h.path, h.valid, h.fits, d, c₀, st.toContents, c', hv, hbegins,
    .snoc hchain (hyields c hst), hload, hsame.trans hst.symm, .refl _⟩

variable [DecidableEq ι] {i : ι}

/-- What a `put` or `delete` that is not let down by the directory makes of a handle. -/
theorem Changed.mine {Attempt : Contents → Prop} {Bad : Error → Prop}
    {t t' : Log × Process Bytes ι} {r : Outcome Error (Except Error Unit × SecretStore)}
    (h : Changed (calmly i) st Attempt Bad t r t')
    (hst : Mine P path start st l (t.2.disk.stored path))
    (hyields : ∀ c₁ c, st.toContents.Same c₁ → Attempt c → Yields P c₁ e c)
    (hvalid : ∀ c, Attempt c → Valid c.entries) :
    ∃ a st', r = .ok (a, st') ∧ st'.lock = st.lock ∧
      (a = .ok () ∧ Mine P path start st' (l ++ [e]) (t'.2.disk.stored path) ∨
        (∃ x, a = .error x) ∧ Mine P path start st' l (t'.2.disk.stored path)) := by
  obtain rfl := hst.path
  cases h with
  | saved hc himage hstored hdir =>
    refine ⟨_, _, rfl, rfl, Or.inl ⟨rfl, ?_⟩⟩
    rw [hstored]
    exact hst.saved (fun c₁ hsame => hyields c₁ _ hsame hc) (hvalid _ hc) himage _ _
  | same hstored hdir hc =>
    refine ⟨_, _, rfl, rfl, Or.inl ⟨rfl, ?_⟩⟩
    rw [hstored]
    exact hst.idle fun c₁ hsame => hyields c₁ _ hsame hc
  | failed hsame hstored hdir he =>
    refine ⟨_, _, rfl, rfl, Or.inr ⟨⟨_, rfl⟩, ?_⟩⟩
    rw [hstored]
    exact hst.rolled hsame
  | late hsame hflaky => exact absurd hflaky calmly_not_flaky

theorem Rotated.mine {newMaster : MasterKey} {t t' : Log × Process Bytes ι}
    {r : Outcome Error SecretStore} (h : Rotated P (calmly i) st newMaster t r t')
    (hst : Mine P path start st l (t.2.disk.stored path))
    (hyields : ∀ c₁ c, st.toContents.Same c₁ → RotateAttempt P st newMaster c → Yields P c₁ e c) :
    (∃ st', r = .ok st' ∧ st'.lock = st.lock ∧
        Mine P path start st' (l ++ [e]) (t'.2.disk.stored path)) ∨
      (∃ x, r = .err x) ∧ t'.2.disk.stored path = t.2.disk.stored path := by
  obtain rfl := hst.path
  cases h with
  | saved hc himage hstored hdir =>
    refine Or.inl ⟨_, rfl, rfl, ?_⟩
    rw [hstored]
    exact hst.saved (fun c₁ hsame => hyields c₁ _ hsame hc) (hc.valid P hst.valid) himage _ _
  | failed hstored hdir he => exact Or.inr ⟨⟨_, rfl⟩, hstored⟩
  | late hflaky => exact absurd hflaky calmly_not_flaky

theorem Opened.mine {master : MasterKey} {t t' : Log × Process Bytes ι}
    {r : Outcome Error SecretStore} (h : Opened (calmly i) path master t r t')
    (hexplains : Explains P start l (t.2.disk.stored path)) :
    (∃ st, r = .ok st ∧ Mine P path start st l (t'.2.disk.stored path)) ∨
      (∃ x, r = .err x) ∧ t'.2.disk.stored path = t.2.disk.stored path := by
  cases h with
  | loaded hd hcap hc ht =>
    refine Or.inl ⟨_, rfl, ?_⟩
    rw [hd] at hexplains
    rw [ht.stored, hd]
    exact mine_of_load hexplains hcap hc _ _
  | created hnone himage hstored hdir =>
    refine Or.inl ⟨_, rfl, ?_⟩
    rw [hnone] at hexplains
    rw [hstored]
    exact mine_of_created hexplains himage _ _
  | rejected hd hbad ht => exact Or.inr ⟨⟨_, rfl⟩, ht.stored⟩
  | failed he hstored hdir hwrote => exact Or.inr ⟨⟨_, rfl⟩, hstored⟩
  | late he hflaky => exact absurd hflaky calmly_not_flaky

end Mine
end Krypto.Store
