import Krypto.Base64.Canonical
import Krypto.Inspect

/-! Texts of printable ASCII, and findings made of them. -/

namespace Krypto.Inspect
open Effect

def Shown (s : Str) : Prop := ∀ c ∈ s, Str.Printable c

instance : DecidablePred Shown := fun s => inferInstanceAs (Decidable (∀ c ∈ s, Str.Printable c))

section Texts
variable {s t : Str}

theorem printable_of_range {c : Char} (h : 32 ≤ c.toNat ∧ c.toNat ≤ 126) : Str.Printable c :=
  ⟨UInt32.le_iff_toNat_le.mpr h.1, UInt32.le_iff_toNat_le.mpr h.2⟩

/-- What a program spells out, `l` being the characters of the literal. -/
theorem shown_literal {l : Str} (h : (l.all fun c => 32 ≤ c.toNat && c.toNat ≤ 126) = true) :
    Shown (String.ofList l).toList := by
  rw [String.toList_ofList]
  intro c hc
  have hrange := List.all_eq_true.mp h c hc
  simp only [Bool.and_eq_true, decide_eq_true_eq] at hrange
  exact printable_of_range hrange

theorem shown_nil : Shown [] := fun _ hc => absurd hc List.not_mem_nil

theorem Shown.append (hs : Shown s) (ht : Shown t) : Shown (s ++ t) := by
  intro c hc
  rcases List.mem_append.mp hc with hc | hc
  · exact hs c hc
  · exact ht c hc

theorem shown_append : Shown (s ++ t) ↔ Shown s ∧ Shown t :=
  ⟨fun h => ⟨fun c hc => h c (List.mem_append_left t hc), fun c hc => h c (List.mem_append_right s hc)⟩,
    fun h => h.1.append h.2⟩

theorem shown_char {c : Char} (h : 32 ≤ c.toNat ∧ c.toNat ≤ 126) : Shown [c] := by
  intro d hd
  rw [List.mem_singleton.mp hd]
  exact printable_of_range h

theorem shown_decimal (n : ℕ) : Shown (Str.decimal n) := by
  intro c hc
  have hdigit := Str.isDigit_of_mem_decimal hc
  simp only [Char.isDigit, Bool.and_eq_true, decide_eq_true_eq] at hdigit
  have h48 : 48 ≤ c.toNat := UInt32.le_iff_toNat_le.mp hdigit.1
  have h57 : c.toNat ≤ 57 := UInt32.le_iff_toNat_le.mp hdigit.2
  exact printable_of_range (by omega)

theorem shown_padded (width n : ℕ) : Shown (Str.padded width n) := by
  apply Shown.append _ (shown_decimal n)
  intro c hc
  rw [List.eq_of_mem_replicate hc]
  exact printable_of_range (by decide)

theorem shown_join {sep : String} {parts : List Str} (hsep : Shown sep.toList)
    (h : ∀ s ∈ parts, Shown s) : Shown (Str.join sep parts) := by
  intro c hc
  rcases Str.mem_of_mem_join hc with hc | ⟨s, hs, hc⟩
  · exact hsep c hc
  · exact h s hs c hc

theorem shown_printable (bytes : Bytes) : Shown (printable bytes) := by
  intro c hc
  obtain ⟨b, -, rfl⟩ := List.mem_map.mp hc
  split
  next hb =>
    have h32 : 32 ≤ b.toNat := UInt8.le_iff_toNat_le.mp hb.1
    have h127 : b.toNat < 127 := UInt8.lt_iff_toNat_lt.mp hb.2
    apply printable_of_range
    rw [Str.toNat_ofNat_of_lt (by omega)]
    omega
  · exact printable_of_range (by decide)

theorem shown_hex (bytes : Bytes) : Shown (Hex.encode bytes) := by
  have halphabet : ∀ c ∈ Hex.alphabet, 32 ≤ c.toNat ∧ c.toNat ≤ 126 := by decide +kernel
  have hletter (n : UInt8) : Str.Printable (Hex.letter n) :=
    printable_of_range (halphabet _ (List.get_mem _ _))
  intro c hc
  obtain ⟨b, -, hc⟩ := List.mem_flatMap.mp hc
  simp only [List.mem_cons, List.not_mem_nil, or_false] at hc
  rcases hc with rfl | rfl
  · exact hletter _
  · exact hletter _

theorem shown_encodeNopad (bytes : Bytes) : Shown (Base64.encodeNopad bytes) := by
  have halphabet : ∀ c ∈ Base64.alphabet, 32 ≤ c.toNat ∧ c.toNat ≤ 126 := by decide +kernel
  rw [Base64.encodeNopad_eq]
  intro c hc
  obtain ⟨d, -, rfl⟩ := List.mem_map.mp hc
  exact printable_of_range (halphabet _ (List.get_mem _ _))

end Texts

/-! ## Findings -/

structure Printed (f : Finding) : Prop where
  what : Shown f.what
  facts : ∀ e ∈ f.facts, Shown e.1 ∧ Shown e.2

section Findings
variable {f : Finding} {α : Type}

theorem Printed.new {what : Str} (h : Shown what) : Printed (.new what) :=
  ⟨h, fun _ he => absurd he List.not_mem_nil⟩

theorem Printed.fact (h : Printed f) {name : String} {value : Str} (hname : Shown name.toList)
    (hvalue : Shown value) : Printed (f.fact name value) := by
  refine ⟨h.what, fun e he => ?_⟩
  rcases List.mem_append.mp he with he | he
  · exact h.facts e he
  · rw [List.mem_singleton.mp he]
    exact ⟨hname, hvalue⟩

theorem Printed.factUnless (h : Printed f) {c : Prop} [Decidable c] {name : String} {value : Str}
    (hname : Shown name.toList) (hvalue : Shown value) :
    Printed (if c then f else f.fact name value) := by
  split
  · exact h
  · exact h.fact hname hvalue

theorem printed_first {name : String} {value : Str} (hname : Shown name.toList) :
    Printed (f.first name value) ↔ Printed f ∧ Shown value := by
  constructor
  · intro h
    have hall := List.forall_mem_cons.mp h.facts
    exact ⟨⟨h.what, hall.2⟩, hall.1.2⟩
  · rintro ⟨h, hvalue⟩
    exact ⟨h.what, List.forall_mem_cons.mpr ⟨⟨hname, hvalue⟩, h.facts⟩⟩

/-- A recognizer that tells nothing, or only what is printable. -/
def Told (r : Option Finding) : Prop := ∀ f, r = some f → Printed f

theorem told_none : Told none := fun _ h => nomatch h

theorem told_some (h : Printed f) : Told (some f) := by
  rintro _ ⟨⟩
  exact h

theorem told_bind {x : Option α} {g : α → Option Finding} (h : ∀ a, x = some a → Told (g a)) :
    Told (x >>= g) := by
  intro f hf
  obtain ⟨a, ha, hf⟩ := Option.bind_eq_some_iff.mp hf
  exact h a ha f hf

theorem told_ite {c : Prop} [Decidable c] {x y : Option Finding} (hx : c → Told x)
    (hy : ¬c → Told y) : Told (if c then x else y) := by
  split
  next h => exact hx h
  next h => exact hy h

theorem told_findSome {l : List (α → Option Finding)} {a : α} (h : ∀ g ∈ l, Told (g a)) :
    Told (l.findSome? fun g => g a) := by
  intro f hf
  obtain ⟨g, hg, hf⟩ := List.exists_of_findSome?_eq_some hf
  exact h g hg f hf

def ShownIfAny (o : Option Str) : Prop := ∀ s, o = some s → Shown s

theorem Printed.factIfAny (h : Printed f) {name : String} {o : Option Str}
    (hname : Shown name.toList) :
    ShownIfAny o → Printed (match o with
      | some value => f.fact name value
      | none => f) := by
  intro hvalue
  cases o with
  | some value => exact h.fact hname (hvalue value rfl)
  | none => exact h

theorem Printed.factIfNamed (h : Printed f) {name : String} {o : Option String}
    (hname : Shown name.toList) :
    (∀ s, o = some s → Shown s.toList) → Printed (match o with
      | some s => f.fact name s
      | none => f) := by
  intro hvalue
  cases o with
  | some s => exact h.fact hname (hvalue s rfl)
  | none => exact h

theorem shown_getD {o : Option Str} {d : Str} (h : ShownIfAny o) (hd : Shown d) : Shown (o.getD d) := by
  cases o with
  | none => exact hd
  | some s => exact h s rfl

theorem shownIfAny_bind {x : Option α} {g : α → Option Str} (h : ∀ a, x = some a → ShownIfAny (g a)) :
    ShownIfAny (x >>= g) := by
  intro s hs
  obtain ⟨a, ha, hs⟩ := Option.bind_eq_some_iff.mp hs
  exact h a ha s hs

theorem shownIfAny_some {s : Str} (h : Shown s) : ShownIfAny (some s) := by
  rintro _ ⟨⟩
  exact h

theorem shownIfAny_ite {c : Prop} [Decidable c] {x y : Option Str} (hx : ShownIfAny x)
    (hy : ShownIfAny y) : ShownIfAny (if c then x else y) := by
  split
  · exact hx
  · exact hy

theorem shownIfAny_none : ShownIfAny none := fun _ h => nomatch h

def AllShown (out : List Str) : Prop := ∀ s ∈ out, Shown s

theorem allShown_nil : AllShown [] := fun _ hs => absurd hs List.not_mem_nil

theorem AllShown.append {out more : List Str} (h : AllShown out) (hmore : AllShown more) :
    AllShown (out ++ more) := by
  intro s hs
  rcases List.mem_append.mp hs with hs | hs
  · exact h s hs
  · exact hmore s hs

theorem allShown_singleton {s : Str} (h : Shown s) : AllShown [s] := by
  intro t ht
  rw [List.mem_singleton.mp ht]
  exact h

theorem allShown_filterMap {f : α → Option Str} (hf : ∀ a, ShownIfAny (f a)) (l : List α) :
    AllShown (l.filterMap f) := by
  intro s hs
  obtain ⟨a, -, ha⟩ := List.mem_filterMap.mp hs
  exact hf a s ha

theorem foldlM_invariant {β : Type} {I : β → Prop} {step : β → α → Option β}
    (hstep : ∀ b a b', I b → step b a = some b' → I b') {l : List α} {b b' : β} (hb : I b)
    (h : l.foldlM step b = some b') : I b' := by
  induction l generalizing b with
  | nil =>
    cases h
    exact hb
  | cons a l ih =>
    rw [List.foldlM_cons] at h
    obtain ⟨next, hnext, h⟩ := Option.bind_eq_some_iff.mp h
    exact ih (hstep _ _ _ hb hnext) h

/-! ## The report -/

theorem shown_line {name value : Str} (hname : Shown name) (hvalue : Shown value) :
    ∃ rest, Finding.line name value = '\n' :: rest ∧ Shown rest := by
  refine ⟨[' ', ' '] ++ name ++ List.replicate (11 - name.length) ' ' ++ [' '] ++ value, rfl, ?_⟩
  have hspaces (n : ℕ) : Shown (List.replicate n ' ') := by
    intro c hc
    rw [List.eq_of_mem_replicate hc]
    exact printable_of_range (by decide)
  exact ((((hspaces 2).append hname).append (hspaces _)).append (hspaces 1)).append hvalue

/-- The report of a finding that is printable: a line for the name and one for each fact. -/
theorem Printed.report (h : Printed f) :
    (∀ c ∈ f.report, c = '\n' ∨ Str.Printable c) ∧ f.report.count '\n' = f.facts.length := by
  have hcount {s : Str} (hs : Shown s) : s.count '\n' = 0 :=
    List.count_eq_zero.mpr fun hmem => absurd (hs _ hmem) (by decide)
  obtain ⟨what, facts, changed⟩ := f
  have hlines : (∀ c ∈ facts.flatMap fun e => Finding.line e.1 e.2, c = '\n' ∨ Str.Printable c) ∧
        (facts.flatMap fun e => Finding.line e.1 e.2).count '\n' = facts.length := by
    induction facts with
    | nil => exact ⟨fun c hc => absurd hc List.not_mem_nil, rfl⟩
    | cons e facts ih =>
      obtain ⟨he, hfacts⟩ := List.forall_mem_cons.mp h.facts
      obtain ⟨hall, hn⟩ := ih ⟨h.what, hfacts⟩
      obtain ⟨rest, hline, hrest⟩ := shown_line he.1 he.2
      rw [List.flatMap_cons]
      simp only [hline]
      refine ⟨fun c hc => ?_, ?_⟩
      · rcases List.mem_append.mp hc with hc | hc
        · exact (List.mem_cons.mp hc).imp_right (hrest c)
        · exact hall c hc
      · rw [List.count_append, List.count_cons_self, hcount hrest, hn, List.length_cons]
        omega
  have hreport : Finding.report ⟨what, facts, changed⟩ =
      what ++ facts.flatMap fun e => Finding.line e.1 e.2 := rfl
  refine ⟨fun c hc => ?_, ?_⟩
  · rcases List.mem_append.mp hc with hc | hc
    · exact .inr (h.what c hc)
    · exact hlines.1 c hc
  · rw [hreport, List.count_append, hcount h.what, hlines.2, Nat.zero_add]

end Findings
end Krypto.Inspect
