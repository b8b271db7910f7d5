import Krypto.Secret.Pages

/-! The threads of a process make secrets, read them and drop them, in any order. Their buffers are
the values that the rest of the crate takes them for, and what is in them is on locked pages only. -/

namespace Krypto.Secret
open Effect Memory

variable {α : Type}

/-! ### What is asked -/

inductive Making where
  | fromVec (v : Bytes) (hlen : v.length < 2 ^ 64)
  | fillWith (len : UInt64) (left : Fixed len.toNat) (fill : Outcome Error Unit)
  | randomWithLimit (len limit : UInt64)

namespace Making

def value : Making → Action Bytes Krypto.SecretBuf
  | fromVec v _ => Krypto.SecretBuf.fromVec v
  | fillWith len left fill => Krypto.SecretBuf.fillWith len.toNat (fill >>= fun _ => .ok left)
  | randomWithLimit len limit => Krypto.SecretBuf.randomWithLimit len.toNat limit.toNat

def wiped : Making → Bytes
  | fromVec v _ => List.replicate v.length 0
  | _ => []

/-- How it ends, with what is in the buffer and what is left of the source. -/
def run : Making → Step (Outcome Error (SecretBuf × Bytes) × Bytes)
  | fromVec v _ => do
    let (out, left) ← SecretBuf.fromVec v
    match out with
    | .ok s => pure (.ok (s, v), left)
    | .error e => pure (.err e, left)
  | fillWith len left fill => (SecretBuf.fillWith len.toNat left fill).andThen fun
    | .ok s => pure (.ok (s, left.toList), [])
    | .err e => pure (.err e, [])
    | .panic => pure (.panic, [])
  | randomWithLimit len limit => (SecretBuf.randomWithLimit len.toNat limit.toNat).andThen fun
    | .ok (s, drawn) => pure (.ok (s, drawn.toList), [])
    | .err e => pure (.err e, [])
    | .panic => pure (.panic, [])

end Making

inductive Request where
  | make (q : Making)
  | expose (n : ℕ)
  | drop (n : ℕ)

inductive Answer where
  | made (r : Outcome Error Unit) (left : Bytes)
  | exposed (b : Bytes)
  | none
  deriving DecidableEq

/-- A thread keeps the secrets that it made, each with the bytes that it made it of. -/
def serve : Server Access.Reply Error Request Answer (List (SecretBuf × Bytes))
  | .make q, h => do
    let (r, left) ← q.run
    match r with
    | .ok e => pure (.made (.ok ()) left, e :: h)
    | .err e => pure (.made (.err e) left, h)
    | .panic => pure (.made .panic left, h)
  | .expose n, h =>
    match h[n]? with
    | some (s, _) => do
      let b ← s.expose
      pure (.exposed b, h)
    | none => pure (.none, h)
  | .drop n, h =>
    match h[n]? with
    | some (s, _) => do
      s.drop
      pure (.none, h.eraseIdx n)
    | none => pure (.none, h)

/-! ### Of values -/

def Gives (p : Action Bytes α) (r : Outcome Error α) : Prop :=
  ∃ s', Ends (Effect.kernel Bytes ()) (fun _ _ => True) p Effect.Process.start r s'

inductive Does : List Krypto.SecretBuf → Request → Answer → List Krypto.SecretBuf → Prop where
  | made {vs q b} (h : Gives q.value (.ok b)) : Does vs (.make q) (.made (.ok ()) q.wiped) (b :: vs)
  | failed {vs q e} (h : Gives q.value (.err e)) : Does vs (.make q) (.made (.err e) q.wiped) vs
  | unwound {vs q} (h : Gives q.value .panic) : Does vs (.make q) (.made .panic q.wiped) vs
  | exposed {vs n b} (h : vs[n]? = some b) : Does vs (.expose n) (.exposed b) vs
  | absent {vs n} (h : vs[n]? = none) : Does vs (.expose n) .none vs
  | dropped {vs n} : Does vs (.drop n) .none (vs.eraseIdx n)

section Values
variable {n : ℕ} {r : Outcome Error α}

theorem gives_done (r : Outcome Error α) : Gives (lift r) r := ⟨_, .refl _⟩

theorem gives_lockedPages {f : Unit → Action Bytes α} (h : Gives (f ()) r) : Gives (lockedPages n >>= f) r := by
  unfold lockedPages
  split_ifs
  · exact h
  · obtain ⟨s', hends⟩ := h
    exact ⟨s', .step (Except.ok () : Except String Unit) trivial hends⟩

theorem gives_unlocked (hn : n ≠ 0) (m : String) (f : Unit → Action Bytes α) :
    Gives (lockedPages n >>= f) (.err (.hardening (.text m))) := by
  unfold lockedPages
  rw [if_neg hn]
  exact ⟨_, .step (Except.error m : Except String Unit) trivial (.refl _)⟩

theorem gives_filled {what : String} {f : Fixed n → Action Bytes α} (b : Fixed n) (h : Gives (f b) r) :
    Gives (fill n what >>= f) r := by
  obtain ⟨s', hends⟩ := h
  exact ⟨s', .step (Except.ok b : Except String (Fixed n)) trivial hends⟩

theorem gives_unfilled (what e : String) (f : Fixed n → Action Bytes α) :
    Gives (fill n what >>= f) (.err (.hardening (.text (what ++ e)))) :=
  ⟨_, .step (Except.error e : Except String (Fixed n)) trivial (.refl _)⟩

end Values

/-! ### Making a secret, among others -/

section Programs
variable {ι : Type} [DecidableEq ι] {size k : ℕ} {i : ι} {g : Ram ι} {h : List (SecretBuf × Bytes)}
  {l : List (Event Syscall.Reply)} {Mid : Ram ι × List (Event Syscall.Reply) → Prop}

/-- What is made is what the same request makes of values. -/
def Makes (size : ℕ) (i : ι) (h : List (SecretBuf × Bytes)) (p : Action Bytes Krypto.SecretBuf) (g : Ram ι) :
    Outcome Error (SecretBuf × Bytes) → Prop
  | .ok e => Clean size i g (e :: h) ∧ Gives p (.ok e.2)
  | .err e => Clean size i g h ∧ Gives p (.err e)
  | .panic => Clean size i g h ∧ Gives p .panic

theorem Makes.looks {p : Action Bytes Krypto.SecretBuf} {g' : Ram ι} {r : Outcome Error (SecretBuf × Bytes)}
    (hpos : 0 < size) (hm : Makes size i h p g r) (hlooks : Looks size i g g') : Makes size i h p g' r := by
  cases r with
  | ok e => exact ⟨hm.1.looks hpos hlooks, hm.2⟩
  | err e => exact ⟨hm.1.looks hpos hlooks, hm.2⟩
  | panic => exact ⟨hm.1.looks hpos hlooks, hm.2⟩

theorem fromVec_amidst (hk : k ≤ 62) (hsize : size = 2 ^ k) {v : Bytes} (hlen : v.length < 2 ^ 64)
    (hc : Clean size i g h) (hmid : ∀ t l, Carries size i t h → Mid (t, l)) :
    Amidst size i Mid (SecretBuf.fromVec v) (fun r t => ∃ out, r = .ok (out, List.replicate v.length 0) ∧
      match out with
      | .ok s => Makes size i h (Krypto.SecretBuf.fromVec v) t.1 (.ok (s, v))
      | .error e => Makes size i h (Krypto.SecretBuf.fromVec v) t.1 (.err e)) (g, l) := by
  have hpos : 0 < size := hsize ▸ Nat.two_pow_pos k
  unfold SecretBuf.fromVec
  apply rg_bind amidst_self
  apply rg_attempt
  apply rg_bind amidst_self
  apply (new_amidst hk hsize hlen hc hmid).imp
  rintro r ⟨t, l'⟩ (⟨s, rfl, hs, hmade⟩ | ⟨m, rfl, hzero, hleft⟩)
  · apply amidst_store hpos
    · rw [← hs]
      exact data_sealed hpos hmade
    · exact fun u hlooks => hmid u l' (hmade.rest.looks hpos hlooks)
    intro u hlooks
    have hfull := (hmade.looks hpos hlooks).write hpos hs.symm
    apply amidst_done
    intro w hlooks'
    apply amidst_done
    intro x hlooks''
    exact ⟨.ok s, rfl, (hfull.looks hpos hlooks').looks hpos hlooks'', gives_lockedPages (gives_done _)⟩
  · apply amidst_done
    intro u hlooks
    apply amidst_done
    intro w hlooks'
    exact ⟨.error _, rfl, (hleft.looks hpos hlooks).looks hpos hlooks', gives_unlocked hzero m _⟩

theorem fillWith_amidst (hk : k ≤ 62) (hsize : size = 2 ^ k) {len : ℕ} (hlen : len < 2 ^ 64) (left : Fixed len)
    (fill : Outcome Error Unit) (hc : Clean size i g h) (hmid : ∀ t l, Carries size i t h → Mid (t, l)) :
    Amidst size i Mid (SecretBuf.fillWith len left fill) (fun r t =>
      Makes size i h (Krypto.SecretBuf.fillWith len (fill >>= fun _ => .ok left)) t.1
        (r >>= fun s => .ok (s, left.toList))) (g, l) := by
  have hpos : 0 < size := hsize ▸ Nat.two_pow_pos k
  unfold SecretBuf.fillWith
  apply rg_bind amidst_self
  apply (new_amidst hk hsize hlen hc hmid).imp
  rintro r ⟨t, l'⟩ (⟨s, rfl, hs, hmade⟩ | ⟨m, rfl, hzero, hleft⟩)
  swap
  · exact amidst_done fun u hlooks => ⟨hleft.looks hpos hlooks, gives_unlocked hzero m _⟩
  apply rg_bind amidst_self
  apply (guard_amidst (V := fun r b => r = fill ∧ b = left.toList) hpos hmid ?_).imp
  · rintro r ⟨u, l''⟩ (⟨a, b, rfl, ⟨hfill, rfl⟩, hc'⟩ | ⟨hne, ⟨b, rfl, rfl⟩, hc'⟩)
    · subst hfill
      exact amidst_done fun w hlooks => ⟨hc'.looks hpos hlooks, gives_lockedPages (gives_done _)⟩
    · cases r with
      | ok a => exact absurd rfl (hne a)
      | err e => exact amidst_done fun w hlooks => ⟨hc'.looks hpos hlooks, gives_lockedPages (gives_done _)⟩
      | panic => exact amidst_done fun w hlooks => ⟨hc'.looks hpos hlooks, gives_lockedPages (gives_done _)⟩
  · have hsame := left.length_eq.trans hs.symm
    apply amidst_store hpos
    · rw [hsame]
      exact data_sealed hpos hmade
    · exact fun u hlooks => hmid u l' (hmade.rest.looks hpos hlooks)
    intro u hlooks
    have hfull := (hmade.looks hpos hlooks).write hpos hsame
    exact amidst_done fun w hlooks' => ⟨_, hfull.looks hpos hlooks', rfl, rfl⟩

theorem randomWithLimit_amidst (hk : k ≤ 62) (hsize : size = 2 ^ k) {len limit : ℕ} (hlen : len < 2 ^ 64)
    (hc : Clean size i g h) (hmid : ∀ t l, Carries size i t h → Mid (t, l)) :
    Amidst size i Mid (SecretBuf.randomWithLimit len limit) (fun r t =>
      Makes size i h (Krypto.SecretBuf.randomWithLimit len limit) t.1
        (r >>= fun made => .ok (made.1, made.2.toList))) (g, l) := by
  have hpos : 0 < size := hsize ▸ Nat.two_pow_pos k
  unfold SecretBuf.randomWithLimit Krypto.SecretBuf.randomWithLimit checkRandomLen
  split_ifs with hlimit
  · exact amidst_done fun u hlooks => ⟨hc.looks hpos hlooks, gives_done _⟩
  show Amidst size i Mid (mapped (LockedPages.new len) >>= _) _ _
  apply rg_bind amidst_self
  apply (new_amidst hk hsize hlen hc hmid).imp
  rintro r ⟨t, l'⟩ (⟨s, rfl, hs, hmade⟩ | ⟨m, rfl, hzero, hleft⟩)
  swap
  · exact amidst_done fun u hlooks => ⟨hleft.looks hpos hlooks, gives_unlocked hzero m _⟩
  apply rg_bind amidst_self
  apply (guard_amidst (V := fun (r : Outcome Error (Fixed len)) b => (∃ d : Fixed len, r = .ok d ∧ b = d.toList) ∨
    ∃ e : String, r = .err (.hardening (.text ("getrandom failed: " ++ e)))) hpos hmid ?_).imp
  · rintro r ⟨u, l''⟩ (⟨a, b, rfl, ⟨d, hd, rfl⟩ | ⟨e, he⟩, hc'⟩ | ⟨hne, ⟨b, ⟨d, rfl, -⟩ | ⟨e, rfl⟩⟩, hc'⟩)
    · obtain rfl := Outcome.ok.inj hd
      exact amidst_done fun w hlooks =>
        ⟨hc'.looks hpos hlooks, gives_lockedPages (gives_filled a (gives_done _))⟩
    · cases he
    · exact absurd rfl (hne d)
    · exact amidst_done fun w hlooks => ⟨hc'.looks hpos hlooks, gives_lockedPages (gives_unfilled _ e _)⟩
  · have hsealed := data_sealed hpos hmade
    rw [hs] at hsealed
    apply amidst_getrandom hpos hsealed
    · exact fun u hlooks => hmid u l' (hmade.rest.looks hpos hlooks)
    · intro u d hlooks
      have hfull := (hmade.looks hpos hlooks).write hpos (d.length_eq.trans hs.symm)
      exact amidst_done fun w hlooks' => ⟨_, hfull.looks hpos hlooks', Or.inl ⟨d, rfl, rfl⟩⟩
    · intro u e part hpart hlooks
      -- what a failing draw has written is on the secret's own pages, and is wiped with it
      have hpartly := (hmade.looks hpos hlooks).write_part hpos (hs.symm ▸ hpart)
      exact amidst_done fun w hlooks' => ⟨_, hpartly.looks hpos hlooks', Or.inr ⟨e, rfl⟩⟩

theorem run_amidst (hk : k ≤ 62) (hsize : size = 2 ^ k) (q : Making) (hc : Clean size i g h)
    (hmid : ∀ t l, Carries size i t h → Mid (t, l)) :
    Amidst size i Mid q.run (fun r t => ∃ out, r = .ok (out, q.wiped) ∧ Makes size i h q.value t.1 out) (g, l) := by
  have hpos : 0 < size := hsize ▸ Nat.two_pow_pos k
  cases q with
  | fromVec v hlen =>
    apply rg_bind amidst_self
    refine (fromVec_amidst hk hsize hlen hc hmid).imp ?_
    rintro r ⟨t, l'⟩ ⟨out, rfl, hmakes⟩
    cases out with
    | ok s => exact amidst_done fun u hlooks => ⟨_, rfl, Makes.looks hpos hmakes hlooks⟩
    | error e => exact amidst_done fun u hlooks => ⟨_, rfl, Makes.looks hpos hmakes hlooks⟩
  | fillWith len left fill =>
    apply rg_andThen amidst_self
    refine (fillWith_amidst hk hsize len.toNat_lt left fill hc hmid).imp ?_
    rintro r ⟨t, l'⟩ hmakes
    cases r with
    | ok s => exact amidst_done fun u hlooks => ⟨_, rfl, hmakes.looks hpos hlooks⟩
    | err e => exact amidst_done fun u hlooks => ⟨_, rfl, hmakes.looks hpos hlooks⟩
    | panic => exact amidst_done fun u hlooks => ⟨_, rfl, hmakes.looks hpos hlooks⟩
  | randomWithLimit len limit =>
    apply rg_andThen amidst_self
    refine (randomWithLimit_amidst hk hsize len.toNat_lt hc hmid).imp ?_
    rintro r ⟨t, l'⟩ hmakes
    cases r with
    | ok made => exact amidst_done fun u hlooks => ⟨_, rfl, hmakes.looks hpos hlooks⟩
    | err e => exact amidst_done fun u hlooks => ⟨_, rfl, hmakes.looks hpos hlooks⟩
    | panic => exact amidst_done fun u hlooks => ⟨_, rfl, hmakes.looks hpos hlooks⟩

end Programs

/-! ### The threads of a process -/

section Threads
variable {ι : Type} [DecidableEq ι]

/-- Whoever else uses memory leaves the pages of the threads alone, and none of what is left on
pages that nobody has comes back. -/
def Others (size : ℕ) (g g' : Ram ι) : Prop :=
  g'.faulted = g.faulted ∧ (∀ i, Same i g.space g'.space) ∧
    ∀ a, g'.bytes a = g.bytes a ∨ g'.bytes a = 0 ∧ ∀ i, g.space.view i (a / size) = none

def threads (ι : Type) [DecidableEq ι] (size : ℕ) : Parties ι Access.Reply Error Request Answer
    (List (SecretBuf × Bytes)) (Ram ι) (List (Event Syscall.Reply)) where
  machine := ram size
  env _ _ _ := True
  serve := serve
  record _ _ _ _ g := g
  outside := Others size

def kept : Request → List (SecretBuf × Bytes) → List (SecretBuf × Bytes)
  | .drop n, h => h.eraseIdx n
  | _, h => h

variable (size : ℕ)

def Idle (i : ι) (h : List (SecretBuf × Bytes)) (s : Ram ι × List (Event Syscall.Reply)) : Prop :=
  Clean size i s.1 h

def Amid (i : ι) (q : Request) (h : List (SecretBuf × Bytes)) (s : Ram ι × List (Event Syscall.Reply)) : Prop :=
  Carries size i s.1 (kept q h)

def Finished (i : ι) (q : Request) (h : List (SecretBuf × Bytes))
    (r : Outcome Error (Answer × List (SecretBuf × Bytes))) (s : Ram ι × List (Event Syscall.Reply)) : Prop :=
  ∃ a h', r = .ok (a, h') ∧ (kept q h).Sublist h' ∧ Clean size i s.1 h' ∧ Does (h.map Prod.snd) q a (h'.map Prod.snd)

variable {size} {k : ℕ} {i : ι} {g : Ram ι} {h : List (SecretBuf × Bytes)} {l : List (Event Syscall.Reply)}

theorem make_serves (hk : k ≤ 62) (hsize : size = 2 ^ k) (q : Making) (hc : Clean size i g h) :
    Amidst size i (Amid size i (.make q) h) (serve (.make q) h) (Finished size i (.make q) h) (g, l) := by
  have hpos : 0 < size := hsize ▸ Nat.two_pow_pos k
  apply rg_bind amidst_self
  refine (run_amidst hk hsize q hc fun t l ht => ht).imp ?_
  rintro r ⟨t, l'⟩ ⟨out, rfl, hmakes⟩
  cases out with
  | ok e =>
    exact amidst_done fun u hlooks =>
      ⟨_, _, rfl, List.sublist_cons_self _ _, hmakes.1.looks hpos hlooks, .made hmakes.2⟩
  | err e =>
    exact amidst_done fun u hlooks =>
      ⟨_, _, rfl, List.Sublist.refl _, hmakes.1.looks hpos hlooks, .failed hmakes.2⟩
  | panic =>
    exact amidst_done fun u hlooks =>
      ⟨_, _, rfl, List.Sublist.refl _, hmakes.1.looks hpos hlooks, .unwound hmakes.2⟩

/-- The secret at a place of the list, and the others. -/
theorem Clean.take {n : ℕ} {e : SecretBuf × Bytes} (hc : Clean size i g h) (hn : h[n]? = some e) :
    Clean size i g (e :: h.eraseIdx n) := by
  obtain ⟨hlt, rfl⟩ := List.getElem?_eq_some_iff.mp hn
  exact hc.perm (List.getElem_cons_eraseIdx_perm hlt).symm

theorem expose_serves (hpos : 0 < size) (n : ℕ) (hc : Clean size i g h) :
    Amidst size i (Amid size i (.expose n) h) (serve (.expose n) h) (Finished size i (.expose n) h) (g, l) := by
  rw [serve]
  cases hn : h[n]? with
  | none =>
    refine amidst_done fun t hlooks => ⟨_, _, rfl, List.Sublist.refl _, hc.looks hpos hlooks, .absent ?_⟩
    rw [List.getElem?_map, hn]
    rfl
  | some e =>
    apply amidst_load (data_sealed hpos (hc.take hn))
    · exact fun t hlooks => (hc.looks hpos hlooks).toCarries
    intro t hlooks
    have hread := (hc.looks hpos hlooks).contents e (List.mem_of_getElem? hn)
    refine amidst_done fun u hlooks' => ⟨_, _, rfl, List.Sublist.refl _,
      (hc.looks hpos hlooks).looks hpos hlooks', .exposed ?_⟩
    rw [List.getElem?_map, hn, hread]
    rfl

theorem drop_serves (hpos : 0 < size) (n : ℕ) (hc : Clean size i g h) :
    Amidst size i (Amid size i (.drop n) h) (serve (.drop n) h) (Finished size i (.drop n) h) (g, l) := by
  have herased : (h.eraseIdx n).map Prod.snd = (h.map Prod.snd).eraseIdx n := List.eraseIdx_map _ _ _ |>.symm
  rw [serve]
  cases hn : h[n]? with
  | none =>
    have hall : h.eraseIdx n = h := List.eraseIdx_of_length_le (List.getElem?_eq_none_iff.mp hn)
    refine amidst_done fun t hlooks => ⟨_, _, rfl, ?_, hc.looks hpos hlooks, ?_⟩
    · rw [kept, hall]
    · have hdropped : Does (h.map Prod.snd) (.drop n) .none ((h.map Prod.snd).eraseIdx n) := .dropped
      rwa [← herased, hall] at hdropped
  | some e =>
    apply rg_bind amidst_self
    refine (drop_amidst hpos (hc.take hn) fun t l ht => ht).imp ?_
    rintro r ⟨t, l'⟩ ⟨rfl, hleft⟩
    refine amidst_done fun u hlooks => ⟨_, _, rfl, List.Sublist.refl _, hleft.looks hpos hlooks, ?_⟩
    rw [herased]
    exact .dropped

/-- What every thread keeps, and may rely on the others to keep. -/
theorem discipline (hk : k ≤ 62) (hsize : size = 2 ^ k) :
    (threads ι size).Discipline (Looks size) (Safe size) (Idle size) (Amid size) (Finished size) where
  refl := Looks.refl size
  trans i := Looks.trans
  idle i h g g' l hidle hlooks _ := Clean.looks (hsize ▸ Nat.two_pow_pos k) hidle hlooks
  start i q h g l _ hidle := by
    have hpos : 0 < size := hsize ▸ Nat.two_pow_pos k
    cases q with
    | make q => exact make_serves hk hsize q hidle
    | expose n => exact expose_serves hpos n hidle
    | drop n => exact drop_serves hpos n hidle
  answer i q h a h' g l hsafe hdone := by
    obtain ⟨a', h'', he, -, hclean, -⟩ := hdone
    obtain ⟨rfl, rfl⟩ := Prod.mk.inj (Outcome.ok.inj he)
    exact ⟨hsafe, fun j hj => Looks.refl size j g, hclean⟩
  outside g g' hsafe hothers := by
    obtain ⟨hfault, hsame, hbytes⟩ := hothers
    refine ⟨⟨hfault.trans hsafe.1, fun a ha => ?_⟩, fun i => ⟨hsame i, fun a ha => ?_⟩⟩
    · rcases hbytes a with hb | ⟨hzero, -⟩
      · rw [hb] at ha
        obtain ⟨i, page, hpage, hsealed⟩ := hsafe.2 a ha
        have hview : g.space.view i = g'.space.view i := hsame i
        exact ⟨i, page, hview ▸ hpage, hsealed⟩
      · exact absurd hzero ha
    · rcases hbytes a with hb | ⟨-, hnone⟩
      · exact hb
      · exact absurd (hnone i) ha

abbrev Process (ι : Type) := World ι Access.Reply Error Request Answer (List (SecretBuf × Bytes)) (Ram ι)
  (List (Event Syscall.Reply))

/-- No thread has a secret yet, and the memory is as the system gave it. -/
structure Fresh (w : Process ι) : Prop where
  idle : ∀ i, w.status i = .idle []
  unasked : ∀ i, w.answered i = []
  zero : ∀ a, w.shared.bytes a = 0
  sound : w.shared.faulted = false

/-- The secrets that a thread has, during a request those it keeps. -/
def live (w : Process ι) (i : ι) : List (SecretBuf × Bytes) :=
  match w.status i with
  | .idle h => h
  | .running q h _ => kept q h

theorem access_total (op : Access) : ∃ _ : op.Choice, True := by
  cases op with
  | sys op => exact LockedPages.choice_total op
  | load addr len => exact ⟨(), trivial⟩
  | store addr data => exact ⟨(), trivial⟩
  | getrandom addr len => exact ⟨Except.ok (.zero len), trivial⟩

/-- Threads that make, read and drop secrets in any order, whichever of their calls fail: no access
is made that the pages do not allow, and whatever is not zero is on a page that is locked and not
dumped. Every secret has the bytes it was made of; a thread that waits has nothing else on its
pages, and when no thread has a secret nothing is left anywhere. What a thread is answered is
what the crate's operations on values answer. -/
theorem secrets_stay_on_locked_pages (hk : k ≤ 62) (hsize : size = 2 ^ k) {w₀ w : Process ι} (hstart : Fresh w₀)
    (hrun : (threads ι size).Runs w₀ w) :
    w.shared.faulted = false ∧
    (∀ a, w.shared.bytes a ≠ 0 → ∃ i page, w.shared.space.view i (a / size) = some page ∧ page.Sealed) ∧
    (∀ i, ∀ e ∈ live w i, w.shared.read e.1.pages.data e.1.pages.len = e.2) ∧
    (∀ i h, w.status i = .idle h → ∀ a, w.shared.space.view i (a / size) ≠ none → w.shared.bytes a ≠ 0 →
      ∃ e ∈ h, e.1.Spans a) ∧
    ((∀ i, w.status i = .idle []) → ∀ a, w.shared.bytes a = 0) ∧
    ∀ i, Traces Does [] (w.answered i) ((w.status i).handle.map Prod.snd) := by
  have hfirst : (threads ι size).Disciplined (Looks size) (Safe size) (Idle size) (Amid size) (Finished size) w₀ := by
    refine ⟨⟨hstart.sound, fun a ha => absurd (hstart.zero a) ha⟩, fun i => ?_⟩
    rw [hstart.idle i]
    exact ⟨⟨⟨by simp, List.Pairwise.nil⟩, by simp⟩, fun a _ ha => absurd (hstart.zero a) ha⟩
  have hdiscipline := discipline (ι := ι) hk hsize
  have hw := hdiscipline.runs hfirst hrun
  have hidle {i : ι} {h : List (SecretBuf × Bytes)} (hst : w.status i = .idle h) : Clean size i w.shared h := by
    have hi := hw.party i
    rw [hst] at hi
    exact hi
  refine ⟨hw.shared.1, hw.shared.2, fun i => ?_, fun i h hst => (hidle hst).only, fun hall a => ?_, fun i => ?_⟩
  · unfold live
    cases hst : w.status i with
    | idle h => exact (hidle hst).contents
    | running q h p =>
      rcases hw.mid hdiscipline (fun _ => access_total) hst with ⟨op, next, rfl, hamid⟩ | ⟨r, rfl, a, h', rfl, hsub, hclean, -⟩
      · exact Carries.contents hamid
      · exact fun e he => hclean.contents e (hsub.subset he)
  · by_contra ha
    obtain ⟨i, page, hpage, -⟩ := hw.shared.2 a ha
    obtain ⟨e, he, -⟩ := (hidle (hall i)).only a (by rw [hpage]; exact Option.some_ne_none _) ha
    exact absurd he List.not_mem_nil
  · apply hdiscipline.traces (fun h => h.map Prod.snd) (fun _ => []) _ hfirst _ hrun
    · rintro i q h a h' s ⟨a', h'', he, -, -, hdoes⟩
      obtain ⟨rfl, rfl⟩ := Prod.mk.inj (Outcome.ok.inj he)
      exact hdoes
    · intro i
      rw [hstart.unasked i, hstart.idle i]
      exact .nil _

def sampleStart : Process Unit where
  shared := ⟨fun _ => none, fun _ => 0, false⟩
  own _ := []
  status _ := .idle []
  answered _ := []

def plainly : (op : Access) → op.Choice
  | .sys op => LockedPages.granting op
  | .load _ _ | .store _ _ => ()
  | .getrandom _ len => (.ok (.zero len) : Except (String × Bytes) (Fixed len))

def sampleTurns : List (Unit × Option Request) :=
  let calls := List.replicate 12 ((), none)
  ((), some (.make (.fromVec [5, 7] (by decide)))) :: calls ++ ((), some (.expose 0)) :: calls ++
    ((), some (.drop 0)) :: calls

def sampleEnd : Process Unit := (threads Unit 4096).advance (fun _ => plainly) sampleTurns sampleStart

def Waits : Status Access.Reply Error Request Answer (List (SecretBuf × Bytes)) → Bool
  | .idle h => h.isEmpty
  | .running _ _ _ => false

theorem secrets_stay_on_locked_pages_sample : (threads Unit 4096).Runs sampleStart sampleEnd ∧
    (sampleEnd.answered ()).map Prod.snd = [.made (.ok ()) [0, 0], .exposed [5, 7], .none] ∧
    ∀ a, sampleEnd.shared.bytes a = 0 := by
  have hrun : (threads Unit 4096).Runs sampleStart sampleEnd :=
    Parties.runs_advance (fun _ _ => trivial) sampleTurns sampleStart
  have hfresh : Fresh sampleStart := ⟨fun _ => rfl, fun _ => rfl, fun _ => rfl, rfl⟩
  have hwaits : Waits (sampleEnd.status ()) = true := by decide +kernel
  have hidle : ∀ i, sampleEnd.status i = .idle [] := by
    intro i
    cases hst : sampleEnd.status i with
    | idle h =>
      rw [hst] at hwaits
      rw [List.isEmpty_iff.mp hwaits]
    | running q h p =>
      rw [hst] at hwaits
      cases hwaits
  exact ⟨hrun, by decide +kernel, (secrets_stay_on_locked_pages (k := 12) (by decide) rfl hfresh hrun).2.2.2.2.1 hidle⟩

end Threads
end Krypto.Secret
