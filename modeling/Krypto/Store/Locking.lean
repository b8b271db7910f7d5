import Krypto.Store.Sharing

/-! Taking the lock among others: what every party may rely on, and that a lock
is taken by one party at a time. -/

namespace Krypto.Store
open Effect

section Locking
variable {ι : Type} {P : Primitives} {path : Bytes} {start : Option Bytes}

/-- What holds of the shared state at all times: a file that passed the check holds the lock, and
it is the lock file; and while there is none the store's file is explained by the history. -/
structure Sound (P : Primitives) (path : Bytes) (start : Option Bytes) (g : Shared ι) : Prop where
  held : ∀ i f n, g.passed i f n → g.locks n = some (i, f) ∧ g.disk.dir (lockPath path) = some n
  rest : (∀ i f n, ¬g.passed i f n) → Explains P start (effects g.history) (g.disk.stored path)

theorem Sound.unique {g : Shared ι} (h : Sound P path start g) {i j : ι} {f k n m : Nat}
    (hi : g.passed i f n) (hj : g.passed j k m) : i = j ∧ f = k ∧ n = m := by
  obtain ⟨hlock, hdir⟩ := h.held i f n hi
  obtain ⟨hlock', hdir'⟩ := h.held j k m hj
  obtain rfl : n = m := Option.some.inj (hdir.symm.trans hdir')
  have heq := Option.some.inj (hlock.symm.trans hlock')
  exact ⟨congrArg Prod.fst heq, congrArg Prod.snd heq, rfl⟩

/-- What party `i` relies on: no one else touches its locks, and while it has passed the check no
one else touches the disk, or has an effect. -/
structure Trust (i : ι) (g g' : Shared ι) : Prop where
  passed : ∀ f n, g'.passed i f n ↔ g.passed i f n
  locks : ∀ n f, g'.locks n = some (i, f) ↔ g.locks n = some (i, f)
  frozen : ∀ f n, g.passed i f n → g'.disk = g.disk ∧ effects g'.history = effects g.history

theorem Trust.refl (i : ι) (g : Shared ι) : Trust i g g :=
  ⟨fun _ _ => Iff.rfl, fun _ _ => Iff.rfl, fun _ _ _ => ⟨rfl, rfl⟩⟩

theorem Trust.trans (i : ι) {a b c : Shared ι} (h : Trust i a b) (h' : Trust i b c) :
    Trust i a c := by
  refine ⟨fun f n => (h'.passed f n).trans (h.passed f n),
    fun n f => (h'.locks n f).trans (h.locks n f), fun f n ha => ?_⟩
  obtain ⟨hd, he⟩ := h.frozen f n ha
  obtain ⟨hd', he'⟩ := h'.frozen f n ((h.passed f n).mpr ha)
  exact ⟨hd'.trans hd, he'.trans he⟩

/-- While someone has passed the check, others are as they were when they only leave it alone. -/
theorem Trust.of_alone {i : ι} {g g' : Shared ι} (hpassed : ∀ f n, g'.passed i f n ↔ g.passed i f n)
    (hlocks : ∀ n f, g'.locks n = some (i, f) ↔ g.locks n = some (i, f))
    (hno : ∀ f n, ¬g.passed i f n) : Trust i g g' :=
  ⟨hpassed, hlocks, fun f n h => absurd h (hno f n)⟩

variable [DecidableEq ι]

abbrev TrustOf (P : Primitives) (path : Bytes) (start : Option Bytes) (i : ι) :
    Shared ι × Own → Shared ι × Own → Prop :=
  Parties.Relies Trust (Sound P path start) i

abbrev KeepTrust (P : Primitives) (path : Bytes) (start : Option Bytes)
    (Mid : Shared ι × Own → Prop) (i : ι) :
    Call Bytes → Shared ι × Own → Shared ι × Own → Prop :=
  Parties.Guarantees Trust (Sound P path start) Mid i

/-! ## While someone has the lock -/

def alreadyOpen : Error :=
  .io ⟨.wouldBlock, "the store file is already open, in this or another process"⟩

/-- Someone has passed the check with the inode `n`, and the files of party `i` that hold locks
are numbered below `m`. -/
structure Blocked (path : Bytes) (i : ι) (n m : Nat) (s : Shared ι × Own) : Prop where
  dir : s.1.disk.dir (lockPath path) = some n
  locked : ∃ j f, s.1.locks n = some (j, f)
  passed : ∀ f k, s.1.passed i f k → f < m
  below : ∀ k f, s.1.locks k = some (i, f) → f < m
  next : m ≤ s.2.nextFile

theorem openCreate_existing {i : ι} {s : Shared ι × Own} {n mode : Nat} {name : Bytes}
    (h : s.1.disk.dir name = some n) :
    (party path i).step (.openCreate name mode) none s = (.ok s.2.nextFile, s.1,
      ⟨Function.update s.2.files s.2.nextFile (some n), s.2.nextFile + 1⟩) := by
  obtain ⟨g, k⟩ := s
  simp only [party, Process.step, view, h, Process.openFile, passedAfter]

theorem tryLock_free {i : ι} {s : Shared ι × Own} {f n : Nat} (hf : s.2.files f = some n)
    (hl : s.1.locks n = none) : (party path i).step (.tryLock f) none s =
      (.ok (), { s.1 with locks := Function.update s.1.locks n (some (i, f)) }, s.2) := by
  obtain ⟨g, k⟩ := s
  simp only at hf hl
  simp only [party, Process.step, view, hf, hl, passedAfter]

theorem tryLock_held {i : ι} {s : Shared ι × Own} {f n : Nat} {x : ι × Nat}
    (hf : s.2.files f = some n) (hl : s.1.locks n = some x) (hne : x ≠ (i, f)) :
    (party path i).step (.tryLock f) none s = (.error .wouldBlock, s.1, s.2) := by
  obtain ⟨g, k⟩ := s
  simp only at hf hl
  simp only [party, Process.step, view, hf, hl, if_neg hne, passedAfter]

theorem fstat_open {i : ι} {s : Shared ι × Own} {f n : Nat} (hf : s.2.files f = some n) :
    (party path i).step (.fstat f) none s = (.ok ⟨n, s.1.disk.mode n⟩, s.1, s.2) := by
  obtain ⟨g, k⟩ := s
  simp only at hf
  simp only [party, Process.step, view, hf, passedAfter]

theorem stat_missing {i : ι} {s : Shared ι × Own} {name : Bytes} (h : s.1.disk.dir name = none) :
    (party path i).step (.stat name) none s = (.error Process.notFound, s.1, s.2) := by
  obtain ⟨g, k⟩ := s
  simp only at h
  simp only [party, Process.step, view, h, passedAfter]

theorem stat_found {i : ι} {s : Shared ι × Own} {name : Bytes} {n : Nat}
    (h : s.1.disk.dir name = some n) : (party path i).step (.stat name) none s =
      (.ok ⟨n, s.1.disk.mode n⟩, { s.1 with
        passed := passedAfter path i s (.stat name) (.ok ⟨n, s.1.disk.mode n⟩) }, s.2) := by
  obtain ⟨g, k⟩ := s
  simp only at h
  simp only [party, Process.step, view, h]

theorem close_unlocked {i : ι} {s : Shared ι × Own} {f : Nat}
    (hlocks : ∀ n, s.1.locks n ≠ some (i, f)) (hpassed : ∀ n, ¬s.1.passed i f n) :
    (party path i).step (.close f) () s =
      ((), s.1, ⟨Function.update s.2.files f none, s.2.nextFile⟩) := by
  obtain ⟨⟨disk, locks, passed, history⟩, k⟩ := s
  have hl : (fun n => if locks n = some (i, f) then none else locks n) = locks :=
    funext fun n => if_neg (hlocks n)
  have hp : (fun j g inode => passed j g inode ∧ ¬(j = i ∧ g = f)) = passed := by
    funext j g inode
    refine propext ⟨fun h => h.1, fun h => ⟨h, ?_⟩⟩
    rintro ⟨rfl, rfl⟩
    exact hpassed inode h
  simp only [party, Process.step, view, passedAfter, hl, hp]
  rfl

theorem takeLock_blocked {R : Shared ι × Own → Shared ι × Own → Prop}
    {G : Call Bytes → Shared ι × Own → Shared ι × Own → Prop} {X : Shared ι × Own → Prop}
    {i : ι} {n m : Nat} (hX : ∀ s, X s → Blocked path i n m s)
    (hR : ∀ s t, X s → R s t → X t ∧ t.2 = s.2)
    (hown : ∀ g k k', X (g, k) → k.nextFile ≤ k'.nextFile → X (g, k'))
    (hG : ∀ op s k', X s → G op s (s.1, k')) {s : Shared ι × Own} (hs : X s) :
    rg (party path i) calm R G (takeLock path) (fun r t => r = .err alreadyOpen ∧ X t) s := by
  intro s1 hs1 c hc
  obtain ⟨hx1, -⟩ := hR s s1 hs hs1
  obtain rfl : c = none := hc
  have hb1 := hX s1 hx1
  rw [openCreate_existing hb1.dir]
  refine ⟨hG _ s1 _ hx1, ?_⟩
  have hx2 := hown s1.1 s1.2
    ⟨Function.update s1.2.files s1.2.nextFile (some n), s1.2.nextFile + 1⟩ hx1 (Nat.le_succ _)
  intro s3 hs3 c hc
  obtain ⟨hx3, hown3⟩ := hR _ s3 hx2 hs3
  obtain rfl : c = none := hc
  have hb3 := hX s3 hx3
  have hfile : s3.2.files s1.2.nextFile = some n := by
    rw [hown3]
    exact Function.update_self _ _ _
  -- the lock belongs to another handle, whoever moved in between
  obtain ⟨j, f, hlocked⟩ := hb3.locked
  have hne : (j, f) ≠ (i, s1.2.nextFile) := by
    intro he
    have hlt := hb3.below n s1.2.nextFile (he ▸ hlocked)
    exact absurd hlt (Nat.not_lt.mpr hb1.next)
  rw [tryLock_held hfile hlocked hne]
  refine ⟨hG _ s3 _ hx3, ?_⟩
  intro s4 hs4 c hc
  obtain ⟨hx4, -⟩ := hR _ s4 hx3 hs4
  have hb4 := hX s4 hx4
  have hlocks (k : Nat) : s4.1.locks k ≠ some (i, s1.2.nextFile) := fun h =>
    absurd (hb4.below k _ h) (Nat.not_lt.mpr hb1.next)
  have hpassed (k : Nat) : ¬s4.1.passed i s1.2.nextFile k := fun h =>
    absurd (hb4.passed _ k h) (Nat.not_lt.mpr hb1.next)
  -- closing the refused handle gives up no lock
  have hclose : (party path i).step (.close s1.2.nextFile) c s4 =
      ((), s4.1, ⟨Function.update s4.2.files s1.2.nextFile none, s4.2.nextFile⟩) :=
    close_unlocked hlocks hpassed
  rw [hclose]
  refine ⟨hG _ s4 _ hx4, ?_⟩
  have hx5 := hown s4.1 s4.2 ⟨Function.update s4.2.files s1.2.nextFile none, s4.2.nextFile⟩ hx4
    (Nat.le_refl _)
  intro s5 hs5
  exact ⟨rfl, (hR _ s5 hx5 hs5).1⟩

/-! ## Taking the lock -/

structure Free (i : ι) (s : Shared ι × Own) : Prop where
  passed : ∀ f n, ¬s.1.passed i f n
  locks : ∀ n f, s.1.locks n ≠ some (i, f)

/-- Party `i` has passed the check with its file `f`, and has no other lock. -/
structure Holding (i : ι) (f : Nat) (s : Shared ι × Own) : Prop where
  passed : ∃ n, s.1.passed i f n
  only : ∀ n k, s.1.locks n = some (i, k) → k = f
  next : f < s.2.nextFile

/-- It has `f` open, not checked yet, and has no other lock. -/
structure Trying (i : ι) (f n : Nat) (s : Shared ι × Own) : Prop where
  passed : ∀ f n, ¬s.1.passed i f n
  only : ∀ m k, s.1.locks m = some (i, k) → k = f
  file : s.2.files f = some n
  next : f < s.2.nextFile

omit [DecidableEq ι] in
theorem Free.trust {i : ι} {s t : Shared ι × Own} (h : Free i s) (ht : TrustOf P path start i s t) :
    Free i t :=
  ⟨fun f n hp => h.passed f n ((ht.1.passed f n).mp hp),
    fun n f hl => h.locks n f ((ht.1.locks n f).mp hl)⟩

omit [DecidableEq ι] in
theorem Holding.trust {i : ι} {f : Nat} {s t : Shared ι × Own} (h : Holding i f s)
    (ht : TrustOf P path start i s t) : Holding i f t ∧ t.1.disk = s.1.disk ∧
      effects t.1.history = effects s.1.history ∧ t.2 = s.2 := by
  obtain ⟨n, hn⟩ := h.passed
  obtain ⟨hd, he⟩ := ht.1.frozen f n hn
  refine ⟨⟨⟨n, (ht.1.passed f n).mpr hn⟩, fun m k hl => h.only m k ((ht.1.locks m k).mp hl), ?_⟩,
    hd, he, ht.2.1⟩
  rw [ht.2.1]
  exact h.next

omit [DecidableEq ι] in
theorem Trying.trust {i : ι} {f n : Nat} {s t : Shared ι × Own} (h : Trying i f n s)
    (ht : TrustOf P path start i s t) : Trying i f n t := by
  refine ⟨fun g m hp => h.passed g m ((ht.1.passed g m).mp hp),
    fun m k hl => h.only m k ((ht.1.locks m k).mp hl), ?_, ?_⟩
  · rw [ht.2.1]
    exact h.file
  · rw [ht.2.1]
    exact h.next

/-- Closing a file that has not passed the check: its lock goes, and nothing else. -/
theorem close_trying {Mid : Shared ι × Own → Prop} {i : ι} {f n : Nat} {s : Shared ι × Own}
    (hmid : Mid s) (hs : Trying i f n s) (hsound : Sound P path start s.1) (c : Unit) :
    KeepTrust P path start Mid i (.close f) s ((party path i).step (.close f) c s).2 ∧
      Free i ((party path i).step (.close f) c s).2 := by
  have hlock (m : Nat) (j : ι) (k : Nat) (hne : (j, k) ≠ (i, f)) :
      (if s.1.locks m = some (i, f) then none else s.1.locks m) = some (j, k) ↔
        s.1.locks m = some (j, k) := by
    split_ifs with h
    · rw [h]
      exact iff_of_false (fun h => nomatch h) fun h => hne (Option.some.inj h).symm
    · exact Iff.rfl
  refine ⟨⟨hmid, ⟨?_, ?_⟩, ?_⟩, ?_, ?_⟩
  · rintro j k m ⟨hp, hne⟩
    obtain ⟨hl, hd⟩ := hsound.held j k m hp
    refine ⟨(hlock m j k ?_).mpr hl, hd⟩
    rintro ⟨⟩
    exact hne ⟨rfl, rfl⟩
  · intro hno
    refine hsound.rest fun j k m hp => hno j k m ⟨hp, ?_⟩
    rintro ⟨rfl, rfl⟩
    exact hs.passed k m hp
  · intro j hj
    refine ⟨fun k m => ⟨fun h => h.1, fun h => ⟨h, fun he => hj he.1⟩⟩, fun m k => ?_,
      fun _ _ _ => ⟨rfl, rfl⟩⟩
    exact hlock m j k fun he => hj (congrArg Prod.fst he)
  · rintro k m ⟨hp, -⟩
    exact hs.passed k m hp
  · intro m k hl
    have hl' : (if s.1.locks m = some (i, f) then none else s.1.locks m) = some (i, k) := hl
    split_ifs at hl' with h
    obtain rfl := hs.only m k hl'
    exact h hl'

theorem openCreate_lock {Mid : Shared ι × Own → Prop} {i : ι} {s : Shared ι × Own} (hmid : Mid s)
    (hs : Free i s) (hsound : Sound P path start s.1) (mode : Nat) :
    ∃ n, ((party path i).step (.openCreate (lockPath path) mode) none s).1 = .ok s.2.nextFile ∧
      KeepTrust P path start Mid i (.openCreate (lockPath path) mode) s
        ((party path i).step (.openCreate (lockPath path) mode) none s).2 ∧
      Trying i s.2.nextFile n ((party path i).step (.openCreate (lockPath path) mode) none s).2 ∧
      ∀ m k, ((party path i).step (.openCreate (lockPath path) mode) none s).2.1.locks m ≠
        some (i, k) := by
  cases hdir : s.1.disk.dir (lockPath path) with
  | some n =>
    rw [openCreate_existing hdir]
    refine ⟨n, rfl, ⟨hmid, hsound, fun j _ => Trust.refl j s.1⟩, ⟨hs.passed, ?_,
      Function.update_self _ _ _, Nat.lt_succ_self _⟩, hs.locks⟩
    exact fun m k hl => absurd hl (hs.locks m k)
  | none =>
    have hno (j : ι) (f n : Nat) : ¬s.1.passed j f n := by
      intro hp
      have hd := (hsound.held j f n hp).2
      rw [hdir] at hd
      cases hd
    have hstep : (party path i).step (.openCreate (lockPath path) mode) none s =
        (.ok s.2.nextFile, { s.1 with disk := s.1.disk.create (lockPath path) mode },
          ⟨Function.update s.2.files s.2.nextFile (some s.1.disk.fresh), s.2.nextFile + 1⟩) := by
      obtain ⟨g, k⟩ := s
      simp only at hdir
      simp only [party, Process.step, view, hdir, Process.openFile, passedAfter]
    rw [hstep]
    refine ⟨s.1.disk.fresh, rfl, ⟨hmid, ⟨fun j f n hp => absurd hp (hno j f n), fun _ => ?_⟩, ?_⟩,
      ⟨hs.passed, fun m k hl => absurd hl (hs.locks m k), Function.update_self _ _ _,
      Nat.lt_succ_self _⟩, hs.locks⟩
    · have hstored := s.1.disk.stored_create_of_ne (lockPath_ne path).symm mode
      show Explains P start _ ((s.1.disk.create (lockPath path) mode).stored path)
      rw [hstored]
      exact hsound.rest hno
    · exact fun j _ => Trust.of_alone (fun _ _ => Iff.rfl) (fun _ _ => Iff.rfl) (hno j)

theorem tryLock_trying {Mid : Shared ι × Own → Prop} {i : ι} {f n : Nat} {s : Shared ι × Own}
    (hmid : Mid s) (hs : Trying i f n s) (hsound : Sound P path start s.1)
    (hl : s.1.locks n = none) :
    KeepTrust P path start Mid i (.tryLock f) s
        ({ s.1 with locks := Function.update s.1.locks n (some (i, f)) }, s.2) ∧
      Trying i f n ({ s.1 with locks := Function.update s.1.locks n (some (i, f)) }, s.2) := by
  have hlock (m : Nat) (j : ι) (k : Nat) (hne : (j, k) ≠ (i, f)) :
      Function.update s.1.locks n (some (i, f)) m = some (j, k) ↔ s.1.locks m = some (j, k) := by
    by_cases hm : m = n
    · subst hm
      rw [Function.update_self, hl]
      exact iff_of_false (fun h => hne (Option.some.inj h).symm) fun h => nomatch h
    · rw [Function.update_of_ne hm]
  refine ⟨⟨hmid, ⟨?_, hsound.rest⟩, ?_⟩, hs.passed, ?_, hs.file, hs.next⟩
  · intro j k m hp
    obtain ⟨hlk, hd⟩ := hsound.held j k m hp
    refine ⟨(hlock m j k ?_).mpr hlk, hd⟩
    rintro ⟨⟩
    exact hs.passed _ _ hp
  · intro j hj
    exact ⟨fun _ _ => Iff.rfl, fun m k => hlock m j k fun he => hj (congrArg Prod.fst he),
      fun _ _ _ => ⟨rfl, rfl⟩⟩
  · intro m k hlk
    by_cases hk : (i, k) = (i, f)
    · exact congrArg Prod.snd hk
    · exact hs.only m k ((hlock m i k hk).mp hlk)

/-- The check passes: it has the lock, no one else does, and the store's file is explained. -/
theorem stat_same {Mid : Shared ι × Own → Prop} {i : ι} {f n : Nat} {s : Shared ι × Own}
    (hmid : Mid s) (hs : Trying i f n s) (hsound : Sound P path start s.1)
    (hl : s.1.locks n = some (i, f)) (hdir : s.1.disk.dir (lockPath path) = some n) :
    KeepTrust P path start Mid i (.stat (lockPath path)) s
        ((party path i).step (.stat (lockPath path)) none s).2 ∧
      Holding i f ((party path i).step (.stat (lockPath path)) none s).2 ∧
      Explains P start (effects s.1.history) (s.1.disk.stored path) := by
  rw [stat_found hdir]
  have hpass : passedAfter path i s (.stat (lockPath path)) (.ok ⟨n, s.1.disk.mode n⟩) i f n :=
    Or.inr ⟨rfl, rfl, rfl, hs.file, hl⟩
  have hno (j : ι) (k m : Nat) : ¬s.1.passed j k m := by
    intro hp
    obtain ⟨hlk, hd⟩ := hsound.held j k m hp
    obtain rfl : n = m := Option.some.inj (hdir.symm.trans hd)
    obtain rfl : j = i := congrArg Prod.fst (Option.some.inj (hlk.symm.trans hl))
    exact hs.passed k n hp
  refine ⟨⟨hmid, ⟨?_, fun h => absurd hpass (h i f n)⟩, ?_⟩, ⟨⟨n, hpass⟩, hs.only, hs.next⟩,
    hsound.rest hno⟩
  · rintro j k m (hp | ⟨-, rfl, rfl, hfile, hlk⟩)
    · exact absurd hp (hno j k m)
    · exact ⟨hlk, hdir⟩
  · intro j hj
    refine Trust.of_alone (fun k m => ⟨?_, Or.inl⟩) (fun _ _ => Iff.rfl) (hno j)
    rintro (hp | ⟨-, rfl, -⟩)
    · exact hp
    · exact absurd rfl hj

theorem stat_other {Mid : Shared ι × Own → Prop} {i : ι} {f n m : Nat} {s : Shared ι × Own}
    (hmid : Mid s) (hs : Trying i f n s) (hsound : Sound P path start s.1)
    (hdir : s.1.disk.dir (lockPath path) = some m) (hne : n ≠ m) :
    KeepTrust P path start Mid i (.stat (lockPath path)) s
        ((party path i).step (.stat (lockPath path)) none s).2 ∧
      Trying i f n ((party path i).step (.stat (lockPath path)) none s).2 := by
  rw [stat_found hdir]
  have hpassed : passedAfter path i s (.stat (lockPath path)) (.ok ⟨m, s.1.disk.mode m⟩) =
      s.1.passed := by
    funext j k inode
    refine propext ⟨?_, Or.inl⟩
    rintro (hp | ⟨-, rfl, rfl, hfile, hlk⟩)
    · exact hp
    · obtain rfl := hs.only inode k hlk
      exact absurd (Option.some.inj (hs.file.symm.trans hfile)) hne
  rw [hpassed]
  exact ⟨⟨hmid, hsound, fun j _ => Trust.refl j s.1⟩, hs.passed, hs.only, hs.file, hs.next⟩

/-- Taking the lock among others, from none: it is had and was checked, or there is an I/O error
and none is had. -/
theorem lockTries_free {Mid : Shared ι × Own → Prop} {i : ι}
    (hmid : ∀ s, (∀ f n, ¬s.1.passed i f n) → Mid s) (tries : Nat) {s : Shared ι × Own}
    (hs : Free i s) :
    rg (party path i) calm (TrustOf P path start i) (KeepTrust P path start Mid i)
      (lockTries (lockPath path) tries) (fun r t =>
        (∃ f, r = .ok (some f) ∧ Holding i f t ∧
          Explains P start (effects t.1.history) (t.1.disk.stored path)) ∨
        ∃ e, r = .err (.io e) ∧ Free i t) s := by
  -- The lock is closed, and what follows starts from none.
  have hdrop {α : Type} {f n : Nat} {s : Shared ι × Own} {p : Action Bytes α}
      {Q : Outcome Error α → Shared ι × Own → Prop} (hs : Trying i f n s)
      (hp : ∀ t, Free i t → rg (party path i) calm (TrustOf P path start i)
        (KeepTrust P path start Mid i) p Q t) :
      rg (party path i) calm (TrustOf P path start i) (KeepTrust P path start Mid i)
        (dropFile f >>= fun _ => p) Q s := by
    intro t ht c _
    have ht' := hs.trust ht
    obtain ⟨hg, hfree⟩ := close_trying (hmid t ht'.passed) ht' ht.2.2 c
    exact ⟨hg, hp _ hfree⟩
  induction tries generalizing s with
  | zero => exact fun t ht => Or.inr ⟨_, rfl, hs.trust ht⟩
  | succ tries ih =>
    intro s1 hs1 c hc
    obtain rfl : c = none := hc
    have hfree1 := hs.trust hs1
    obtain ⟨n, hreply, hg, htrying, hlocks⟩ :=
      openCreate_lock (hmid s1 hfree1.passed) hfree1 hs1.2.2 0o600
    refine ⟨hg, ?_⟩
    rw [hreply]
    intro s3 hs3 c hc
    obtain rfl : c = none := hc
    have h3 := htrying.trust hs3
    -- someone else may hold it: then the file is closed and nothing is tried again
    cases hl : s3.1.locks n with
    | some x =>
      have hx : x ≠ (i, s1.2.nextFile) := by
        rintro rfl
        exact hlocks n _ ((hs3.1.locks n _).mp hl)
      rw [tryLock_held h3.file hl hx]
      refine ⟨⟨hmid s3 h3.passed, hs3.2.2, fun j _ => Trust.refl j s3.1⟩, ?_⟩
      refine hdrop (p := Prog.throw _) h3 fun t hfree => ?_
      exact fun u hu => Or.inr ⟨_, rfl, hfree.trust hu⟩
    | none =>
      obtain ⟨hg, h4⟩ := tryLock_trying (hmid s3 h3.passed) h3 hs3.2.2 hl
      rw [tryLock_free h3.file hl]
      refine ⟨hg, ?_⟩
      -- it is held from here on, whatever the others do, but not checked yet
      intro s5 hs5 c hc
      obtain rfl : c = none := hc
      have h5 := h4.trust hs5
      have hl5 : s5.1.locks n = some (i, s1.2.nextFile) :=
        (hs5.1.locks n _).mpr (Function.update_self _ _ _)
      rw [fstat_open h5.file]
      refine ⟨⟨hmid s5 h5.passed, hs5.2.2, fun j _ => Trust.refl j s5.1⟩, ?_⟩
      intro s6 hs6 c hc
      obtain rfl : c = none := hc
      have h6 := h5.trust hs6
      have hl6 : s6.1.locks n = some (i, s1.2.nextFile) := (hs6.1.locks n _).mpr hl5
      -- the path names nothing, this file, or another: only this file passes
      cases hdir : s6.1.disk.dir (lockPath path) with
      | none =>
        rw [stat_missing hdir]
        refine ⟨⟨hmid s6 h6.passed, hs6.2.2, fun j _ => Trust.refl j s6.1⟩, ?_⟩
        exact hdrop h6 fun t hfree => ih hfree
      | some m =>
        by_cases hm : n = m
        · subst hm
          obtain ⟨hg, hholding, hexplains⟩ := stat_same (hmid s6 h6.passed) h6 hs6.2.2 hl6 hdir
          refine ⟨hg, ?_⟩
          rw [stat_found hdir] at hholding ⊢
          have hsame : decide (n = n) = true := decide_eq_true rfl
          show rg _ _ _ _ (if decide (n = n) = true then pure (some s1.2.nextFile)
            else dropFile s1.2.nextFile >>= fun _ => lockTries (lockPath path) tries) _ _
          rw [if_pos hsame]
          intro t ht
          obtain ⟨hholding', hdisk, heffects, -⟩ := hholding.trust ht
          refine Or.inl ⟨s1.2.nextFile, rfl, hholding', ?_⟩
          rw [hdisk, heffects]
          exact hexplains
        · obtain ⟨hg, h7⟩ := stat_other (hmid s6 h6.passed) h6 hs6.2.2 hdir hm
          refine ⟨hg, ?_⟩
          rw [stat_found hdir] at h7 ⊢
          have hother : ¬decide (n = m) = true := by simpa using hm
          show rg _ _ _ _ (if decide (n = m) = true then pure (some s1.2.nextFile)
            else dropFile s1.2.nextFile >>= fun _ => lockTries (lockPath path) tries) _ _
          rw [if_neg hother]
          exact hdrop h7 fun t hfree => ih hfree

end Locking
end Krypto.Store
