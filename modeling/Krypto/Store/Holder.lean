import Krypto.Store.Locking
import Krypto.Store.Outline
import Krypto.Store.Replacing

/-! What the holder of the lock does to the shared state: its operations go as
they would if it were alone. -/

namespace Krypto.Store
open Effect

section Kept
variable {ι : Type} [DecidableEq ι] {me : ι} {path : Bytes} {f : Nat} {v : Option Bytes}

abbrev calmly (me : ι) : (kernel Bytes me).Env := calm

theorem calmly_not_flaky : ¬Flaky (calmly me) := by
  rintro ⟨e, he | he⟩ <;> cases he

/-- A call that keeps the lock that file `f` has, and the lock file; the store's file changes only
from `v`, and so at most once. -/
structure Kept (path : Bytes) (f : Nat) (v : Option Bytes) (op : Call Bytes)
    (s s' : Process Bytes ι) : Prop where
  close : op ≠ .close f
  tryLock : ∀ g, op ≠ .tryLock g
  stat : op ≠ .stat (lockPath path)
  dir : s'.disk.dir (lockPath path) = s.disk.dir (lockPath path)
  next : s.nextFile ≤ s'.nextFile
  once : s.disk.stored path ≠ v → s'.disk.stored path = s.disk.stored path

theorem Plain.kept (me : ι) (f : Nat) (v : Option Bytes) {op : Call Bytes} (h : Plain path op) (c : op.Choice) (s : Process Bytes ι) :
    Kept path f v op s (Process.step me op c s).2 ∧
      (Process.step me op c s).2.disk.stored path = s.disk.stored path ∧
      (Process.step me op c s).2.nextFile = s.nextFile := by
  have hstate : (Process.step me op c s).2.disk.dir = s.disk.dir ∧
      (Process.step me op c s).2.disk.content = s.disk.content ∧
      (Process.step me op c s).2.nextFile = s.nextFile := by
    generalize (Process.step me op c s).2 = s', Process.step_moves me op c s = hstep
    cases hstep with
    | same | chmoded => exact ⟨rfl, rfl, rfl⟩
    | _ => exact h.elim
  obtain ⟨hdir, hcontent, hnext⟩ := hstate
  have hstored : (Process.step me op c s).2.disk.stored path = s.disk.stored path := by
    rw [Disk.stored, Disk.stored, hdir, hcontent]
  refine ⟨⟨?_, ?_, ?_, congrFun hdir _, Nat.le_of_eq hnext.symm, fun _ => hstored⟩, hstored, hnext⟩
  · rintro rfl
    exact h
  · rintro g rfl
    exact h
  · rintro rfl
    exact lockPath_ne path h

theorem Aside.kept (me : ι) (v : Option Bytes) {op : Call Bytes} {s : Process Bytes ι} (h : Aside path (f + 1) s op)
    (c : op.Choice) : Kept path f v op s (Process.step me op c s).2 ∧
      (Process.step me op c s).2.disk.stored path = s.disk.stored path := by
  have hlock : (Process.step me op c s).2.disk.dir (lockPath path) = s.disk.dir (lockPath path) ∧
      (Process.step me op c s).2.disk.stored path = s.disk.stored path ∧
      s.nextFile ≤ (Process.step me op c s).2.nextFile := by
    generalize (Process.step me op c s).2 = s', Process.step_moves me op c s = hstep
    cases hstep with
    | same | closed => exact ⟨rfl, rfl, Nat.le_refl _⟩
    | created =>
      exact ⟨s.created_dir_of_ne _ _ h.2.symm, s.disk.stored_create_of_ne h.1.symm _, Nat.le_succ _⟩
    | removed =>
      refine ⟨?_, s.disk.stored_remove_of_ne h.1.symm, Nat.le_refl _⟩
      simp [Disk.remove, Update.apply, Function.update_of_ne h.2.symm]
    | written hg =>
      obtain ⟨-, i, hg', hi⟩ := h
      obtain rfl := Option.some.inj (hg.symm.trans hg')
      exact ⟨rfl, s.disk.stored_write_of_ne hi _, Nat.le_refl _⟩
    | synced => exact ⟨rfl, rfl, Nat.le_refl _⟩
    | _ => exact h.elim
  obtain ⟨hdir, hstored, hnext⟩ := hlock
  refine ⟨⟨?_, ?_, ?_, hdir, hnext, fun _ => hstored⟩, hstored⟩
  · rintro rfl
    exact Nat.not_succ_le_self f h
  · rintro g rfl
    exact h
  · rintro rfl
    exact h

theorem replaces_kept : Replaces (calmly me) (Kept path f v) path (f + 1)
    (fun s => s.disk.stored path = v ∧ f < s.nextFile) (fun s => f < s.nextFile)
    (fun s => f < s.nextFile) where
  first_le s hs := hs.2
  aside op c s hop hs := by
    obtain ⟨hkept, hstored⟩ := hop.kept me v c
    exact ⟨hkept, hstored.trans hs.1, Nat.lt_of_lt_of_le hs.2 hkept.next⟩
  notRenamed tmp s hs := ⟨nofun, nofun, nofun, rfl, Nat.le_refl _, fun _ => rfl⟩
  renamed tmp i s htmp hne hlock hclean hs := by
    refine ⟨⟨nofun, nofun, nofun, ?_, Nat.le_refl _, fun h => absurd hs.1 h⟩, hs.2⟩
    simp [Disk.rename, Update.apply, Function.update_of_ne (lockPath_ne path),
      Function.update_of_ne hlock.symm]
  openedDir s hs := ⟨nofun, nofun, nofun, rfl, Nat.le_refl _, fun _ => rfl⟩
  syncedDir s hs := ⟨⟨nofun, nofun, nofun, rfl, Nat.le_refl _, fun _ => rfl⟩, hs⟩
  done s hs := hs.2

theorem readCapped_kept (cap : Nat) {s : Process Bytes ι} (hs : f < s.nextFile) :
    wp (kernel Bytes me) (calmly me) (Kept path f v) (readCapped path cap)
      (fun _ s' => s'.disk = s.disk ∧ f < s'.nextFile) s := by
  have hsame {op : Call Bytes} {a b : Process Bytes ι} (hclose : op ≠ .close f)
      (htry : ∀ g, op ≠ .tryLock g) (hstat : op ≠ .stat (lockPath path)) (hdisk : b.disk = a.disk)
      (hnext : a.nextFile ≤ b.nextFile) : Kept path f v op a b :=
    ⟨hclose, htry, hstat, by rw [hdisk], hnext, fun _ => by rw [hdisk]⟩
  have hopen {a b : Process Bytes ι} : b.disk = a.disk → a.nextFile ≤ b.nextFile →
      Kept path f v (.openRead path) a b := by
    apply hsame <;> intros <;> simp
  have hread {g limit : ℕ} {a b : Process Bytes ι} : b.disk = a.disk → a.nextFile ≤ b.nextFile →
      Kept path f v (.read g limit) a b := by
    apply hsame <;> intros <;> simp
  have hclose {g : ℕ} (hg : g ≠ f) {a b : Process Bytes ι} : b.disk = a.disk →
      a.nextFile ≤ b.nextFile → Kept path f v (.close g) a b := by
    apply hsame <;> intros <;> simp [hg]
  cases hdir : s.disk.dir path with
  | none =>
    have hstep : Process.step me (.openRead path) none s = (.error Process.notFound, s) := by
      simp only [Process.step, hdir]
    exact wp_call_step (fun _ h => h) hstep (hopen rfl (Nat.le_refl _)) ⟨rfl, hs⟩
  | some i =>
    have hstep : Process.step me (.openRead path) none s = (.ok s.nextFile, s.openFile i) := by
      simp only [Process.step, hdir]
    refine wp_call_step (M := kernel Bytes me) (fun _ h => h) hstep (hopen rfl (Nat.le_succ _)) ?_
    show wp _ _ _ (Prog.always (ask (.read s.nextFile (cap + 1)) >>= fun y => orIo y)
      (dropFile s.nextFile) >>= fun bytes => if cap < bytes.length then _ else _) _ _
    rw [wp_bind, Prog.always, wp_andThen]
    have hbytes : Process.step me (.read s.nextFile (cap + 1)) none (s.openFile i) =
        (.ok ((s.disk.content i).take (cap + 1)), s.openFile i) := by
      simp only [Process.step, Process.openFile_files, Process.openFile_disk]
    refine wp_call_step (M := kernel Bytes me) (fun _ h => h) hbytes (hread rfl (Nat.le_refl _)) ?_
    rintro ⟨⟩ _
    refine ⟨hclose (Nat.ne_of_gt hs) rfl (Nat.le_refl _), ?_⟩
    show wp _ _ _ (if cap < ((s.disk.content i).take (cap + 1)).length then _ else _) _ _
    split_ifs <;> exact ⟨rfl, Nat.lt_succ_of_lt hs⟩

theorem Outline.kept {α : Type} {Good : SecretStore → α → Prop} {p : Action Bytes α}
    (h : Outline path Good true p) {s : Process Bytes ι} (hv : s.disk.stored path = v)
    (hf : f < s.nextFile) :
    Effect.wp (kernel Bytes me) (calmly me) (Kept path f v) p (fun _ _ => True) s := by
  let I : Bool → Process Bytes ι → Prop := fun w s =>
    (w = true → s.disk.stored path = v) ∧ f < s.nextFile
  have hI := Outline.wp (E := calmly me) (G := Kept path f v) (I := I)
    (fun s hs => ⟨fun h => (nomatch h), hs.2⟩) (fun w op c s hop _ hs => ?_)
    (fun w cap s hs => ?_) (fun data s hs => ?_) h (s := s) ⟨fun _ => hv, hf⟩
  · exact hI.imp fun _ _ _ => trivial
  · obtain ⟨hkept, hstored, hnext⟩ := hop.kept me f v c s
    exact ⟨hkept, fun hw => hstored.trans (hs.1 hw), hnext ▸ hs.2⟩
  · refine (readCapped_kept cap hs.2).imp fun _ s' h => ⟨fun hw => ?_, h.2⟩
    rw [h.1]
    exact hs.1 hw
  · exact (replaces_kept.atomicWrite calmly_not_flaky data ⟨hs.1 rfl, hs.2⟩).imp
      fun _ s' h => ⟨fun h => (nomatch h), h⟩

/-! ## Among others -/

/-- `p` is the system as the party with `t.2` sees it, but for the locks. -/
structure Agrees (p : Process Bytes ι) (t : Shared ι × Own) : Prop where
  disk : p.disk = t.1.disk
  files : p.files = t.2.files
  next : p.nextFile = t.2.nextFile

variable (path) in
/-- Only taking a lock looks at the locks. -/
theorem Agrees.step {i : ι} {p : Process Bytes ι} {t : Shared ι × Own} (h : Agrees p t)
    {op : Call Bytes} (hop : ∀ g, op ≠ .tryLock g) (c : op.Choice) :
    (Process.step i op c p).1 = ((party path i).step op c t).1 ∧
      Agrees (Process.step i op c p).2 ((party path i).step op c t).2 := by
  obtain ⟨disk, locks, files, nextFile⟩ := p
  obtain ⟨⟨disk', locks', passed, history⟩, files', nextFile'⟩ := t
  obtain ⟨rfl, rfl, rfl⟩ := h
  have hsame : (Process.step i op c ⟨disk, locks, files, nextFile⟩).1 =
        (Process.step i op c ⟨disk, locks', files, nextFile⟩).1 ∧
      (Process.step i op c ⟨disk, locks, files, nextFile⟩).2.disk =
        (Process.step i op c ⟨disk, locks', files, nextFile⟩).2.disk ∧
      (Process.step i op c ⟨disk, locks, files, nextFile⟩).2.files =
        (Process.step i op c ⟨disk, locks', files, nextFile⟩).2.files ∧
      (Process.step i op c ⟨disk, locks, files, nextFile⟩).2.nextFile =
        (Process.step i op c ⟨disk, locks', files, nextFile⟩).2.nextFile := by
    cases op with
    | getrandom | lockPages | processId | close => exact ⟨rfl, rfl, rfl, rfl⟩
    | openCreate n mode | openRead n | createNew n mode | stat n | chmod n mode | remove n =>
      cases c with
      | some e => exact ⟨rfl, rfl, rfl, rfl⟩
      | none =>
        simp only [Process.step]
        cases disk.dir n <;> exact ⟨rfl, rfl, rfl, rfl⟩
    | fstat g | read g limit | sync g =>
      cases c with
      | some e => exact ⟨rfl, rfl, rfl, rfl⟩
      | none =>
        simp only [Process.step]
        cases files g <;> exact ⟨rfl, rfl, rfl, rfl⟩
    | write g data =>
      simp only [Process.step]
      cases files g with
      | none => exact ⟨rfl, rfl, rfl, rfl⟩
      | some m => rcases c with _ | ⟨e, n⟩ <;> exact ⟨rfl, rfl, rfl, rfl⟩
    | rename src dst =>
      cases c with
      | some e => exact ⟨rfl, rfl, rfl, rfl⟩
      | none =>
        simp only [Process.step]
        split <;> exact ⟨rfl, rfl, rfl, rfl⟩
    | openDir | syncDir => cases c <;> exact ⟨rfl, rfl, rfl, rfl⟩
    | tryLock g => exact absurd rfl (hop g)
  obtain ⟨hreply, hdisk, hfiles, hnext⟩ := hsame
  exact ⟨hreply, hdisk, hfiles, hnext⟩

variable {i : ι} {t : Shared ι × Own} {op : Call Bytes}

theorem locks_step (hop : ∀ g, op ≠ .tryLock g) (c : op.Choice) (m : Nat) (j : ι) (k : Nat) :
    ((party path i).step op c t).2.1.locks m = some (j, k) ↔
      t.1.locks m = some (j, k) ∧ ¬(j = i ∧ op = .close k) := by
  have hkeep (hclose : ∀ g, op ≠ .close g) :
      ((party path i).step op c t).2.1.locks = t.1.locks := by
    obtain ⟨⟨disk, locks, passed, history⟩, own⟩ := t
    show (Process.step i op c ⟨disk, locks, own.files, own.nextFile⟩).2.locks = locks
    generalize (Process.step i op c ⟨disk, locks, own.files, own.nextFile⟩).2 = s',
      Process.step_moves i op c ⟨disk, locks, own.files, own.nextFile⟩ = hstep
    cases hstep with
    | closed => exact absurd rfl (hclose _)
    | locked => exact absurd rfl (hop _)
    | _ => rfl
  by_cases hclose : ∃ g, op = .close g
  · obtain ⟨g, rfl⟩ := hclose
    show (if t.1.locks m = some (i, g) then none else t.1.locks m) = some (j, k) ↔ _
    split_ifs with h
    · rw [h]
      refine iff_of_false (fun h => by cases h) ?_
      rintro ⟨⟨⟩, hne⟩
      exact hne ⟨rfl, rfl⟩
    · refine ⟨fun hl => ⟨hl, ?_⟩, fun hl => hl.1⟩
      rintro ⟨rfl, ⟨⟩⟩
      exact h hl
  · have hne (g : Nat) : op ≠ .close g := fun h => hclose ⟨g, h⟩
    rw [hkeep hne]
    exact ⟨fun hl => ⟨hl, fun h => hne k h.2⟩, fun hl => hl.1⟩

theorem passed_step (hop : op ≠ .stat (lockPath path)) (c : op.Choice) (j : ι) (k m : Nat) :
    ((party path i).step op c t).2.1.passed j k m ↔
      t.1.passed j k m ∧ ¬(j = i ∧ op = .close k) := by
  show passedAfter path i t op (Process.step i op c (view t)).1 j k m ↔ _
  generalize (Process.step i op c (view t)).1 = r
  cases op with
  | close g =>
    show t.1.passed j k m ∧ ¬(j = i ∧ k = g) ↔ _
    refine and_congr_right fun _ => not_congr (and_congr_right fun _ => ⟨?_, ?_⟩)
    · rintro rfl
      rfl
    · rintro ⟨⟩
      rfl
  | stat n =>
    have hne : n ≠ lockPath path := fun h => hop (congrArg Call.stat h)
    have hstat : passedAfter path i t (.stat n) r j k m ↔ t.1.passed j k m := by
      cases r with
      | error e => exact Iff.rfl
      | ok x =>
        refine ⟨?_, Or.inl⟩
        rintro (hp | ⟨h, -⟩)
        · exact hp
        · exact absurd h hne
    rw [hstat]
    exact ⟨fun hp => ⟨hp, nofun⟩, fun hp => hp.1⟩
  | _ => exact ⟨fun hp => ⟨hp, nofun⟩, fun hp => hp.1⟩

variable {P : Primitives} {start : Option Bytes} {Mid : Shared ι × Own → Prop}

/-- A call that keeps the lock, made by who has it, is nothing that the others rely on. -/
theorem Kept.keepTrust {p : Process Bytes ι} {c : op.Choice} (hmid : Mid t)
    (h : Kept path f v op p (Process.step i op c p).2) (hp : Agrees p t) (ht : Holding i f t)
    (hsound : Sound P path start t.1) :
    KeepTrust P path start Mid i op t ((party path i).step op c t).2 ∧
      Holding i f ((party path i).step op c t).2 := by
  obtain ⟨-, hp'⟩ := hp.step (i := i) path h.tryLock c
  obtain ⟨n, hn⟩ := ht.passed
  have hn' : ((party path i).step op c t).2.1.passed i f n :=
    (passed_step h.stat c i f n).mpr ⟨hn, fun he => h.close he.2⟩
  have hdir : ((party path i).step op c t).2.1.disk.dir (lockPath path) =
      t.1.disk.dir (lockPath path) := by
    rw [← hp'.disk, h.dir, hp.disk]
  refine ⟨⟨hmid, ⟨?_, fun hno => absurd hn' (hno i f n)⟩, ?_⟩, ⟨n, hn'⟩, ?_, ?_⟩
  · intro j k m hpass
    obtain ⟨hold, hne⟩ := (passed_step h.stat c j k m).mp hpass
    obtain ⟨hl, hd⟩ := hsound.held j k m hold
    exact ⟨(locks_step h.tryLock c m j k).mpr ⟨hl, hne⟩, hdir.trans hd⟩
  · intro j hj
    have hno (k m : Nat) : ¬t.1.passed j k m := fun hk => hj (hsound.unique hk hn).1
    refine Trust.of_alone (fun k m => ?_) (fun m k => ?_) hno
    · rw [passed_step h.stat]
      exact and_iff_left fun he => hj he.1
    · rw [locks_step h.tryLock]
      exact and_iff_left fun he => hj he.1
  · intro m k hl
    exact ht.only m k ((locks_step h.tryLock c m i k).mp hl).1
  · rw [← hp'.next]
    exact Nat.lt_of_lt_of_le (hp.next ▸ ht.next) h.next

variable (Mid) in
/-- While a party has the lock its operation ends as it would if it were alone, and whenever it is
looked at the store's file is as it was or as it will be at the end. -/
theorem live_rg {α : Type} {Good : SecretStore → α → Prop} {p : Action Bytes α}
    {Spec : Outcome Error α → Log × Process Bytes ι → Prop} (hout : Outline path Good true p)
    (hspec : wp (kernel Bytes i).logged (calmly i) anyStep p Spec ([], view t))
    (hmid : ∀ u, Holding i f u → effects u.1.history = effects t.1.history →
      (u.1.disk.stored path = t.1.disk.stored path ∨
        ∃ r l p', Spec r (l, p') ∧ p'.disk.stored path = u.1.disk.stored path) → Mid u)
    (ht : Holding i f t) (hsound : Sound P path start t.1) :
    rg (party path i) calm (TrustOf P path start i) (KeepTrust P path start Mid i) p
      (fun r u => Holding i f u ∧ effects u.1.history = effects t.1.history ∧
        ∃ l p', Spec r (l, p') ∧ Agrees p' u) t := by
  have hkept : wp (kernel Bytes i) (calmly i) (Kept path f (t.1.disk.stored path)) p
      (fun _ _ => True) (view t) := hout.kept rfl ht.next
  have hboth := hkept.and (wp_of_logged hspec)
  refine rg_of_wp (B := Agrees) (L := fun u => Holding i f u ∧ Sound P path start u.1 ∧
    effects u.1.history = effects t.1.history) hboth (fun _ c => c) ⟨rfl, rfl, rfl⟩
    ⟨ht, hsound, rfl⟩ ?_ ?_ ?_
  -- the others: what they do leaves the lock's holder, its file and its handles alone
  · rintro p1 u u' hp ⟨hu, hs, he⟩ hmove
    obtain ⟨hu', hdisk, he', hown⟩ := hu.trust hmove
    refine ⟨⟨hp.disk.trans hdisk.symm, ?_, ?_⟩, hu', hmove.2.2, he'.trans he⟩
    · rw [hown]
      exact hp.files
    · rw [hown]
      exact hp.next
  · rintro op next c p1 u hc hp ⟨hu, hs, he⟩ hwp
    -- the party's own call, made at the state it would have alone
    have hstep := hwp c hc
    have hnow : Mid u := by
      refine hmid u hu he ?_
      by_cases hv : p1.disk.stored path = t.1.disk.stored path
      · exact Or.inl (by rw [← hv, hp.disk])
      -- The file was replaced already, and is not again.
      obtain ⟨r, p2, hends⟩ : ∃ r p2, Ends (kernel Bytes i) (calmly i) (.call op next) p1 r p2 :=
        exists_ends calm_total _ p1
      obtain ⟨-, l, hr⟩ := hwp.ends hends
      have hrel : wp (kernel Bytes i) (calmly i)
          (fun _ (a b : Process Bytes ι) => a.disk.stored path ≠ t.1.disk.stored path →
            b.disk.stored path = a.disk.stored path) (.call op next) (fun _ _ => True) p1 :=
        wp_mono (fun _ _ _ h => h.1.once) (fun _ _ _ => trivial) hwp
      have hsame := hrel.relates (fun _ _ => rfl) (fun {a b c} hab hbc ha => by
        have hb := hab ha
        rw [hbc (hb ▸ ha), hb]) hends hv
      exact Or.inr ⟨r, l, p2, hr, hsame.trans (by rw [hp.disk])⟩
    obtain ⟨hg, hu'⟩ := hstep.1.1.keepTrust hnow hp hu hs
    obtain ⟨hreply, hp'⟩ := hp.step path hstep.1.1.tryLock c
    exact ⟨hc, hreply, hp', ⟨hu', hg.2.1, he⟩, hg⟩
  · rintro r p1 u hp ⟨hu, hs, he⟩ ⟨-, l, hr⟩
    exact ⟨hu, he, l, p1, hr, hp⟩

end Kept
end Krypto.Store
