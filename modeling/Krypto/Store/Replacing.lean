import Krypto.Store.Effects

/-! The rule for replacing the store's file: what keeps a property through each of
its calls keeps it through all of them. -/

namespace Krypto.Store
open Effect

section Replaces
variable {ι : Type} [DecidableEq ι] {me : ι} {path : Bytes}

/-- A call that comes before the rename or instead of it. It concerns a file beside the store and
its lock, under a number from `first` on. -/
def Aside (path : Bytes) (first : Nat) (s : Process Bytes ι) : Call Bytes → Prop
  | .getrandom _ | .lockPages _ | .processId => True
  | .createNew n _ | .remove n => n ≠ path ∧ n ≠ lockPath path
  | .write f _ | .sync f => first ≤ f ∧ ∃ i, s.files f = some i ∧ s.disk.dir path ≠ some i
  | .close f => first ≤ f
  | _ => False

/-- `Before` is kept until the rename, which leads to `After`, and syncing the directory to
`Done`. -/
structure Replaces (E : (kernel Bytes me).Env)
    (G : Call Bytes → Process Bytes ι → Process Bytes ι → Prop) (path : Bytes) (first : Nat)
    (Before After Done : Process Bytes ι → Prop) : Prop where
  first_le : ∀ s, Before s → first ≤ s.nextFile
  aside : ∀ op c s, Aside path first s op → Before s →
    G op s (Process.step me op c s).2 ∧ Before (Process.step me op c s).2
  notRenamed : ∀ tmp s, Before s → G (.rename tmp path) s s
  renamed : ∀ tmp i s (h : s.disk.dir tmp = some i), tmp ≠ path → tmp ≠ lockPath path →
    s.disk.clean i = true → Before s →
    G (.rename tmp path) s { s with disk := s.disk.rename tmp path i h } ∧
      After { s with disk := s.disk.rename tmp path i h }
  openedDir : ∀ s, After s → G .openDir s s
  syncedDir : ∀ s, After s → G .syncDir s { s with disk := s.disk.syncDir } ∧
    Done { s with disk := s.disk.syncDir }
  done : ∀ s, Before s → Done s

variable {E : (kernel Bytes me).Env} {G : Call Bytes → Process Bytes ι → Process Bytes ι → Prop}
  {first : Nat} {Before After Done : Process Bytes ι → Prop}

theorem Replaces.writeSynced (h : Replaces E G path first Before After Done) {f i : Nat}
    {data : Bytes} {s : Process Bytes ι} (hs : Before s) (hfirst : first ≤ f)
    (hf : s.files f = some i) (hi : s.disk.dir path ≠ some i) :
    wp (kernel Bytes me) E G (Store.writeSynced f data) (fun r s' => Before s' ∧
      s'.disk.dir = s.disk.dir ∧ (r = .ok () → s'.disk.clean i = true)) s := by
  intro c _
  have hwrite := h.aside (.write f data) c s ⟨hfirst, i, hf, hi⟩ hs
  rcases c with _ | ⟨e, n⟩
  · have hstep : Process.step me (.write f data) none s =
        (.ok (), { s with disk := s.disk.write i data }) := by
      simp only [Process.step, hf]
    show G _ s (Process.step me (.write f data) none s).2 ∧
      wp _ _ _ (orIo (Process.step me (.write f data) none s).1 >>= fun _ => ask (.sync f) >>= _) _
        (Process.step me (.write f data) none s).2
    rw [hstep] at hwrite ⊢
    refine ⟨hwrite.1, ?_⟩
    intro c _
    have hsync := h.aside (.sync f) c { s with disk := s.disk.write i data } ⟨hfirst, i, hf, hi⟩
      hwrite.2
    rcases c with _ | e
    · have hstep' : Process.step me (.sync f) none { s with disk := s.disk.write i data } =
          (.ok (), { s with disk := (s.disk.write i data).sync i }) := by
        simp only [Process.step, hf]
      show G _ _ (Process.step me (.sync f) none _).2 ∧
        wp _ _ _ (orIo (Process.step me (.sync f) none _).1) _ (Process.step me (.sync f) none _).2
      rw [hstep'] at hsync ⊢
      exact ⟨hsync.1, hsync.2, rfl, fun _ => Function.update_self _ _ _⟩
    · exact ⟨hsync.1, hsync.2, rfl, fun h => by cases h⟩
  · have hstep : Process.step me (.write f data) (some (e, n)) s =
        (.error e.1, { s with disk := s.disk.write i (data.take n) }) := by
      simp only [Process.step, hf]
    show G _ s (Process.step me (.write f data) (some (e, n)) s).2 ∧
      wp _ _ _ (orIo (Process.step me (.write f data) (some (e, n)) s).1 >>= _) _
        (Process.step me (.write f data) (some (e, n)) s).2
    rw [hstep] at hwrite ⊢
    exact ⟨hwrite.1, hwrite.2, rfl, fun h => by cases h⟩

theorem Replaces.renameSynced (h : Replaces E G path first Before After Done) (hE : ¬Flaky E)
    {tmp : Bytes} {i : Nat} {s : Process Bytes ι} (hs : Before s)
    (htmp : s.disk.dir tmp = some i) (hne : tmp ≠ path) (hlock : tmp ≠ lockPath path)
    (hclean : s.disk.clean i = true) :
    wp (kernel Bytes me) E G (Store.renameSynced tmp path)
      (fun r s' => Done s' ∧ ∀ e, r = .err e → Before s') s := by
  intro c _
  rcases c with _ | e
  swap
  · exact ⟨h.notRenamed tmp s hs, h.done s hs, fun _ _ => hs⟩
  obtain ⟨hg, hafter⟩ := h.renamed tmp i s htmp hne hlock hclean hs
  show G _ s (Process.step me (.rename tmp path) none s).2 ∧
    wp _ _ _ (orIo (Process.step me (.rename tmp path) none s).1 >>= fun _ => _) _
      (Process.step me (.rename tmp path) none s).2
  rw [Process.step_rename me htmp]
  refine ⟨hg, ?_⟩
  rintro (_ | e) hc
  swap
  · exact absurd ⟨e, Or.inl hc⟩ hE
  refine ⟨h.openedDir _ hafter, ?_⟩
  rintro (_ | e) hc
  swap
  · exact absurd ⟨e, Or.inr hc⟩ hE
  obtain ⟨hg, hdone⟩ := h.syncedDir _ hafter
  exact ⟨hg, hdone, fun e he => nomatch he⟩

theorem Replaces.writeThenRename (h : Replaces E G path first Before After Done)
    (hE : ¬Flaky E) {f i : Nat} {tmp data : Bytes} {s : Process Bytes ι} (hs : Before s)
    (hfirst : first ≤ f) (hf : s.files f = some i) (htmp : s.disk.dir tmp = some i)
    (hpath : s.disk.dir path ≠ some i) (hne : tmp ≠ path) (hlock : tmp ≠ lockPath path) :
    wp (kernel Bytes me) E G (Store.writeThenRename f tmp path data)
      (fun r s' => Done s' ∧ ∀ e, r = .err e → Before s') s := by
  unfold Store.writeThenRename
  rw [wp_bind, Prog.always, wp_andThen]
  refine (h.writeSynced hs hfirst hf hpath).imp fun r s1 h1 => ?_
  obtain ⟨hs1, hdir, hclean⟩ := h1
  rw [wp_andThen]
  intro c _
  obtain ⟨hg, hs2⟩ := h.aside (.close f) c s1 hfirst hs1
  refine ⟨hg, ?_⟩
  cases r with
  | ok _ => exact h.renameSynced hE hs2 (hdir ▸ htmp) hne hlock (hclean rfl)
  | err e => exact ⟨h.done _ hs2, fun _ _ => hs2⟩
  | panic => exact ⟨h.done _ hs2, fun _ he => by cases he⟩

theorem Replaces.atomicWrite (h : Replaces E G path first Before After Done) (hE : ¬Flaky E)
    (data : Bytes) {s : Process Bytes ι} (hs : Before s) :
    wp (kernel Bytes me) E G (Store.atomicWrite path data) (fun _ s' => Done s') s := by
  unfold Store.atomicWrite
  rw [wp_bind]
  have hfill := (SecretStore.fill_starved 8 "getrandom: "
    (A := (kernel Bytes me).Answers E)).wp_invariant (G := G) hs fun op c s hop _ hs => by
      have haside : Aside path first s op := by cases op <;> first | exact hop.elim | exact trivial
      exact (h.aside op c s haside hs).symm
  refine hfill.imp fun r s1 h1 => ?_
  obtain ⟨hr, hs1⟩ := h1
  -- no nonce is drawn: nothing was called that matters
  rcases hr with ⟨nonce, rfl, -⟩ | ⟨-, m, rfl⟩
  swap
  · exact h.done s1 hs1
  intro pid _
  have hne := tmpPath_ne path pid nonce
  have hlock := tmpPath_ne_lockPath path pid nonce
  show G _ s1 s1 ∧ wp (kernel Bytes me) E G (ask (.createNew (tmpPath path pid nonce) 0o600) >>=
    fun y => orIo y >>= fun f => (Store.writeThenRename f (tmpPath path pid nonce) path data).onErr
      (removeFile (tmpPath path pid nonce))) _ s1
  refine ⟨(h.aside .processId pid s1 trivial hs1).1, ?_⟩
  intro c _
  have hcreate := h.aside (.createNew (tmpPath path pid nonce) 0o600) c s1 ⟨hne, hlock⟩ hs1
  rcases c with _ | e
  swap
  · exact ⟨hcreate.1, h.done _ hcreate.2⟩
  show G _ s1 (Process.step me (.createNew (tmpPath path pid nonce) 0o600) none s1).2 ∧
    wp _ _ _ (orIo (Process.step me (.createNew (tmpPath path pid nonce) 0o600) none s1).1 >>= fun f =>
      (Store.writeThenRename f _ path data).onErr (removeFile _)) _
      (Process.step me (.createNew (tmpPath path pid nonce) 0o600) none s1).2
  -- the name of the temporary file is taken, or the file is made there
  cases hdir : s1.disk.dir (tmpPath path pid nonce) with
  | some i =>
    rw [Process.step_createNew_taken me hdir] at hcreate ⊢
    exact ⟨hcreate.1, h.done _ hs1⟩
  | none =>
    rw [Process.step_createNew me hdir] at hcreate ⊢
    obtain ⟨hg, hs2⟩ := hcreate
    have hfile := s1.created_files (tmpPath path pid nonce) 0o600
    have htmp := s1.created_dir (tmpPath path pid nonce) 0o600
    have hfresh := s1.created_dir_ne_fresh (tmpPath path pid nonce) 0o600 hne.symm
    refine ⟨hg, ?_⟩
    show wp _ _ _ ((Store.writeThenRename s1.nextFile _ path data).onErr (removeFile _)) _
      (s1.created (tmpPath path pid nonce) 0o600)
    rw [Prog.onErr, wp_andThen]
    refine (h.writeThenRename hE hs2 (h.first_le s1 hs1) hfile htmp hfresh hne hlock).imp
      fun r s' h' => ?_
    obtain ⟨hdone, hbefore⟩ := h'
    cases r with
    | ok _ => exact hdone
    | panic => exact hdone
    -- the temporary file is removed, which is a call aside as well
    | err e =>
      rw [wp_andThen]
      intro c _
      obtain ⟨hg, hs3⟩ := h.aside (.remove (tmpPath path pid nonce)) c s' ⟨hne, hlock⟩
        (hbefore e rfl)
      exact ⟨hg, h.done _ hs3⟩

end Replaces
end Krypto.Store
