import Krypto.Effect.Crash
import Krypto.Store.Outline
import Krypto.Store.Replacing
import Krypto.Store.Session

/-! A crash at any call of any run leaves the file of a store as an operation left
it: whole, and no older than the last one that returned `Ok`. -/

namespace Krypto.Store
open Effect

section Guarded
variable {ι : Type} [DecidableEq ι] {me : ι} {path : Bytes}

/-- The directory can be opened and synced; any other call may fail. -/
def syncsDirectory (me : ι) : (kernel Bytes me).Env
  | .openDir, c => c = none
  | .syncDir, c => c = none
  | _, _ => True

/-- A crash after the call leaves `v` or what is then seen; and what is seen changes from `v`
only once. -/
def Guarded (path : Bytes) (v : Option Bytes) (_ : Call Bytes) (s s' : Process Bytes ι) : Prop :=
  s'.disk.CrashSafe path v ∧ (s.disk.stored path ≠ v → s'.disk.stored path = s.disk.stored path)

omit [DecidableEq ι] in
theorem guarded_of_durable {op : Call Bytes} {v u : Option Bytes} {s s' : Process Bytes ι}
    (h : s.disk.Durable path u) (h' : s'.disk.Durable path u) : Guarded path v op s s' :=
  ⟨h'.crashSafe v, fun _ => h'.stored.trans h.stored.symm⟩

theorem Harmless.durable {op : Call Bytes} (h : Harmless path op) (c : op.Choice)
    {s : Process Bytes ι} {v : Option Bytes} (hs : s.disk.Durable path v) :
    (Process.step me op c s).2.disk.Durable path v := by
  generalize (Process.step me op c s).2 = s', Process.step_moves me op c s = hstep
  cases hstep with
  | same | opened | openedRead | locked | closed => exact hs
  | openedNew => exact hs.create h _
  | chmoded => exact hs.chmod _ _
  | _ => exact h.elim

theorem harmless_of_plain (op : Call Bytes) (h : Plain path op) : Harmless path op := by
  cases op <;> first | exact h.elim | exact trivial

theorem harmless_of_private (op : Call Bytes) (h : op.Private) : Harmless path op :=
  harmless_of_plain op (plain_of_private op h)

theorem durable_wp {α : Type} {E : (kernel Bytes me).Env} {p : Action Bytes α}
    {Q : Outcome Error α → Prop} (h : Quiet (Harmless path) ((kernel Bytes me).Answers E) p Q)
    {s : Process Bytes ι} {u : Option Bytes} (v : Option Bytes) (hs : s.disk.Durable path u) :
    wp (kernel Bytes me) E (Guarded path v) p (fun r s' => Q r ∧ s'.disk.Durable path u) s := by
  refine h.wp_invariant (I := fun s => s.disk.Durable path u) hs fun op c s hop _ hs => ?_
  have hs' : (Process.step me op c s).2.disk.Durable path u := hop.durable c hs
  exact ⟨hs', guarded_of_durable hs hs'⟩

variable {v : Option Bytes}

theorem Aside.durable {op : Call Bytes} {s : Process Bytes ι} (h : Aside path 0 s op) (c : op.Choice)
    (hs : s.disk.Durable path v) : (Process.step me op c s).2.disk.Durable path v := by
  generalize (Process.step me op c s).2 = s', Process.step_moves me op c s = hstep
  cases hstep with
  | same | closed => exact hs
  | created => exact hs.create h.1 _
  | removed => exact hs.remove h.1
  | written hf =>
    obtain ⟨-, i, hf', hi⟩ := h
    obtain rfl := Option.some.inj (hf.symm.trans hf')
    exact hs.write hi _
  | synced hf => exact hs.sync _
  | _ => exact h.elim

/-- From the rename on a crash may leave the old file or the new one; the sync settles it. -/
theorem replaces_durable : Replaces (syncsDirectory me) (Guarded path v) path 0
    (fun s => s.disk.Durable path v)
    (fun s => s.disk.CrashSafe path v ∧ ∀ i, s.disk.dir path = some i → s.disk.clean i = true)
    (fun s => ∃ u, s.disk.Durable path u) where
  first_le _ _ := Nat.zero_le _
  aside op c s hop hs := by
    have hs' : (Process.step me op c s).2.disk.Durable path v := hop.durable c hs
    exact ⟨guarded_of_durable hs hs', hs'⟩
  notRenamed tmp s hs := guarded_of_durable hs hs
  renamed tmp i s htmp _ _ hclean hs := by
    have hsafe := hs.crashSafe_rename htmp hclean
    refine ⟨⟨hsafe, fun h => absurd hs.stored h⟩, hsafe, fun j hj => ?_⟩
    have hdir : (s.disk.rename tmp path i htmp).dir path = some i := by
      simp [Disk.rename, Update.apply]
    obtain rfl := Option.some.inj (hdir.symm.trans hj)
    exact hclean
  openedDir s hs := ⟨hs.1, fun _ => rfl⟩
  syncedDir s hs := by
    have hsettled := Disk.durable_syncDir hs.2
    exact ⟨⟨hsettled.crashSafe v, fun _ => Disk.stored_syncDir _ path⟩, _, hsettled⟩
  done s hs := ⟨v, hs⟩

theorem syncsDirectory_not_flaky : ¬Flaky (syncsDirectory me) := by
  rintro ⟨e, he | he⟩ <;> cases he

/-- Every operation moves what is on the medium at most once, and settles it. -/
theorem Outline.durable {α : Type} {Good : SecretStore → α → Prop} {w : Bool} {p : Action Bytes α}
    (h : Outline path Good w p) {s : Process Bytes ι} (hs : s.disk.Durable path v) :
    Effect.wp (kernel Bytes me) (syncsDirectory me) (Guarded path v) p
      (fun _ s' => ∃ u, s'.disk.Durable path u) s := by
  let I : Bool → Process Bytes ι → Prop := fun w s =>
    if w then s.disk.Durable path v else ∃ u, s.disk.Durable path u
  have hsettled {w : Bool} {s : Process Bytes ι} (hs : I w s) : ∃ u, s.disk.Durable path u ∧
      ∀ s' : Process Bytes ι, s'.disk.Durable path u → I w s' := by
    cases w with
    | true => exact ⟨v, hs, fun s' h => h⟩
    | false =>
      obtain ⟨u, hu⟩ := hs
      exact ⟨u, hu, fun s' h => ⟨u, h⟩⟩
  have hstart : I w s := by
    cases w with
    | true => exact hs
    | false => exact ⟨v, hs⟩
  refine Outline.wp (I := I) (fun s hs => ⟨v, hs⟩) (fun w op c s hop _ hs => ?_)
    (fun w cap s hs => ?_)
    (fun data s hs => replaces_durable.atomicWrite syncsDirectory_not_flaky data hs) h hstart
  · obtain ⟨u, hu, hI⟩ := hsettled hs
    have hu' : (Process.step me op c s).2.disk.Durable path u :=
      (harmless_of_plain op hop).durable c hu
    exact ⟨guarded_of_durable hu hu', hI _ hu'⟩
  · obtain ⟨u, hu, hI⟩ := hsettled hs
    exact (durable_wp (readCapped_quiet path path cap) v hu).imp fun _ s' h => hI s' h.2

theorem onErr_durable {α : Type} {p : Action Bytes α} (lock : Option Nat) {s : Process Bytes ι}
    (h : wp (kernel Bytes me) (syncsDirectory me) (Guarded path v) p
      (fun _ s' => ∃ u, s'.disk.Durable path u) s) :
    wp (kernel Bytes me) (syncsDirectory me) (Guarded path v) (p.onErr (dropLock lock))
      (fun _ s' => ∃ u, s'.disk.Durable path u) s := by
  rw [Prog.onErr, wp_andThen]
  refine h.imp fun r s1 h1 => ?_
  obtain ⟨u, hu⟩ := h1
  cases r with
  | ok a => exact ⟨u, hu⟩
  | panic => exact ⟨u, hu⟩
  | err e =>
    rw [wp_andThen]
    exact (durable_wp (dropLock_quiet lock (Q := fun _ => True) trivial) v hu).imp
      fun _ s' h => ⟨u, h.2⟩

theorem then_done_durable {α β : Type} {p : Action Bytes α} {k : Outcome Error α → Action Bytes β}
    {s : Process Bytes ι}
    (h : wp (kernel Bytes me) (syncsDirectory me) (Guarded path v) p
      (fun _ s' => ∃ u, s'.disk.Durable path u) s) (hk : ∀ r, ∃ r', k r = .done r') :
    wp (kernel Bytes me) (syncsDirectory me) (Guarded path v) (p.andThen k)
      (fun _ s' => ∃ u, s'.disk.Durable path u) s := by
  rw [wp_andThen]
  refine h.imp fun r s' hs' => ?_
  obtain ⟨r', hr'⟩ := hk r
  rw [hr']
  exact hs'

theorem session_drop_durable (s : Session) {p : Process Bytes ι} {u : Option Bytes}
    (hp : p.disk.Durable path u) :
    wp (kernel Bytes me) (syncsDirectory me) (Guarded path v) s.drop
      (fun r p' => r = .ok () ∧ p'.disk.Durable path u) p := by
  unfold Session.drop
  cases s.handle with
  | none => exact ⟨rfl, hp⟩
  | some st => exact durable_wp (dropLock_quiet st.lock (Q := fun r => r = .ok ()) rfl) v hp

variable (P : Primitives)

theorem openStore_durable (master : MasterKey) {p : Process Bytes ι}
    (hp : p.disk.Durable path v) :
    wp (kernel Bytes me) (syncsDirectory me) (Guarded path v) (SecretStore.openStore path master)
      (fun _ p' => ∃ u, p'.disk.Durable path u) p := by
  unfold SecretStore.openStore
  rw [wp_bind]
  refine (durable_wp takeLock_quiet v hp).imp fun r p1 h1 => ?_
  cases r with
  | ok lock =>
    exact onErr_durable lock ((openLocked_outline path master lock).durable h1.2)
  | err e => exact ⟨v, h1.2⟩
  | panic => exact ⟨v, h1.2⟩

theorem serve_durable {s : Session} (hgood : s.Good path) (q : Request) {p : Process Bytes ι}
    (hp : p.disk.Durable path v) :
    wp (kernel Bytes me) (syncsDirectory me) (Guarded path v) (serve P path q s)
      (fun _ p' => ∃ u, p'.disk.Durable path u) p := by
  -- without a handle nothing is called
  have hask {f : SecretStore → Action Bytes (Answer × Session)}
      (h : ∀ st, s.handle = some st → wp (kernel Bytes me) (syncsDirectory me) (Guarded path v)
        (f st) (fun _ p' => ∃ u, p'.disk.Durable path u) p) :
      wp (kernel Bytes me) (syncsDirectory me) (Guarded path v) (s.ask f)
        (fun _ p' => ∃ u, p'.disk.Durable path u) p := by
    unfold Session.ask
    cases hst : s.handle with
    | none => exact ⟨v, hp⟩
    | some st => exact h st hst
  cases q with
  | reopen =>
    show wp _ _ _ (s.drop >>= fun _ => (SecretStore.openStore path s.master).attempt >>= _) _ _
    rw [wp_bind]
    refine (session_drop_durable s hp).imp fun r p1 h1 => ?_
    obtain ⟨rfl, hp1⟩ := h1
    refine then_done_durable (then_done_durable (openStore_durable s.master hp1) fun r => ⟨_, rfl⟩)
      fun r => ?_
    rcases r with (_ | _) | _ | _ <;> exact ⟨_, rfl⟩
  | close =>
    show wp _ _ _ (s.drop >>= fun _ => pure _) _ _
    rw [wp_bind]
    refine (session_drop_durable s hp).imp fun r p1 h1 => ?_
    obtain ⟨rfl, hp1⟩ := h1
    exact ⟨v, hp1⟩
  | use master => exact ⟨v, hp⟩
  | put name secret =>
    refine hask fun st hst => ?_
    obtain rfl := hgood.path st hst
    refine then_done_durable ((put_outline P st name secret).durable hp) fun r => ?_
    cases r <;> exact ⟨_, rfl⟩
  | get name =>
    refine hask fun st hst => ?_
    have hquiet := (SecretStore.get_quiet P st (hgood.valid st hst name)
      (A := (kernel Bytes me).Answers (syncsDirectory me))).calls
      fun op h => (harmless_of_private op h : Harmless path op)
    have hget : wp (kernel Bytes me) (syncsDirectory me) (Guarded path v) (st.get P name)
        (fun _ p' => ∃ u, p'.disk.Durable path u) p :=
      (durable_wp hquiet v hp).imp fun _ p' h => ⟨v, h.2⟩
    refine then_done_durable (then_done_durable hget fun r => ⟨_, rfl⟩) fun r => ?_
    cases r <;> exact ⟨_, rfl⟩
  | delete name =>
    refine hask fun st hst => ?_
    obtain rfl := hgood.path st hst
    refine then_done_durable ((delete_outline st name).durable hp) fun r => ?_
    cases r <;> exact ⟨_, rfl⟩
  | contains name => exact hask fun st hst => ⟨v, hp⟩
  | list start => exact hask fun st hst => ⟨v, hp⟩
  | rotate newMaster =>
    refine hask fun st hst => ?_
    obtain rfl := hgood.path st hst
    have houtline := rotateLocked_outline P (hgood.valid st hst) newMaster
    refine then_done_durable (then_done_durable (onErr_durable st.lock (houtline.durable hp))
      fun r => ⟨_, rfl⟩) fun r => ?_
    rcases r with (_ | _) | _ | _ <;> exact ⟨_, rfl⟩

end Guarded
end Krypto.Store
