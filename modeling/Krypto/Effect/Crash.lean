import Krypto.Effect.Disk

/-! Crashes. Content survives one once its file was synced; an update of the
directory once the directory was, and before that it may or may not. -/

namespace Krypto.Effect.Disk
variable {ν : Type} [DecidableEq ν]

/-- A crash keeps the synced content, the directory on the medium and any part
of the updates since. -/
structure Crash (d d' : Disk ν) : Prop where
  survivors : ∃ us : List (Update ν), us.Sublist d.unsynced ∧ d'.durable = us.foldl Update.apply d.durable
  unsynced : d'.unsynced = []
  content : ∀ i, d.clean i = true → d'.content i = d.content i

theorem nil_below (d : Disk ν) : ∀ u ∈ ([] : List (Update ν)), u.Below d.fresh :=
  List.forall_mem_nil _

def lose (d : Disk ν) : Disk ν :=
  { d with
    unsynced := []
    unsynced_lt := d.nil_below }

theorem crash_lose (d : Disk ν) : d.Crash d.lose :=
  ⟨⟨[], List.nil_sublist _, rfl⟩, rfl, fun _ _ => rfl⟩

structure Durable (d : Disk ν) (n : ν) (c : Option Bytes) : Prop where
  untouched : ∀ u ∈ d.unsynced, ¬u.Touches n
  clean : ∀ i, d.durable n = some i → d.clean i = true
  content : (d.durable n).map d.content = c

theorem Durable.dir_eq {d : Disk ν} {n : ν} {c : Option Bytes} (h : d.Durable n c) :
    d.dir n = d.durable n := foldl_not_touches h.untouched _

theorem Durable.stored {d : Disk ν} {n : ν} {c : Option Bytes} (h : d.Durable n c) :
    d.stored n = c := by
  rw [Disk.stored, h.dir_eq, h.content]

theorem Durable.crash {d d' : Disk ν} {n : ν} {c : Option Bytes} (h : d.Durable n c)
    (hc : Crash d d') : d'.stored n = c := by
  obtain ⟨us, hsub, hdur⟩ := hc.survivors
  have hdir : d'.dir n = d.durable n := by
    rw [dir, hc.unsynced, List.foldl_nil, hdur]
    exact foldl_not_touches (fun u hu => h.untouched u (hsub.subset hu)) _
  rw [Disk.stored, hdir, ← h.content]
  cases hn : d.durable n with
  | none => rfl
  | some i => exact congrArg some (hc.content i (h.clean i hn))

/-- After a rename of a synced file that was not itself synced, a crash leaves
what was stored before or the renamed file, whole. -/
theorem Durable.crash_rename {d d' : Disk ν} {src n : ν} {i : Nat} {c : Option Bytes}
    (h : d.Durable n c) (hi : d.dir src = some i) (hclean : d.clean i = true)
    (hc : Crash (d.rename src n i hi) d') : d'.stored n = c ∨ d'.stored n = some (d.content i) := by
  obtain ⟨us, hsub, hdur⟩ := hc.survivors
  obtain ⟨vs, ws, rfl, hvs, hws⟩ := List.sublist_append_iff.mp hsub
  have hkeep : vs.foldl Update.apply d.durable n = d.durable n :=
    foldl_not_touches (fun u hu => h.untouched u (hvs.subset hu)) _
  have hdir : d'.dir n = ws.foldl Update.apply (vs.foldl Update.apply d.durable) n := by
    rw [dir, hc.unsynced, List.foldl_nil, hdur, List.foldl_append]
    rfl
  rcases List.sublist_singleton.mp hws with rfl | rfl
  · left
    rw [List.foldl_nil, hkeep] at hdir
    rw [Disk.stored, hdir, ← h.content]
    cases hn : d.durable n with
    | none => rfl
    | some j => exact congrArg some (hc.content j (h.clean j hn))
  · right
    have hdir' : d'.dir n = some i := by simpa [Update.apply] using hdir
    rw [Disk.stored, hdir']
    exact congrArg some (hc.content i hclean)

/-! ## What stays on the medium -/

theorem Durable.update {d : Disk ν} {n : ν} {c : Option Bytes} (h : d.Durable n c) {u : Update ν}
    (hu : u.Below d.fresh) (hn : ¬u.Touches n) : (d.update u hu).Durable n c := by
  refine ⟨?_, h.clean, h.content⟩
  intro v hv
  rcases List.mem_append.mp hv with hv | hv
  · exact h.untouched v hv
  · rw [List.mem_singleton.mp hv]
    exact hn

theorem Durable.of_agree {d d' : Disk ν} {n : ν} {c : Option Bytes} (h : d.Durable n c)
    (hdurable : d'.durable = d.durable) (hunsynced : d'.unsynced = d.unsynced)
    (hfile : ∀ i, d.durable n = some i → d'.content i = d.content i ∧ d'.clean i = d.clean i) :
    d'.Durable n c := by
  refine ⟨hunsynced ▸ h.untouched, ?_, ?_⟩
  · intro i hi
    rw [hdurable] at hi
    rw [(hfile i hi).2, h.clean i hi]
  · rw [hdurable, ← h.content]
    cases hn : d.durable n with
    | none => rfl
    | some i => exact congrArg some (hfile i hn).1

theorem Durable.create {d : Disk ν} {n m : ν} {c : Option Bytes} (h : d.Durable n c) (hne : m ≠ n)
    (mode : Nat) : (d.create m mode).Durable n c := by
  have halloc : (d.allocate mode).Durable n c := by
    refine h.of_agree rfl rfl fun i hi => ?_
    have hlt : i ≠ d.fresh := Nat.ne_of_lt (d.durable_lt n i hi)
    exact ⟨Function.update_of_ne hlt _ _, Function.update_of_ne hlt _ _⟩
  exact halloc.update (d.below_link m mode) hne

theorem Durable.remove {d : Disk ν} {n m : ν} {c : Option Bytes} (h : d.Durable n c)
    (hne : m ≠ n) : (d.remove m).Durable n c := h.update (d.below_unlink m) hne

theorem Durable.write {d : Disk ν} {n : ν} {c : Option Bytes} (h : d.Durable n c) {i : Nat}
    (hi : d.dir n ≠ some i) (data : Bytes) : (d.write i data).Durable n c := by
  refine h.of_agree rfl rfl fun j hj => ?_
  have hne : j ≠ i := fun e => hi (by rw [h.dir_eq, hj, e])
  exact ⟨Function.update_of_ne hne _ _, Function.update_of_ne hne _ _⟩

theorem Durable.sync {d : Disk ν} {n : ν} {c : Option Bytes} (h : d.Durable n c) (i : Nat) :
    (d.sync i).Durable n c := by
  refine ⟨h.untouched, fun j hj => ?_, h.content⟩
  by_cases hji : j = i
  · rw [hji]
    exact Function.update_self _ _ _
  · exact (Function.update_of_ne hji _ _).trans (h.clean j hj)

theorem Durable.chmod {d : Disk ν} {n : ν} {c : Option Bytes} (h : d.Durable n c) (i mode : Nat) :
    (d.chmod i mode).Durable n c := h.of_agree rfl rfl fun _ _ => ⟨rfl, rfl⟩

theorem durable_syncDir {d : Disk ν} {n : ν} (h : ∀ i, d.dir n = some i → d.clean i = true) :
    d.syncDir.Durable n (d.stored n) :=
  ⟨fun _ hu => absurd hu List.not_mem_nil, h, rfl⟩

/-- A crash leaves `c` under `n`, or what is seen there. -/
def CrashSafe (d : Disk ν) (n : ν) (c : Option Bytes) : Prop :=
  ∀ d', Crash d d' → d'.stored n = c ∨ d'.stored n = d.stored n

theorem Durable.crashSafe {d : Disk ν} {n : ν} {c' : Option Bytes} (h : d.Durable n c')
    (c : Option Bytes) : d.CrashSafe n c := fun _ hc => Or.inr ((h.crash hc).trans h.stored.symm)

theorem Durable.crashSafe_rename {d : Disk ν} {src n : ν} {i : Nat} {c : Option Bytes}
    (h : d.Durable n c) (hi : d.dir src = some i) (hclean : d.clean i = true) :
    (d.rename src n i hi).CrashSafe n c := by
  intro d' hc
  rw [d.stored_rename n hi]
  exact h.crash_rename hi hclean hc

end Krypto.Effect.Disk
