import Krypto.Store.Grammar

/-! A failed operation leaves the file and the handle as they were, unless it is
the directory that could not be opened or synced: then the rename has already
replaced the file. -/

namespace Krypto.Store
open Effect

section Replaced
variable {ι : Type} [DecidableEq ι] {me : ι} {path : Bytes} (P : Primitives)

/-- The calls on the directory succeed, or what was written is what was there. -/
def Unreplaced (l : Log) (stored : Option Bytes) : Prop :=
  dirFailed l = true → ∃ data ∈ written l, stored = some data

theorem unreplaced_of_late {l : Log} {stored : Option Bytes} {data : Bytes}
    (hdir : dirFailed l = true) (hwrote : written l = [data]) :
    some data = stored ↔ Unreplaced l stored := by
  constructor
  · rintro rfl _
    exact ⟨data, by rw [hwrote]; exact List.mem_singleton_self data, rfl⟩
  · intro h
    obtain ⟨d, hd, hs⟩ := h hdir
    rw [hwrote, List.mem_singleton] at hd
    rw [hs, hd]

theorem unreplaced_of_not_failed {l : Log} {stored : Option Bytes} (hdir : dirFailed l = false) :
    Unreplaced l stored := by
  intro h
  rw [hdir] at h
  cases h

theorem Changed.failed_iff {E : (kernel Bytes me).Env} {st st' : SecretStore}
    {Attempt : Contents → Prop} {Bad : Error → Prop} {p : Process Bytes ι} {l : Log}
    {p' : Process Bytes ι} {e : Error}
    (h : Changed E st Attempt Bad ([], p) (.ok (.error e, st')) (l, p')) :
    (p'.disk.stored st.path = p.disk.stored st.path ∧ Same st'.entries st.entries) ↔
      Unreplaced l (p.disk.stored st.path) := by
  cases h with
  | failed hsame hstored hdir he =>
    exact iff_of_true ⟨hstored, hsame⟩ (unreplaced_of_not_failed hdir)
  | late hsame hflaky he hc himage hstored hdir hwrote =>
    rw [and_iff_left hsame, ← unreplaced_of_late hdir hwrote]
    exact ⟨fun h => hstored.symm.trans h, fun h => Eq.trans hstored h⟩

theorem Rotated.failed_iff {E : (kernel Bytes me).Env} {st : SecretStore} {newMaster : MasterKey}
    {p p' : Process Bytes ι} {l : Log} {e : Error}
    (h : Rotated P E st newMaster ([], p) (.err e) (l, p')) :
    p'.disk.stored st.path = p.disk.stored st.path ↔ Unreplaced l (p.disk.stored st.path) := by
  cases h with
  | failed hstored hdir he => exact iff_of_true hstored (unreplaced_of_not_failed hdir)
  | late hflaky he hc himage hstored hdir hwrote =>
    rw [← unreplaced_of_late hdir hwrote]
    exact ⟨fun h => hstored.symm.trans h, fun h => Eq.trans hstored h⟩

/-- Whichever calls fail, a failed `put`, `delete` or `rotate` of a handle, and a failed `open` of
an existing file, leave the stored bytes and the entries as they were, if and only if no call on
the directory failed or the bytes written were those already there. -/
theorem failed_operation_keeps {st : SecretStore} (hst : SecretStore.Reachable P me path st)
    (E : (kernel Bytes me).Env) (p : Process Bytes ι) :
    (∀ name secret e st' l p', Ends (kernel Bytes me).logged E (st.put P name secret) ([], p)
        (.ok (.error e, st')) (l, p') →
      ((p'.disk.stored path = p.disk.stored path ∧ Same st'.entries st.entries) ↔
        Unreplaced l (p.disk.stored path))) ∧
    (∀ name e st' l p', Ends (kernel Bytes me).logged E (st.delete name) ([], p)
        (.ok (.error e, st')) (l, p') →
      ((p'.disk.stored path = p.disk.stored path ∧ Same st'.entries st.entries) ↔
        Unreplaced l (p.disk.stored path))) ∧
    (∀ newMaster e l p', Ends (kernel Bytes me).logged E (st.rotate P newMaster) ([], p)
        (.err e) (l, p') →
      (p'.disk.stored path = p.disk.stored path ↔ Unreplaced l (p.disk.stored path))) ∧
    ∀ master e l p', p.disk.stored path ≠ none →
      Ends (kernel Bytes me).logged E (SecretStore.openStore path master) ([], p)
        (.err e) (l, p') →
      p'.disk.stored path = p.disk.stored path := by
  obtain ⟨rfl, hv⟩ := Reachable.valid hst
  refine ⟨?_, ?_, ?_, ?_⟩
  · intro name secret e st' l p' h
    exact ((put_wp P st name secret ([], p)).ends h).failed_iff
  · intro name e st' l p' h
    exact ((delete_wp st name ([], p)).ends h).failed_iff
  · intro newMaster e l p' h
    exact ((rotate_wp P hv newMaster ([], p)).ends h).failed_iff
  · intro master e l p' hex h
    have hopened := (openStore_wp st.path master ([], p)).ends h
    cases hopened with
    | rejected hd hbad ht => exact ht.stored
    | failed he hstored hdir hwrote => exact hstored
    | late he hflaky hnone himage hstored hdir => exact absurd hnone hex

end Replaced

/-! ## A store with one entry, on an empty disk -/

def sampleKey : MasterKey := ⟨List.replicate 32 1, by decide, by decide⟩

def sampleCiphers : Primitives := Aead.transparent (fun _ _ _ => .zero 32) (fun _ => true)

def samplePath : Bytes := [0x73]

def sampleHandle : SecretStore where
  salt := .zero 16
  keyId := .zero 16
  entries := ∅
  path := samplePath
  master := sampleKey
  lock := some 0

def sampleOpened : Outcome Error (Answer × Session) × Process Bytes Unit :=
  (kernel Bytes ()).play (failing fun _ => false)
    (serve sampleCiphers samplePath .reopen (.start sampleKey)) .start

theorem sampleOpened_run : Serves (kernel Bytes ()) (fun _ _ => True)
    (serve sampleCiphers samplePath) (.start sampleKey, .start) [(.reopen, .done (.ok ()))]
    (⟨sampleKey, some sampleHandle⟩, sampleOpened.2) := by
  have hends := ends_play (M := kernel Bytes ()) (E := fun _ _ => True)
    (failing fun _ => false) (fun _ => trivial) (serve sampleCiphers samplePath .reopen (.start sampleKey))
    (Process.start : Process Bytes Unit)
  exact .snoc (.nil _) hends

theorem sampleHandle_reachable :
    SecretStore.Reachable sampleCiphers () samplePath sampleHandle :=
  ⟨_, sampleKey, .start, _, _, _, sampleOpened_run, rfl⟩

def samplePut (bad : Call Bytes → Bool) :
    Outcome Error (Except Error Unit × SecretStore) × Log × Process Bytes Unit :=
  (kernel Bytes ()).logged.play (failing bad) (sampleHandle.put sampleCiphers ['a'] [5])
    ([], sampleOpened.2)

theorem samplePut_ends (bad : Call Bytes → Bool) :
    Ends (kernel Bytes ()).logged (fun _ _ => True) (sampleHandle.put sampleCiphers ['a'] [5])
      ([], sampleOpened.2) (samplePut bad).1 (samplePut bad).2 :=
  ends_play _ (fun _ => trivial) _ _

def onSyncDir : Call Bytes → Bool
  | .syncDir => true
  | _ => false

def onRename : Call Bytes → Bool
  | .rename _ _ => true
  | _ => false

/-- A `put` that fails when the directory cannot be synced has replaced the file. -/
theorem put_fails_after_replacing : ∃ (st : SecretStore) (p : Process Bytes Unit),
    Serves (kernel Bytes ()) (fun _ _ => True) (serve sampleCiphers samplePath)
      (.start sampleKey, .start) [(.reopen, .done (.ok ()))] (⟨sampleKey, some st⟩, p) ∧
    ∃ e st' l p', Ends (kernel Bytes ()).logged (fun _ _ => True)
      (st.put sampleCiphers ['a'] [5]) ([], p) (.ok (.error e, st')) (l, p') ∧
      p'.disk.stored samplePath ≠ p.disk.stored samplePath :=
  ⟨sampleHandle, sampleOpened.2, sampleOpened_run, .io ⟨.other, "I/O error"⟩, sampleHandle, _, _,
    samplePut_ends onSyncDir, by decide⟩

theorem failed_operation_keeps_sample :
    (samplePut onRename).2.2.disk.stored samplePath = sampleOpened.2.disk.stored samplePath := by
  have hends := samplePut_ends onRename
  have hkeeps := (failed_operation_keeps sampleCiphers sampleHandle_reachable (fun _ _ => True)
    sampleOpened.2).1 ['a'] [5] (.io ⟨.other, "I/O error"⟩) sampleHandle _ _ hends
  have hdir : dirFailed (samplePut onRename).2.1 = false := by decide
  exact (hkeeps.mpr (unreplaced_of_not_failed hdir)).1

end Krypto.Store
