import Krypto.Store.Secrets

/-! What the file steps of a store do, whichever of their calls fail, with a log
of the calls: whether a call on the directory failed, and what was written. -/

namespace Krypto.Store
open Effect

abbrev Log := List (Event (Call.Reply (ν := Bytes)))

def dirFailure : Event (Call.Reply (ν := Bytes)) → Bool
  | ⟨.openDir, .error _⟩ => true
  | ⟨.syncDir, .error _⟩ => true
  | _ => false

/-- Opening or syncing the directory failed, which is after the rename. -/
def dirFailed (l : Log) : Bool := l.any dirFailure

def writeOf : Event (Call.Reply (ν := Bytes)) → Option Bytes
  | ⟨.write _ data, _⟩ => some data
  | _ => none

def written (l : Log) : List Bytes := l.filterMap writeOf

@[simp] theorem dirFailed_append (l l' : Log) :
    dirFailed (l ++ l') = (dirFailed l || dirFailed l') := List.any_append

@[simp] theorem written_append (l l' : Log) : written (l ++ l') = written l ++ written l' :=
  List.filterMap_append

@[simp] theorem dirFailed_nil : dirFailed [] = false := rfl

@[simp] theorem dirFailed_cons (e : Event (Call.Reply (ν := Bytes))) (l : Log) :
    dirFailed (e :: l) = (dirFailure e || dirFailed l) := rfl

@[simp] theorem written_nil : written [] = [] := rfl

@[simp] theorem written_cons (e : Event (Call.Reply (ν := Bytes))) (l : Log) :
    written (e :: l) = (writeOf e).toList ++ written l := by
  cases h : writeOf e <;> simp [written, h]

theorem silent_of_private {op : Call Bytes} (h : op.Private) (y : op.Reply) :
    dirFailure ⟨op, y⟩ = false ∧ writeOf ⟨op, y⟩ = none := by
  cases op <;> first | exact h.elim | exact ⟨rfl, rfl⟩

section Specs
variable {ι : Type} [DecidableEq ι] {me : ι} {E : (kernel Bytes me).Env}

def Flaky (E : (kernel Bytes me).Env) : Prop := ∃ e : Fault, E .openDir (some e) ∨ E .syncDir (some e)

inductive Replaced (E : (kernel Bytes me).Env) (path data : Bytes) (l : Log) (s : Process Bytes ι) :
    Outcome Error Unit → Log × Process Bytes ι → Prop where
  | saved {l' s'} (stored : s'.disk.stored path = some data) (dir : dirFailed l' = dirFailed l)
      (wrote : written l' = written l ++ [data]) : Replaced E path data l s (.ok ()) (l', s')
  | kept {e l' s'} (he : FromEnv ((kernel Bytes me).Answers E) e) (stored : s'.disk.stored path = s.disk.stored path)
      (dir : dirFailed l' = dirFailed l) : Replaced E path data l s (.err e) (l', s')
  | late {e l' s'} (he : FromEnv ((kernel Bytes me).Answers E) e) (flaky : Flaky E) (stored : s'.disk.stored path = some data)
      (dir : dirFailed l' = true) (wrote : written l' = written l ++ [data]) :
      Replaced E path data l s (.err e) (l', s')

abbrev anyStep (_ : Call Bytes) (_ _ : Log × Process Bytes ι) : Prop := True

theorem wp_ask_bind {α : Type} (op : Call Bytes) (f : op.Reply → Action Bytes α)
    (Q : Outcome Error α → Log × Process Bytes ι → Prop) (l : Log) (s : Process Bytes ι) :
    wp (kernel Bytes me).logged E anyStep (ask op >>= f) Q (l, s) ↔ ∀ c, E op c →
      wp (kernel Bytes me).logged E anyStep (f (Process.step me op c s).1) Q
        (l ++ [⟨op, (Process.step me op c s).1⟩], (Process.step me op c s).2) :=
  forall_congr' fun _ => imp_congr_right fun _ => iff_of_eq (true_and _)

theorem quiet_wp {α : Type} {p : Action Bytes α} {Q : Outcome Error α → Prop}
    (h : Quiet Call.Private ((kernel Bytes me).Answers E) p Q) (l : Log) (s : Process Bytes ι) :
    wp (kernel Bytes me).logged E anyStep p (fun r t => Q r ∧ dirFailed t.1 = dirFailed l ∧
      written t.1 = written l ∧ t.2 = s) (l, s) := by
  refine h.logged.wp_keeps (R := fun (t t' : Log × Process Bytes ι) =>
    dirFailed t'.1 = dirFailed t.1 ∧ written t'.1 = written t.1 ∧ t'.2 = t.2) ?_ ?_ ?_ (l, s)
  · exact fun t => ⟨rfl, rfl, rfl⟩
  · exact fun h h' => ⟨h'.1.trans h.1, h'.2.1.trans h.2.1, h'.2.2.trans h.2.2⟩
  · intro op c t hop _
    obtain ⟨hd, hw⟩ := silent_of_private hop ((kernel Bytes me).step op c t.2).1
    refine ⟨⟨?_, ?_, kernel_private hop c t.2⟩, trivial⟩
    · simp [hd]
    · simp [hw]

theorem fromEnv_io {A : (op : Call Bytes) → op.Reply → Prop} (e : IoError) : FromEnv A (.io e) :=
  Or.inl ⟨e, rfl⟩

theorem dropFile_wp (f : Nat) {Q : Outcome Error Unit → Log × Process Bytes ι → Prop} {l : Log}
    {s : Process Bytes ι}
    (h : Q (.ok ()) (l ++ [⟨.close f, ()⟩], (Process.step me (.close f) () s).2)) :
    wp (kernel Bytes me).logged E anyStep (dropFile f) Q (l, s) := by
  unfold dropFile
  rw [wp_ask_bind]
  rintro ⟨⟩ _
  exact h

theorem writeSynced_wp {f i : Nat} {data : Bytes} {l : Log} {s : Process Bytes ι}
    (hf : s.files f = some i) :
    wp (kernel Bytes me).logged E anyStep (writeSynced f data)
      (fun r t => dirFailed t.1 = dirFailed l ∧
        ((r = .ok () ∧ t.2.disk = (s.disk.write i data).sync i ∧ written t.1 = written l ++ [data]) ∨
          ∃ e d, r = .err (.io e) ∧ t.2.disk = s.disk.write i d)) (l, s) := by
  unfold writeSynced
  rw [wp_ask_bind]
  rintro (_ | ⟨e, n⟩) _
  · simp only [Process.step, hf, orIo_ok_bind]
    show wp _ _ _ (ask (.sync f) >>= fun y => orIo y) _ _
    rw [wp_ask_bind]
    rintro (_ | e) _
    · simp only [Process.step, hf]
      refine ⟨by simp [dirFailure], Or.inl ⟨rfl, rfl, by simp [writeOf]⟩⟩
    · refine ⟨by simp [dirFailure, Process.step], Or.inr ⟨e.1, data, rfl, rfl⟩⟩
  · simp only [Process.step, hf, orIo_error_bind]
    exact ⟨by simp [dirFailure], Or.inr ⟨e.1, data.take n, rfl, rfl⟩⟩

theorem renameSynced_wp (path : Bytes) {i : Nat} {tmp : Bytes} {l : Log} {s : Process Bytes ι}
    (htmp : s.disk.dir tmp = some i) :
    wp (kernel Bytes me).logged E anyStep (renameSynced tmp path)
      (fun r t => written t.1 = written l ∧
        ((r = .ok () ∧ t.2.disk.stored path = some (s.disk.content i) ∧
            dirFailed t.1 = dirFailed l) ∨
          (∃ e, r = .err (.io e) ∧ t.2.disk = s.disk ∧ dirFailed t.1 = dirFailed l) ∨
          ∃ e, r = .err (.io e) ∧ Flaky E ∧ t.2.disk.stored path = some (s.disk.content i) ∧
            dirFailed t.1 = true)) (l, s) := by
  unfold renameSynced
  rw [wp_ask_bind]
  rintro (_ | e) _
  swap
  · exact ⟨by simp [writeOf], Or.inr (Or.inl
      ⟨e.1, rfl, rfl, by simp [dirFailure, Process.step]⟩)⟩
  have hstored := s.disk.stored_rename path htmp
  rw [Process.step_rename me htmp]
  show wp _ _ _ (ask .openDir >>= fun y => orIo y >>= fun _ => ask .syncDir >>= fun y => orIo y) _ _
  rw [wp_ask_bind]
  rintro (_ | e) hc
  swap
  · exact ⟨by simp [writeOf], Or.inr (Or.inr ⟨e.1, rfl, ⟨e, Or.inl hc⟩, hstored,
      by simp [dirFailure, Process.step]⟩)⟩
  show wp _ _ _ (ask .syncDir >>= fun y => orIo y) _ _
  rw [wp_ask_bind]
  rintro (_ | e) hc
  · exact ⟨by simp [writeOf], Or.inl ⟨rfl, hstored,
      by simp [dirFailure, Process.step]⟩⟩
  · exact ⟨by simp [writeOf], Or.inr (Or.inr ⟨e.1, rfl, ⟨e, Or.inr hc⟩, hstored,
      by simp [dirFailure, Process.step]⟩)⟩

theorem writeThenRename_wp {f i : Nat} {tmp path data : Bytes} {l : Log} {s : Process Bytes ι}
    (hf : s.files f = some i) (htmp : s.disk.dir tmp = some i) (hpath : s.disk.dir path ≠ some i) :
    wp (kernel Bytes me).logged E anyStep (writeThenRename f tmp path data)
      (Replaced E path data l s) (l, s) := by
  have hkept (d : Bytes) : (s.disk.write i d).stored path = s.disk.stored path :=
    s.disk.stored_write_of_ne hpath d
  unfold writeThenRename
  rw [wp_bind, Prog.always, wp_andThen]
  refine (writeSynced_wp hf).imp fun r t ht => ?_
  obtain ⟨l', s'⟩ := t
  rw [wp_andThen]
  refine dropFile_wp f ?_
  obtain ⟨hdir, ht⟩ := ht
  rcases ht with ⟨rfl, hdisk, hwrote⟩ | ⟨e, d, rfl, hdisk⟩
  · have hdisk' : s'.disk = (s.disk.write i data).sync i := hdisk
    have htmp' : (Process.step me (.close f) () s').2.disk.dir tmp = some i := by
      show s'.disk.dir tmp = some i
      rw [hdisk']
      exact htmp
    refine (renameSynced_wp path htmp').imp fun r u hu => ?_
    obtain ⟨l'', s''⟩ := u
    have hcontent : (Process.step me (.close f) () s').2.disk.content i = data := by
      show s'.disk.content i = data
      simp [hdisk']
    rw [hcontent] at hu
    have hwrote' : written l'' = written l ++ [data] := by
      rw [hu.1, written_append, hwrote]
      exact List.append_nil _
    have hclosed : dirFailed (l' ++ [⟨.close f, ()⟩]) = dirFailed l := by
      rw [dirFailed_append, hdir]
      exact Bool.or_false _
    rcases hu.2 with ⟨rfl, hs, hd⟩ | ⟨e, rfl, hs, hd⟩ | ⟨e, rfl, hflaky, hs, hd⟩
    · exact .saved hs (hd.trans hclosed) hwrote'
    · refine .kept (fromEnv_io e) ?_ (hd.trans hclosed)
      have hs' : s''.disk = s'.disk := hs
      rw [hs', hdisk', Disk.stored_sync]
      exact hkept data
    · exact .late (fromEnv_io e) hflaky hs hd hwrote'
  · refine .kept (fromEnv_io e) ?_ ?_
    · show s'.disk.stored path = _
      have hdisk' : s'.disk = s.disk.write i d := hdisk
      rw [hdisk']
      exact hkept d
    · rw [dirFailed_append, hdir]
      exact Bool.or_false _

theorem Replaced.of_same {path data : Bytes} {l l' : Log} {s s' : Process Bytes ι}
    {r : Outcome Error Unit} {t : Log × Process Bytes ι}
    (hd : dirFailed l' = dirFailed l) (hw : written l' = written l)
    (hs : s'.disk.stored path = s.disk.stored path) (h : Replaced E path data l' s' r t) :
    Replaced E path data l s r t := by
  cases h with
  | saved stored dir wrote => exact .saved stored (dir.trans hd) (hw ▸ wrote)
  | kept he stored dir => exact .kept he (stored.trans hs) (dir.trans hd)
  | late he flaky stored dir wrote => exact .late he flaky stored dir (hw ▸ wrote)

theorem Replaced.removeFile {path data tmp : Bytes} {l l' : Log} {s s' : Process Bytes ι}
    {e : Error} (htmp : tmp ≠ path) (h : Replaced E path data l s (.err e) (l', s')) :
    wp (kernel Bytes me).logged E anyStep ((Store.removeFile tmp).andThen fun _ => Prog.done (.err e))
      (Replaced E path data l s) (l', s') := by
  have hstored (c : Option Fault) :
      (Process.step me (.remove tmp) c s').2.disk.stored path = s'.disk.stored path := by
    generalize (Process.step me (.remove tmp) c s').2 = s'',
      Process.step_moves me (.remove tmp) c s' = hstep
    cases hstep with
    | same => rfl
    | removed => exact s'.disk.stored_remove_of_ne htmp.symm
  unfold Store.removeFile
  rw [wp_andThen, wp_ask_bind]
  intro c _
  have hs := hstored c
  cases h with
  | kept he stored dir =>
    exact .kept he (hs.trans stored) (by simpa [dirFailure] using dir)
  | late he flaky stored dir wrote =>
    exact .late he flaky (hs.trans stored) (by simpa [dirFailure] using dir)
      (by simpa [writeOf] using wrote)

theorem atomicWrite_wp (path data : Bytes) (l : Log) (s : Process Bytes ι) :
    wp (kernel Bytes me).logged E anyStep (atomicWrite path data) (Replaced E path data l s)
      (l, s) := by
  unfold atomicWrite
  rw [wp_bind]
  refine (quiet_wp (SecretStore.fill_starved 8 "getrandom: ") l s).imp fun r t ht => ?_
  obtain ⟨l1, s1⟩ := t
  obtain ⟨hr, hd1, hw1, hs1⟩ := ht
  obtain rfl : s1 = s := hs1
  rcases hr with ⟨nonce, rfl, -⟩ | ⟨hstarved, m, rfl⟩
  swap
  · exact .kept (Or.inr ⟨hstarved, m, rfl⟩) rfl hd1
  show wp _ _ _ (ask .processId >>= _) _ _
  rw [wp_ask_bind]
  intro (pid : Nat) _
  show wp _ _ _ (ask (.createNew (tmpPath path pid nonce) 0o600) >>= fun y => orIo y >>= fun f =>
    (writeThenRename f (tmpPath path pid nonce) path data).onErr
      (removeFile (tmpPath path pid nonce))) _ (l1 ++ [⟨.processId, pid⟩], s1)
  rw [wp_ask_bind]
  have hne := tmpPath_ne path pid nonce
  rintro (_ | e) _
  swap
  · exact .kept (fromEnv_io _) rfl (by simpa [dirFailure, Process.step] using hd1)
  cases hdir : s1.disk.dir (tmpPath path pid nonce) with
  | some i =>
    rw [Process.step_createNew_taken me hdir]
    exact .kept (fromEnv_io _) rfl (by simpa [dirFailure] using hd1)
  | none =>
    rw [Process.step_createNew me hdir, orIo_ok_bind, Prog.onErr]
    have hfile := s1.created_files (tmpPath path pid nonce) 0o600
    have htmp := s1.created_dir (tmpPath path pid nonce) 0o600
    have hfresh := s1.created_dir_ne_fresh (tmpPath path pid nonce) 0o600 hne.symm
    have hstored : (s1.created (tmpPath path pid nonce) 0o600).disk.stored path =
        s1.disk.stored path := s1.disk.stored_create_of_ne hne.symm 0o600
    rw [wp_andThen]
    refine (writeThenRename_wp hfile htmp hfresh).imp fun r t ht => ?_
    obtain ⟨l', s'⟩ := t
    have hreplaced := ht.of_same (l := l) (s := s1) (by simpa [dirFailure] using hd1)
      (by simpa [writeOf] using hw1) hstored
    cases r with
    | ok _ => exact hreplaced
    | panic => exact hreplaced
    | err e => exact hreplaced.removeFile hne

inductive Persisted (E : (kernel Bytes me).Env) (st : SecretStore) (l : Log) (s : Process Bytes ι)
    (r : Outcome Error Unit) (t : Log × Process Bytes ι) : Prop where
  | refused (e : Error) (hr : r = .err e) (he : checkedImage st.toContents = .err e) (ht : t = (l, s))
  | replaced (data : Bytes) (himage : checkedImage st.toContents = .ok data)
      (h : Replaced E st.path data l s r t)

theorem persist_wp (st : SecretStore) (l : Log) (s : Process Bytes ι) :
    wp (kernel Bytes me).logged E anyStep st.persist (Persisted E st l s) (l, s) := by
  unfold SecretStore.persist
  rcases checkedImage_cases st.toContents with ⟨data, h, -⟩ | ⟨m, h⟩
  · rw [h]
    exact (atomicWrite_wp st.path data l s).imp fun r t ht => .replaced data h ht
  · rw [h]
    exact .refused _ rfl h rfl

end Specs
end Krypto.Store
