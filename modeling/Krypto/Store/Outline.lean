import Krypto.Store.Operations

/-! What the operations of a store do to the system, in outline: they read the
store's file, look at its mode, and `persist` at most once. What holds of those
two steps then holds of every operation. -/

namespace Krypto.Store
open Effect

/-- A call that has nothing to do with the directory or with a file's content. -/
def Plain (path : Bytes) : Call Bytes → Prop
  | .getrandom _ | .lockPages _ | .processId => True
  | .stat n | .chmod n _ => n = path
  | _ => False

/-- Plain calls, reads of the file at `path` and, if `w`, one `persist`, on a handle and to an end
that are good. -/
inductive Outline (path : Bytes) {α : Type} (Good : SecretStore → α → Prop) :
    Bool → Action Bytes α → Prop where
  | done {w} (r : Outcome Error α) : Outline path Good w (.done r)
  | call {w} {op : Call Bytes} {next : op.Reply → Action Bytes α} (h : Plain path op)
      (hnext : ∀ y, Outline path Good w (next y)) : Outline path Good w (.call op next)
  | read {w} (cap : Nat) {k : Outcome Error (Option Bytes) → Action Bytes α}
      (hk : ∀ r, Outline path Good w (k r)) : Outline path Good w ((readCapped path cap).andThen k)
  | persist {st : SecretStore} {a : α} {k : Outcome Error Unit → Action Bytes α} (hpath : st.path = path)
      (h : Good st a) (hok : k (.ok ()) = pure a) (hk : ∀ r, Outline path Good false (k r)) :
      Outline path Good true (st.persist.andThen k)

theorem plain_of_private {path : Bytes} (op : Call Bytes) (h : op.Private) : Plain path op := by
  cases op <;> first | exact h.elim | exact trivial

namespace Outline
variable {path : Bytes} {w : Bool} {α β : Type} {Good : SecretStore → β → Prop}

theorem of_quiet {p : Action Bytes α} {k : Outcome Error α → Action Bytes β}
    {Q : Outcome Error α → Prop} (h : Quiet (Plain path) (fun _ _ => True) p Q)
    (hk : ∀ r, Q r → Outline path Good w (k r)) : Outline path Good w (p.andThen k) := by
  induction p with
  | done r => exact hk r h
  | call op next ih => exact .call h.1 fun y => ih y (h.2 y trivial)

theorem bind_quiet {p : Action Bytes α} {f : α → Action Bytes β} {Q : Outcome Error α → Prop}
    (h : Quiet Call.Private (fun _ _ => True) p Q)
    (hf : ∀ a, Q (.ok a) → Outline path Good w (f a)) : Outline path Good w (p >>= f) := by
  refine of_quiet (h.calls plain_of_private) fun r hr => ?_
  cases r with
  | ok a => exact hf a hr
  | err e => exact .done _
  | panic => exact .done _

/-- What keeps `I` in the calls, the read and the replacement keeps it in the operation. `I false`
is what is known after the replacement. -/
theorem wp {ι : Type} [DecidableEq ι] {me : ι} {E : (kernel Bytes me).Env}
    {G : Call Bytes → Process Bytes ι → Process Bytes ι → Prop} {I : Bool → Process Bytes ι → Prop}
    (hmono : ∀ s, I true s → I false s)
    (hcall : ∀ w op c s, Plain path op → E op c → I w s →
      G op s (Process.step me op c s).2 ∧ I w (Process.step me op c s).2)
    (hread : ∀ w cap s, I w s →
      Effect.wp (kernel Bytes me) E G (readCapped path cap) (fun _ => I w) s)
    (hreplace : ∀ data s, I true s →
      Effect.wp (kernel Bytes me) E G (atomicWrite path data) (fun _ => I false) s)
    {p : Action Bytes β} (h : Outline path Good w p) {s : Process Bytes ι} (hs : I w s) :
    Effect.wp (kernel Bytes me) E G p (fun _ => I false) s := by
  induction h generalizing s with
  | @done w r =>
    cases w with
    | true => exact hmono s hs
    | false => exact hs
  | @call w op next h _ ih =>
    intro c hc
    obtain ⟨hg, hi⟩ := hcall w op c s h hc hs
    exact ⟨hg, ih _ hi⟩
  | @read w cap k _ ih =>
    rw [wp_andThen]
    exact (hread w cap s hs).imp fun r s' hs' => ih r hs'
  | @persist st a k hpath _ _ _ ih =>
    have hpersist : Effect.wp (kernel Bytes me) E G st.persist (fun _ => I false) s := by
      unfold SecretStore.persist
      cases checkedImage st.toContents with
      | ok data => exact hpath ▸ hreplace data s hs
      | err e => exact hmono s hs
      | panic => exact hmono s hs
    rw [wp_andThen]
    exact hpersist.imp fun r s' hs' => ih r hs'

end Outline

/-! ## The operations -/

section Operations
variable {path : Bytes} (P : Primitives)

theorem makePrivate_plain (path : Bytes) :
    Quiet (Plain path) (fun _ _ => True) (makePrivate path) fun _ => True := by
  refine ⟨rfl, ?_⟩
  rintro (e | m) _
  · trivial
  show Quiet _ _ (if m.mode &&& 0o777 = 0o600 then pure () else _) _
  split_ifs
  · trivial
  refine ⟨rfl, ?_⟩
  rintro (e | _) _
  · show Quiet _ _ (if e.kind = .permissionDenied then pure () else Prog.throw (Error.io e)) _
    split_ifs <;> trivial
  · trivial

theorem openLocked_outline (path : Bytes) (master : MasterKey) (lock : Option Nat) :
    Outline path (fun st st' => st' = st ∧ st.entries = ∅) true
      (SecretStore.openLocked path master lock) := by
  refine .read _ fun r => ?_
  rcases r with (_ | data) | e | _
  · refine Outline.bind_quiet (SecretStore.fill_starved 16 "getrandom: ") fun salt _ => ?_
    refine Outline.bind_quiet (SecretStore.fill_starved 16 "getrandom: ") fun keyId _ => ?_
    refine .persist rfl ⟨rfl, rfl⟩ rfl fun r => ?_
    cases r <;> exact .done _
  · refine Outline.of_quiet (makePrivate_plain path) fun r _ => ?_
    cases r with
    | ok _ =>
      show Outline path _ true (lift (load data) >>= _)
      cases load data <;> exact .done _
    | err e => exact .done _
    | panic => exact .done _
  · exact .done _
  · exact .done _

theorem put_outline (st : SecretStore) (name : Str) (secret : SecretBuf) :
    Outline st.path (fun st' r => r = (.ok (), st') ∧ PutAttempt P st name secret st'.toContents) true
      (st.put P name secret) := by
  have hsealed : Quiet Call.Private (fun _ _ => True)
      (do lift (validateName name); st.sealUnder P name secret)
      fun r => ∀ blob, r = .ok blob → PutAttempt P st name secret (inserted st.toContents name blob) := by
    rcases validateName_cases name with hv | ⟨m, hv⟩
    · have hvalid := validateName_eq_ok.mp hv
      rw [hv, lift_ok_bind]
      refine (SecretStore.sealUnder_quiet P st hvalid secret).imp fun r hr => ?_
      rcases hr with ⟨blob, rfl, hseal⟩ | hr
      · rintro _ ⟨⟩
        exact ⟨blob, hvalid, hseal, rfl⟩
      · exact fun blob hb => absurd hb (hr.not_ok blob)
    · rw [hv, lift_err_bind]
      exact fun _ hb => nomatch hb
  unfold SecretStore.put Prog.attempt
  dsimp only
  rw [Prog.bind_def, Prog.andThen_assoc]
  refine Outline.of_quiet (hsealed.calls plain_of_private) fun r hr => ?_
  cases r with
  | ok blob =>
    show Outline st.path _ true ((Prog.andThen _ _).andThen _)
    rw [Prog.andThen_assoc]
    refine .persist rfl ⟨rfl, hr blob rfl⟩ rfl fun r => ?_
    cases r <;> exact .done _
  | err e => exact .done _
  | panic => exact .done _

theorem delete_outline (st : SecretStore) (name : Str) :
    Outline st.path (fun st' r => r = (.ok (), st') ∧ st'.toContents = erased st.toContents name) true
      (st.delete name) := by
  unfold SecretStore.delete
  cases st.entries.lookup name with
  | none => exact .done _
  | some old =>
    show Outline st.path _ true ((Prog.andThen _ _).andThen _)
    rw [Prog.andThen_assoc]
    refine .persist rfl ⟨rfl, rfl⟩ rfl fun r => ?_
    cases r <;> exact .done _

theorem rotateLocked_outline {st : SecretStore} (hv : Valid st.entries) (newMaster : MasterKey) :
    Outline st.path (fun st' r => r = st' ∧ RotateAttempt P st newMaster st'.toContents) true
      (st.rotateLocked P newMaster) := by
  refine Outline.bind_quiet (newGeneration_quiet P hv newMaster) fun newStore hr => ?_
  rcases hr with ⟨c, hc, he⟩ | ⟨e, he, -⟩ | hr
  · cases he
    refine .persist rfl ⟨rfl, hc⟩ rfl fun r => ?_
    cases r <;> exact .done _
  · cases he
  · exact absurd rfl (hr.not_ok newStore)

end Operations
end Krypto.Store
