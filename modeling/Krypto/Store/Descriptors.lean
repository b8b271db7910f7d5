import Krypto.Effect.Descriptors
import Krypto.Effect.Stateful
import Krypto.Store.Calls

/-! The files that the operations of a store have open: each closes what it opens, whether it
fails or not, but for the lock that goes with a handle. -/

namespace Krypto
open Effect Store Protocol

variable {ν α β : Type} {F : Finset Nat}

abbrev Restores (F : Finset Nat) (p : Action ν α) : Prop := Uses F p fun _ F' => F' = F

theorem Restores.bind {p : Action ν α} {f : α → Action ν β} (hp : Restores F p) (hf : ∀ a, Restores F (f a)) :
    Restores F (p >>= f) := by
  apply follows_bind
  refine hp.imp fun r F' hF' => ?_
  subst hF'
  cases r with
  | ok a => exact hf a
  | err e => rfl
  | panic => rfl

theorem restores_close {f : Nat} (hf : f ∉ F) : Uses (insert f F) (dropFile f : Action ν Unit) fun _ F' => F' = F := by
  refine ⟨fun g hg => ?_, fun _ _ => Finset.erase_insert hf⟩
  cases hg
  exact Finset.mem_insert_self f F

theorem Restores.always {f : Nat} (hf : f ∉ F) {p : Action ν α} (hp : Restores (insert f F) p) :
    Uses (insert f F) (p.always (dropFile f)) fun _ F' => F' = F := by
  refine follows_andThen (hp.imp fun r F' hF' => ?_)
  subst hF'
  exact follows_andThen ((restores_close hf).imp fun _ _ h => h)

def Locked (F : Finset Nat) (r : Outcome Error (Option Nat)) (F' : Finset Nat) : Prop :=
  match r with
  | .ok (some f) => f ∉ F ∧ F' = insert f F
  | .ok none | .err _ => F' = F
  | .panic => True

theorem openLocked_yields (path : Bytes) (k : MasterKey) (lock : Option Nat) :
    Yields (fun st => st.master = k ∧ st.lock = lock) (SecretStore.openLocked path k lock) := by
  refine yields_bind fun r => ?_
  cases r with
  | some data => exact yields_bind fun _ => yields_bind fun c => yields_pure ⟨rfl, rfl⟩
  | none => exact yields_bind fun _ => yields_bind fun _ => yields_bind fun _ => yields_pure ⟨rfl, rfl⟩

theorem openStore_yields (path : Bytes) (k : MasterKey) :
    Yields (fun st => st.master = k) (SecretStore.openStore path k) :=
  yields_bind fun lock => ((openLocked_yields path k lock).weaken fun _ h => h.1).onErr (dropLock lock)

theorem sealAll_yields (P : Primitives) (st : SecretStore) (plain : List (Str × SecretBuf)) :
    Yields (fun st' => st'.master = st.master ∧ st'.lock = st.lock) (st.sealAll P plain) := by
  induction plain generalizing st with
  | nil => exact yields_pure ⟨rfl, rfl⟩
  | cons entry plain ih => exact yields_bind fun blob => ih { st with entries := st.entries.insert entry.1 blob }

theorem rotateLocked_yields (P : Primitives) (st : SecretStore) (k : MasterKey) :
    Yields (fun st' => st'.master = k ∧ st'.lock = st.lock) (st.rotateLocked P k) := by
  have hnew : Yields (fun st' => st'.master = k ∧ st'.lock = st.lock) (st.newGeneration P k) :=
    yields_bind fun plain => yields_bind fun _ => yields_bind fun _ => sealAll_yields P _ plain
  exact hnew.bind fun st' h => yields_bind fun _ => yields_pure h

theorem rotate_yields (P : Primitives) (st : SecretStore) (k : MasterKey) :
    Yields (fun st' => st'.master = k) (st.rotate P k) :=
  ((rotateLocked_yields P st k).weaken fun _ h => h.1).onErr (dropLock st.lock)

end Krypto
