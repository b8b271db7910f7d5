import Krypto.Effect.Host

/-! Why the calls on a tree with links fail, where the environment fails none of
them: the errors are those of the tree. -/

namespace Krypto.Effect

def errorOf {α : Type} : Except IoError α → Option IoError
  | .error e => some e
  | .ok _ => none

theorem errorOf_eq_some {α : Type} {r : Except IoError α} {e : IoError} (h : errorOf r = some e) :
    r = .error e := by
  cases r with
  | error e' => exact congrArg Except.error (Option.some.inj h)
  | ok a => cases h

def Call.ioError {π : Type} : (op : Call π) → op.Reply → Option IoError
  | .openCreate _ _, y | .openRead _, y | .createNew _ _, y => errorOf (α := ℕ) y
  | .fstat _, y | .stat _, y => errorOf (α := Metadata) y
  | .read _ _, y => errorOf (α := Bytes) y
  | .chmod _ _, y | .write _ _, y | .sync _, y | .rename _ _, y | .remove _, y | .openDir, y
  | .syncDir, y => errorOf (α := Unit) y
  | .getrandom _, _ | .lockPages _, _ | .processId, _ | .tryLock _, _ | .close _, _ => none

/-- The errors that come of what is in the tree, and of no fault. -/
def IoError.Plain (e : IoError) : Prop :=
  e.kind = .notFound ∨ e.kind = .alreadyExists ∨ e.kind = .other

namespace Host
variable {ν ι π : Type} {s : Host ν ι} {j : ι} {path path' : Except IoError (Route ν)} {e : IoError}

theorem error_plain (place : Place ν) : place.error.Plain := by
  cases place with
  | found i => exact .inr (.inr rfl)
  | missing d n => exact .inl rfl
  | slashed => exact .inl rfl
  | absent => exact .inl rfl
  | notDirectory => exact .inr (.inr rfl)
  | tooManyLinks => exact .inr (.inr rfl)

theorem badFile_plain : Process.badFile.Plain := .inr (.inr rfl)

theorem isDirectory_plain : isDirectory.Plain := .inr (.inr rfl)

theorem find_plain (hpath : ∀ e, path = .error e → e.Plain) (h : s.find j path = .error e) :
    e.Plain := by
  cases path with
  | error e' =>
    cases h
    exact hpath _ rfl
  | ok r =>
    unfold find at h
    dsimp only [bind, Except.bind] at h
    split at h
    · cases h
    · cases h
      exact error_plain _

theorem onFile_plain {α : Type} {f : ℕ} {act : ℕ → Except IoError α × Host ν ι}
    (hact : ∀ i, (act i).1 = .error e → e.Plain) (h : (s.onFile j f act).1 = .error e) : e.Plain := by
  unfold onFile at h
  split at h
  · cases h
    exact badFile_plain
  · exact hact _ h

theorem onPath_plain {α : Type} {act : ℕ → α × Host ν ι} (hpath : ∀ e, path = .error e → e.Plain)
    (h : (s.onPath j path act).1 = .error e) : e.Plain := by
  unfold onPath at h
  split at h
  next hfind =>
    cases h
    exact find_plain hpath hfind
  · cases h

theorem readFile_plain {i limit : ℕ} (h : (s.readFile i limit).1 = .error e) : e.Plain := by
  unfold readFile at h
  split at h
  · cases h
    exact isDirectory_plain
  · cases h

section Entries
variable [DecidableEq ν]

theorem slotOr_plain {slashed : IoError} (hslashed : slashed.Plain)
    (hpath : ∀ e, path = .error e → e.Plain) (h : s.slotOr j slashed path = .error e) : e.Plain := by
  cases path with
  | error e' =>
    cases h
    exact hpath _ rfl
  | ok r =>
    unfold slotOr at h
    dsimp only [bind, Except.bind] at h
    split at h
    · cases h
    · cases h
      split
      · exact hslashed
      · exact error_plain _

theorem slot_plain (hpath : ∀ e, path = .error e → e.Plain) (h : s.slot j path = .error e) :
    e.Plain := slotOr_plain (.inl rfl) hpath h

theorem rename_plain (hpath : ∀ e, path = .error e → e.Plain)
    (hpath' : ∀ e, path' = .error e → e.Plain) (h : (s.rename j path path').1 = .error e) :
    e.Plain := by
  unfold rename at h
  split at h
  next hslot =>
    cases h
    exact slot_plain hpath hslot
  · dsimp only at h
    split at h
    next hslot =>
      cases h
      refine slotOr_plain ?_ hpath' hslot
      split
      · exact .inl rfl
      · exact .inr (.inr rfl)
    · split at h
      · cases h
        exact .inl rfl
      · split at h
        · cases h
          exact isDirectory_plain
        · cases h

theorem remove_plain (hpath : ∀ e, path = .error e → e.Plain)
    (h : (s.remove j path).1 = .error e) : e.Plain := by
  unfold remove at h
  split at h
  next hslot =>
    cases h
    exact slot_plain hpath hslot
  · split at h
    · cases h
      exact .inl rfl
    · split at h
      · cases h
        exact isDirectory_plain
      · cases h

variable [DecidableEq ι]

theorem openOrCreate_plain {mode : ℕ} (hpath : ∀ e, path = .error e → e.Plain)
    (h : (s.openOrCreate j path mode).1 = .error e) : e.Plain := by
  unfold openOrCreate at h
  split at h
  next e' =>
    cases h
    exact hpath _ rfl
  · split at h
    · split at h
      · cases h
        exact isDirectory_plain
      · cases h
    · cases h
    · cases h
      exact isDirectory_plain
    · cases h
      exact error_plain _

theorem createNew_plain {mode : ℕ} (hpath : ∀ e, path = .error e → e.Plain)
    (h : (s.createNew j path mode).1 = .error e) : e.Plain := by
  unfold createNew at h
  split at h
  next hslot =>
    cases h
    exact slotOr_plain isDirectory_plain hpath hslot
  · split at h
    · cases h
      exact .inr (.inl rfl)
    · cases h

end Entries
end Host
end Krypto.Effect
