import Krypto.Error

/-! `drop_filesystem`: the process moves into an empty directory and makes it
its root, while another party may put anything else at the path. -/

namespace Krypto.Harden
open Effect
variable {π δ : Type}

inductive Place (π : Type) where
  | here
  | path (dir : π)

/-- The calls `drop_filesystem` makes. Open directories are numbered; `read_dir` opens one. -/
inductive Syscall (π : Type) where
  | metadata (place : Place π)
  | next (entries : Nat)
  | openDir (place : Place π)
  | fchdir (fd : Nat)
  | chroot (place : Place π)

def Syscall.Reply : Syscall π → Type
  | metadata _ => Except IoError Bool
  | openDir _ => Except IoError Nat
  | next _ => Option (Except IoError Unit)
  | fchdir _ | chroot _ => Except IoError Unit

inductive Node (δ : Type) where
  | dir (d : δ)
  | other

/-- The file system at one moment: what each path leads to from a root and a working
directory, and which directories have no entry. -/
structure World (π δ : Type) where
  lookup : (root cwd : δ) → π → Option (Node δ)
  isEmpty : δ → Bool

/-- The process, and the directories it has seen the end of without seeing an entry,
newest first. -/
structure Process (δ : Type) where
  root : δ
  cwd : δ
  files : Nat → Option δ
  nextFile : Nat
  foundEmpty : List δ

namespace Process

def notFound : IoError := ⟨.notFound, "No such file or directory"⟩

def notDir : IoError := ⟨.other, "Not a directory"⟩

def badFile : IoError := ⟨.other, "Bad file descriptor"⟩

def resolve (s : Process δ) (w : World π δ) : Place π → Option (Node δ)
  | .here => some (.dir s.cwd)
  | .path dir => w.lookup s.root s.cwd dir

def openFile (s : Process δ) (d : δ) : Process δ :=
  { s with files := Function.update s.files s.nextFile (some d), nextFile := s.nextFile + 1 }

/-- One call. Its choice is the file system the other party has left by then, and whether the
call fails. -/
def step : (op : Syscall π) → World π δ × Option IoError → Process δ → op.Reply × Process δ
  | .metadata _, (_, some e), s => (.error e, s)
  | .metadata place, (w, none), s =>
    match s.resolve w place with
    | none => (.error notFound, s)
    | some .other => (.ok false, s)
    | some (.dir _) => (.ok true, s)
  | .openDir _, (_, some e), s => (.error e, s)
  | .openDir place, (w, none), s =>
    match s.resolve w place with
    | none => (.error notFound, s)
    | some .other => (.error notDir, s)
    | some (.dir d) => (.ok s.nextFile, s.openFile d)
  | .next _, (_, some e), s => (some (.error e), s)
  | .next f, (w, none), s =>
    match s.files f with
    | none => (some (.error badFile), s)
    | some d =>
      if w.isEmpty d then (none, { s with foundEmpty := d :: s.foundEmpty }) else (some (.ok ()), s)
  | .fchdir _, (_, some e), s => (.error e, s)
  | .fchdir f, (_, none), s =>
    match s.files f with
    | none => (.error badFile, s)
    | some d => (.ok (), { s with cwd := d })
  | .chroot _, (_, some e), s => (.error e, s)
  | .chroot place, (w, none), s =>
    match s.resolve w place with
    | none => (.error notFound, s)
    | some .other => (.error notDir, s)
    | some (.dir d) => (.ok (), { s with root := d })

end Process

def system (π δ : Type) : Machine (Syscall.Reply (π := π)) (Process δ) where
  Choice _ := World π δ × Option IoError
  step := Process.step

abbrev Step (π ε α : Type) := Prog (Syscall.Reply (π := π)) ε α

variable {ε : Type}

def ask (op : Syscall π) : Step π ε op.Reply := Prog.perform op

def mapErr {α : Type} (f : IoError → ε) : Except IoError α → Step π ε α
  | .ok a => pure a
  | .error e => Prog.throw (f e)

variable (display : π → String)

def chrootHere (dir : π) : Step π String Unit := do
  let entries ← mapErr (fun e => "reading chroot target " ++ display dir ++ " failed: " ++ e.message)
    (← ask (.openDir .here))
  if (← ask (.next entries)).isSome then
    Prog.throw ("chroot target " ++ display dir ++ " is not empty")
  else
    mapErr (fun e => "chroot failed: " ++ e.message) (← ask (.chroot .here))

def chrootInto (dir : π) : Step π Error Unit := do
  let here ← mapErr .io (← ask (.openDir .here))
  let target ← mapErr .io (← ask (.openDir (.path dir)))
  mapErr (fun e => .hardening ("stepping into " ++ display dir ++ " failed: " ++ e.message))
    (← ask (.fchdir target))
  match ← (chrootHere display dir).attempt with
  | .ok () => pure ()
  | .error why =>
    match ← ask (.fchdir here) with
    | .ok () => Prog.throw (.hardening why)
    | .error e => Prog.throw (.hardening (why ++ "; stepping back failed too: " ++ e.message))

def dropFilesystem (dir : π) : Step π Error Unit := do
  let isDir ← mapErr .io (← ask (.metadata (.path dir)))
  if !isDir then
    Prog.throw (.hardening ("chroot target " ++ display dir ++ " is not a directory"))
  else
    let entries ← mapErr .io (← ask (.openDir (.path dir)))
    if (← ask (.next entries)).isSome then
      Prog.throw (.hardening ("chroot target " ++ display dir ++ " is not empty"))
    else
      chrootInto display dir

/-! ## Where the process stands after each part -/

def anything : (system π δ).Env := fun _ _ => True

structure Stayed (s s' : Process δ) : Prop where
  root : s'.root = s.root
  cwd : s'.cwd = s.cwd
  files : ∀ f < s.nextFile, s'.files f = s.files f
  nextFile : s.nextFile ≤ s'.nextFile

theorem Stayed.refl (s : Process δ) : Stayed s s :=
  ⟨rfl, rfl, fun _ _ => rfl, Nat.le_refl _⟩

theorem Stayed.trans {a b c : Process δ} (h : Stayed a b) (h' : Stayed b c) : Stayed a c :=
  ⟨h'.root.trans h.root, h'.cwd.trans h.cwd,
    fun f hf => (h'.files f (Nat.lt_of_lt_of_le hf h.nextFile)).trans (h.files f hf),
    Nat.le_trans h.nextFile h'.nextFile⟩

theorem stayed_openFile (s : Process δ) (d : δ) : Stayed s (s.openFile d) where
  root := rfl
  cwd := rfl
  files _ hf := Function.update_of_ne (Nat.ne_of_lt hf) _ _
  nextFile := Nat.le_succ _

section Rules
variable {α : Type} {Q : Outcome ε α → Process δ → Prop} {s : Process δ}

abbrev Wp (p : Step π ε α) (Q : Outcome ε α → Process δ → Prop) (s : Process δ) : Prop :=
  wp (system π δ) anything (fun _ _ _ => True) p Q s

theorem wp_metadata {place : Place π} {f : Except IoError Bool → Step π ε α}
    (h : ∀ y, Wp (f y) Q s) : Wp (ask (.metadata place) >>= f) Q s := by
  rintro ⟨w, _ | e⟩ -
  · refine ⟨trivial, ?_⟩
    simp only [system, Process.step]
    split
    · exact h _
    · exact h _
    · exact h _
  · exact ⟨trivial, h _⟩

theorem wp_openDir {place : Place π} {f : Except IoError Nat → Step π ε α}
    (herr : ∀ e, Wp (f (.error e)) Q s)
    (hok : ∀ d, (place = .here → d = s.cwd) → Wp (f (.ok s.nextFile)) Q (s.openFile d)) :
    Wp (ask (.openDir place) >>= f) Q s := by
  rintro ⟨w, _ | e⟩ -
  · refine ⟨trivial, ?_⟩
    simp only [system, Process.step]
    split
    · exact herr _
    · exact herr _
    · rename_i d hd
      refine hok d ?_
      rintro rfl
      cases hd
      rfl
  · exact ⟨trivial, herr _⟩

theorem wp_next {n : Nat} {d : δ} {f : Option (Except IoError Unit) → Step π ε α}
    (hd : s.files n = some d) (hsome : ∀ y, Wp (f (some y)) Q s)
    (hnone : Wp (f none) Q { s with foundEmpty := d :: s.foundEmpty }) :
    Wp (ask (.next n) >>= f) Q s := by
  rintro ⟨w, _ | e⟩ -
  · refine ⟨trivial, ?_⟩
    simp only [system, Process.step, hd]
    split
    · exact hnone
    · exact hsome _
  · exact ⟨trivial, hsome _⟩

theorem wp_fchdir {n : Nat} {d : δ} {f : Except IoError Unit → Step π ε α}
    (hd : s.files n = some d) (herr : ∀ e, Wp (f (.error e)) Q s)
    (hok : Wp (f (.ok ())) Q { s with cwd := d }) : Wp (ask (.fchdir n) >>= f) Q s := by
  rintro ⟨w, _ | e⟩ -
  · refine ⟨trivial, ?_⟩
    simp only [system, Process.step, hd]
    exact hok
  · exact ⟨trivial, herr _⟩

theorem wp_chroot {f : Except IoError Unit → Step π ε α} (herr : ∀ e, Wp (f (.error e)) Q s)
    (hok : Wp (f (.ok ())) Q { s with root := s.cwd }) :
    Wp (ask (.chroot .here) >>= f) Q s := by
  rintro ⟨w, _ | e⟩ -
  · exact ⟨trivial, hok⟩
  · exact ⟨trivial, herr _⟩

end Rules

/-- The directory the process stands in was found empty and is its root, or nothing changed. -/
theorem chrootHere_spec (dir : π) (s : Process δ) :
    Wp (chrootHere display dir) (fun r s' =>
      (r = .ok () ∧ s'.root = s.cwd ∧ s'.cwd = s.cwd ∧ s'.foundEmpty = s.cwd :: s.foundEmpty) ∨
        ∃ why, r = .err why ∧ Stayed s s') s := by
  unfold chrootHere
  apply wp_openDir
  · intro e
    exact .inr ⟨_, rfl, .refl s⟩
  · intro d hd
    cases hd rfl
    have hopen := stayed_openFile s s.cwd
    apply wp_next (Function.update_self _ _ _)
    · intro y
      exact .inr ⟨_, rfl, hopen⟩
    · apply wp_chroot
      · intro e
        exact .inr ⟨_, rfl, hopen.root, hopen.cwd, hopen.files, hopen.nextFile⟩
      · exact .inl ⟨rfl, rfl, rfl, rfl⟩

/-- How a process that was asked to drop the file system can stand afterwards, when it had seen
the end of these directories before. -/
inductive Dropped (s : Process δ) (seen : List δ) : Outcome Error Unit → Process δ → Prop where
  | jailed {s'} (found : s'.foundEmpty = s'.root :: seen) (inside : s'.cwd = s'.root) :
      Dropped s seen (.ok ()) s'
  | back {e s'} (root : s'.root = s.root) (cwd : s'.cwd = s.cwd) : Dropped s seen (.err e) s'
  | astray {why : String} {e : IoError} {s'} (root : s'.root = s.root) :
      Dropped s seen (.err (.hardening (why ++ "; stepping back failed too: " ++ e.message))) s'

theorem Stayed.dropped {s s' : Process δ} (h : Stayed s s') {seen : List δ} {e : Error} :
    Dropped s seen (.err e) s' := .back h.root h.cwd

theorem chrootInto_spec (dir : π) (s : Process δ) :
    Wp (chrootInto display dir) (Dropped s s.foundEmpty) s := by
  unfold chrootInto
  apply wp_openDir
  · intro e
    exact (Stayed.refl s).dropped
  · intro here hhere
    cases hhere rfl
    have hstay := stayed_openFile s s.cwd
    apply wp_openDir
    · intro e
      exact hstay.dropped
    · rintro target -
      have hstay' := hstay.trans (stayed_openFile _ target)
      apply wp_fchdir (Function.update_self _ _ _)
      · intro e
        exact hstay'.dropped
      · show Wp ((chrootHere display dir).attempt >>= _) _ _
        rw [Wp, wp_bind, wp_attempt]
        refine (chrootHere_spec display dir _).imp fun r s' h => ?_
        rcases h with ⟨rfl, hroot, hcwd, hfound⟩ | ⟨why, rfl, h⟩
        · exact .jailed (by rw [hfound, hroot]; rfl) (by rw [hroot, hcwd])
        · -- the directory it stood in is still open, to step back to
          have hback : s'.files s.nextFile = some s.cwd := by
            have hopen := (stayed_openFile (s.openFile s.cwd) target).files s.nextFile
              (Nat.lt_succ_self _)
            have hlast := h.files s.nextFile (Nat.lt_succ_of_lt (Nat.lt_succ_self _))
            exact hlast.trans (hopen.trans (Function.update_self _ _ _))
          apply wp_fchdir hback
          · intro e
            exact .astray h.root
          · exact .back h.root rfl

theorem Dropped.of_stayed {s t s' : Process δ} {seen : List δ} {r : Outcome Error Unit}
    (h : Stayed s t) (hr : Dropped t seen r s') : Dropped s seen r s' := by
  cases hr with
  | jailed found inside => exact .jailed found inside
  | back root cwd => exact .back (root.trans h.root) (cwd.trans h.cwd)
  | astray root => exact .astray (root.trans h.root)

theorem dropFilesystem_spec (dir : π) (s : Process δ) :
    Wp (dropFilesystem display dir)
      (fun r s' => ∃ first, Dropped s (first :: s.foundEmpty) r s') s := by
  unfold dropFilesystem
  apply wp_metadata
  rintro (e | isDir)
  · exact ⟨s.cwd, (Stayed.refl s).dropped⟩
  · cases isDir with
    | false => exact ⟨s.cwd, (Stayed.refl s).dropped⟩
    | true =>
      apply wp_openDir
      · intro e
        exact ⟨s.cwd, (Stayed.refl s).dropped⟩
      · rintro d -
        have hstay := stayed_openFile s d
        apply wp_next (Function.update_self _ _ _)
        · intro y
          exact ⟨s.cwd, hstay.dropped⟩
        · have hfound : Stayed s { s.openFile d with foundEmpty := d :: (s.openFile d).foundEmpty } :=
            ⟨hstay.root, hstay.cwd, hstay.files, hstay.nextFile⟩
          exact (chrootInto_spec display dir _).imp fun r s' h => ⟨d, h.of_stayed hfound⟩

/-- However the calls fail and whatever the other party does: after an error the root is what it
was, and so is the working directory unless the error says that stepping back failed too; after a
success the process is in its root, and that is the directory that the second check found empty. -/
theorem drop_filesystem_fails_closed (dir : π) {s s' : Process δ} {r : Outcome Error Unit}
    (h : Ends (system π δ) anything (dropFilesystem display dir) s r s') :
    (r = .ok () ∧ s'.cwd = s'.root ∧ ∃ first, s'.foundEmpty = s'.root :: first :: s.foundEmpty) ∨
      ∃ e, r = .err e ∧ s'.root = s.root ∧ (s'.cwd = s.cwd ∨ ∃ (why : String) (io : IoError),
        e = .hardening (.text (why ++ "; stepping back failed too: " ++ io.message))) := by
  obtain ⟨first, hr⟩ := (dropFilesystem_spec display dir s).ends h
  cases hr with
  | jailed found inside => exact .inl ⟨rfl, inside, first, found⟩
  | back root cwd => exact .inr ⟨_, rfl, root, .inl cwd⟩
  | astray root => exact .inr ⟨_, rfl, root, .inr ⟨_, _, rfl⟩⟩

/-- The path leads elsewhere after the first check: the root is the directory checked last. -/
theorem drop_filesystem_fails_closed_sample :
    ∃ s' : Process Nat, Ends (system Unit Nat) anything (dropFilesystem (fun _ => "/var/empty") ())
      ⟨0, 1, fun _ => none, 0, []⟩ (.ok ()) s' ∧ s'.root = 3 ∧ s'.cwd = 3 ∧
        ∃ first, s'.foundEmpty = [3, first] := by
  let w (d : Nat) : World Unit Nat := ⟨fun _ _ _ => some (.dir d), fun _ => true⟩
  obtain ⟨s', hrun, hroot⟩ : ∃ s' : Process Nat, Ends (system Unit Nat) anything
      (dropFilesystem (fun _ => "/var/empty") ()) ⟨0, 1, fun _ => none, 0, []⟩ (.ok ()) s' ∧
        s'.root = 3 :=
    ⟨_, .step (w 2, none) trivial <| .step (w 2, none) trivial <| .step (w 2, none) trivial <|
      .step (w 3, none) trivial <| .step (w 3, none) trivial <| .step (w 3, none) trivial <|
      .step (w 4, none) trivial <| .step (w 4, none) trivial <| .step (w 4, none) trivial <|
      Steps.refl _, rfl⟩
  rcases drop_filesystem_fails_closed _ _ hrun with ⟨-, hcwd, first, hfound⟩ | ⟨e, he, -⟩
  · exact ⟨s', hrun, hroot, hcwd.trans hroot, first, hroot ▸ hfound⟩
  · cases he

end Krypto.Harden
