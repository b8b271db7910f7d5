import Mathlib.Data.List.Basic
import Mathlib.Logic.Function.Basic

/-! A tree of directories with symbolic links, and the walk along a path: which
file it leads to. Names are of any type. -/

namespace Krypto.Effect

/-- One step of a path. The step after a last slash, or between two, is `slash`. -/
inductive Hop (ν : Type) where
  | here
  | slash
  | up
  | name (n : ν)
  deriving DecidableEq

def Hop.isSlash {ν : Type} : Hop ν → Bool
  | slash => true
  | _ => false

structure Route (ν : Type) where
  absolute : Bool
  hops : List (Hop ν)
  deriving DecidableEq

inductive Node (ν : Type) where
  | file
  | dir (entries : ν → Option Nat) (parent : Nat)
  | link (target : Route ν)

namespace Node
variable {ν : Type}

def Below (bound : Nat) : Node ν → Prop
  | file => True
  | dir entries parent => parent < bound ∧ ∀ n i, entries n = some i → i < bound
  | link _ => True

def setEntry [DecidableEq ν] (n : ν) (o : Option Nat) : Node ν → Node ν
  | file => file
  | dir entries parent => dir (Function.update entries n o) parent
  | link target => link target

theorem Below.mono {a b : Nat} {x : Node ν} (h : x.Below a) (hab : a ≤ b) : x.Below b := by
  cases x with
  | file => trivial
  | dir entries parent =>
    exact ⟨Nat.lt_of_lt_of_le h.1 hab, fun n i hi => Nat.lt_of_lt_of_le (h.2 n i hi) hab⟩
  | link target => trivial

theorem Below.setEntry [DecidableEq ν] {bound : Nat} {x : Node ν} (h : x.Below bound) (n : ν)
    {o : Option Nat} (ho : ∀ i, o = some i → i < bound) : (x.setEntry n o).Below bound := by
  cases x with
  | file => trivial
  | dir entries parent =>
    refine ⟨h.1, fun m i hi => ?_⟩
    by_cases hm : m = n
    · subst hm
      exact ho i (by simpa using hi)
    · exact h.2 m i (by simpa [Function.update_of_ne hm] using hi)
  | link target => trivial

end Node

structure Tree (ν : Type) where
  node : Nat → Node ν
  root : Nat
  /-- How many links one walk may follow. -/
  maxLinks : Nat
  /-- No inode from here on is in use. -/
  fresh : Nat
  root_lt : root < fresh
  below : ∀ d, (node d).Below fresh
  unused : ∀ i, fresh ≤ i → node i = .file

inductive Next (ν : Type) where
  | goes (i : Nat)
  | through (start : Nat) (target : List (Hop ν))
  | nothing (n : ν)
  | notDirectory

inductive Place (ν : Type) where
  | found (i : Nat)
  /-- The last name of the path is none that the directory `d` has. -/
  | missing (d : Nat) (n : ν)
  /-- It is none either, and slashes follow. -/
  | slashed
  | absent
  | notDirectory
  | tooManyLinks
  deriving DecidableEq

def Place.ofRest {ν : Type} (d : Nat) (n : ν) (rest : List (Hop ν)) : Place ν :=
  if rest.isEmpty then .missing d n else if rest.all Hop.isSlash then .slashed else .absent

theorem Place.ofRest_ne_found {ν : Type} {d : Nat} {n : ν} {rest : List (Hop ν)} (i : Nat) :
    Place.ofRest d n rest ≠ .found i := by
  intro h
  unfold ofRest at h
  split at h
  · cases h
  · split at h <;> cases h

theorem Place.ofRest_eq_missing {ν : Type} {d e : Nat} {n m : ν} {rest : List (Hop ν)}
    (h : Place.ofRest d n rest = .missing e m) : rest = [] ∧ d = e ∧ n = m := by
  unfold ofRest at h
  split at h
  next hrest =>
    cases h
    exact ⟨List.isEmpty_iff.mp hrest, rfl, rfl⟩
  · split at h <;> cases h

namespace Tree
variable {ν : Type} (t : Tree ν)

def start (cur : Nat) (r : Route ν) : Nat := if r.absolute then t.root else cur

def arrive (cur i : Nat) : Next ν :=
  match t.node i with
  | .link target => .through (t.start cur target) target.hops
  | _ => .goes i

def next (cur : Nat) (hop : Hop ν) : Next ν :=
  match t.node cur with
  | .dir entries parent =>
    match hop with
    | .here | .slash => .goes cur
    | .up => .goes parent
    | .name n =>
      match entries n with
      | none => .nothing n
      | some i => t.arrive cur i
  | _ => .notDirectory

/-- The walk up to the next link, which is left to `follow`. -/
def walkWith (follow : Nat → List (Hop ν) → Place ν) : Nat → List (Hop ν) → Place ν
  | cur, [] => .found cur
  | cur, hop :: rest =>
    match t.next cur hop with
    | .goes i => walkWith follow i rest
    | .through start target => follow start (target ++ rest)
    | .nothing n => .ofRest cur n rest
    | .notDirectory => .notDirectory

def walk : Nat → Nat → List (Hop ν) → Place ν
  | 0 => t.walkWith fun _ _ => .tooManyLinks
  | links + 1 => t.walkWith (walk links)

def resolve (cwd : Nat) (r : Route ν) : Place ν := t.walk t.maxLinks (t.start cwd r) r.hops

def isDir (i : Nat) : Bool :=
  match t.node i with
  | .dir _ _ => true
  | _ => false

def entry (d : Nat) (n : ν) : Option Nat :=
  match t.node d with
  | .dir entries _ => entries n
  | _ => none

def directory (cwd : Nat) (r : Route ν) : Option Nat :=
  match t.resolve cwd r with
  | .found d => if t.isDir d then some d else none
  | _ => none

/-- The entry a path names: a link there is not followed. -/
def holder (cwd : Nat) (r : Route ν) : Option (Nat × ν) :=
  match r.hops.getLast? with
  | some (.name n) => (t.directory cwd { r with hops := r.hops.dropLast }).map fun d => (d, n)
  | _ => none

section Walks
variable {t} {k cur : Nat} {hops : List (Hop ν)}

@[simp] theorem walk_nil (k cur : Nat) : t.walk k cur [] = .found cur := by
  cases k <;> rfl

theorem walk_goes {hop : Hop ν} {i : Nat} (h : t.next cur hop = .goes i) (k : Nat) (rest : List (Hop ν)) :
    t.walk k cur (hop :: rest) = t.walk k i rest := by
  cases k <;> rw [walk, walkWith, h]

theorem walk_through {hop : Hop ν} {c : Nat} {target : List (Hop ν)}
    (h : t.next cur hop = .through c target) (k : Nat) (rest : List (Hop ν)) :
    t.walk (k + 1) cur (hop :: rest) = t.walk k c (target ++ rest) := by
  rw [walk, walkWith, h]

theorem walk_through_zero {hop : Hop ν} {c : Nat} {target : List (Hop ν)}
    (h : t.next cur hop = .through c target) (rest : List (Hop ν)) :
    t.walk 0 cur (hop :: rest) = .tooManyLinks := by
  rw [walk, walkWith, h]

theorem walk_nothing {hop : Hop ν} {n : ν} (h : t.next cur hop = .nothing n) (k : Nat)
    (rest : List (Hop ν)) :
    t.walk k cur (hop :: rest) = .ofRest cur n rest := by
  cases k <;> rw [walk, walkWith, h]

theorem walk_notDirectory {hop : Hop ν} (h : t.next cur hop = .notDirectory) (k : Nat)
    (rest : List (Hop ν)) : t.walk k cur (hop :: rest) = .notDirectory := by
  cases k <;> rw [walk, walkWith, h]

/-- The walks that lead to an inode, hop by hop, and through at most so many links. -/
inductive Leads (t : Tree ν) : Nat → Nat → List (Hop ν) → Nat → Prop where
  | nil (links i : Nat) : Leads t links i [] i
  | goes {links i c j hop more} (h : t.next i hop = .goes c) (rest : Leads t links c more j) :
      Leads t links i (hop :: more) j
  | through {links i c j hop target more} (h : t.next i hop = .through c target)
      (rest : Leads t links c (target ++ more) j) : Leads t (links + 1) i (hop :: more) j

theorem walk_cons_found {hop : Hop ν} {rest : List (Hop ν)} {j : Nat}
    (h : t.walk k cur (hop :: rest) = .found j) :
    (∃ i, t.next cur hop = .goes i ∧ t.walk k i rest = .found j) ∨
      ∃ c target links, t.next cur hop = .through c target ∧ k = links + 1 ∧
        t.walk links c (target ++ rest) = .found j := by
  cases hnext : t.next cur hop with
  | goes i => exact .inl ⟨i, rfl, (walk_goes hnext k rest).symm.trans h⟩
  | through c target =>
    cases k with
    | zero => cases (walk_through_zero hnext rest).symm.trans h
    | succ links => exact .inr ⟨c, target, links, rfl, rfl, (walk_through hnext links rest).symm.trans h⟩
  | nothing n =>
    exact absurd ((walk_nothing hnext k rest).symm.trans h) (Place.ofRest_ne_found j)
  | notDirectory => cases (walk_notDirectory hnext k rest).symm.trans h

theorem leads_of_walk {k cur : Nat} {hops : List (Hop ν)} {j : Nat}
    (h : t.walk k cur hops = .found j) : t.Leads k cur hops j := by
  match hops with
  | [] =>
    cases (walk_nil k cur).symm.trans h
    exact .nil k cur
  | hop :: rest =>
    obtain ⟨i, hnext, hrest⟩ | ⟨c, target, links, hnext, rfl, hrest⟩ := walk_cons_found h
    · exact .goes hnext (leads_of_walk hrest)
    · exact .through hnext (leads_of_walk hrest)
termination_by (k, hops.length)

theorem leads_iff {j : Nat} : t.walk k cur hops = .found j ↔ t.Leads k cur hops j := by
  refine ⟨leads_of_walk, fun h => ?_⟩
  induction h with
  | nil links i => exact walk_nil links i
  | goes h _ ih => rw [walk_goes h, ih]
  | through h _ ih => rw [walk_through h, ih]

/-- A walk that goes on after `hops` goes where they lead, however many links they took. -/
theorem walk_append_found {links : Nat} {more : List (Hop ν)} {j : Nat}
    (h : t.walk k cur (hops ++ more) = .found j) (hlinks : t.walk links cur hops ≠ .tooManyLinks) :
    ∃ i m, t.walk links cur hops = .found i ∧ t.walk m i more = .found j := by
  generalize hall : hops ++ more = all at h
  have hleads := leads_of_walk h
  induction hleads generalizing hops links with
  | nil k cur =>
    obtain ⟨rfl, rfl⟩ := List.append_eq_nil_iff.mp hall
    exact ⟨cur, 0, walk_nil _ _, walk_nil _ _⟩
  | @goes k cur c j hop rest hnext hrest ih =>
    cases hops with
    | nil => exact ⟨cur, k, walk_nil _ _, by rw [← hall] at h; exact h⟩
    | cons hop' rest' =>
      obtain ⟨rfl, rfl⟩ := List.cons.inj hall
      rw [walk_goes hnext] at hlinks ⊢
      exact ih hlinks rfl (leads_iff.mpr hrest)
  | @through k cur c j hop target rest hnext hrest ih =>
    cases hops with
    | nil => exact ⟨cur, k + 1, walk_nil _ _, by rw [← hall] at h; exact h⟩
    | cons hop' rest' =>
      obtain ⟨rfl, rfl⟩ := List.cons.inj hall
      cases links with
      | zero => exact absurd (walk_through_zero hnext rest') hlinks
      | succ links =>
        rw [walk_through hnext] at hlinks ⊢
        exact ih hlinks (List.append_assoc _ _ _) (leads_iff.mpr hrest)

theorem walk_append {j : Nat} (h : t.walk k cur hops = .found j) :
    ∃ links ≤ k, ∀ more, t.walk k cur (hops ++ more) = t.walk links j more := by
  have hleads := leads_of_walk h
  clear h
  induction hleads with
  | nil links i => exact ⟨links, Nat.le_refl _, fun more => rfl⟩
  | goes h _ ih =>
    obtain ⟨links, hle, hmore⟩ := ih
    exact ⟨links, hle, fun more => by rw [List.cons_append, walk_goes h, hmore]⟩
  | through h _ ih =>
    obtain ⟨links, hle, hmore⟩ := ih
    refine ⟨links, Nat.le_succ_of_le hle, fun more => ?_⟩
    rw [List.cons_append, walk_through h, ← List.append_assoc, hmore]

theorem walk_of_file {i j : Nat} {more : List (Hop ν)} (hi : t.isDir i = false)
    (h : t.walk k i more = .found j) : j = i := by
  cases more with
  | nil =>
    cases (walk_nil k i).symm.trans h
    rfl
  | cons hop rest =>
    have hnext : t.next i hop = .notDirectory := by
      unfold isDir at hi
      unfold next
      cases hnode : t.node i with
      | file => rfl
      | dir entries parent => rw [hnode] at hi; cases hi
      | link target => rfl
    cases (walk_notDirectory hnext k rest).symm.trans h

theorem start_lt {c : Nat} (hc : c < t.fresh) (r : Route ν) : t.start c r < t.fresh := by
  unfold start
  split
  · exact t.root_lt
  · exact hc

theorem arrive_lt {c i : Nat} (hc : c < t.fresh) (hi : i < t.fresh) :
    (∀ j, t.arrive c i = .goes j → j < t.fresh) ∧
      ∀ j target, t.arrive c i = .through j target → j < t.fresh := by
  unfold arrive
  split
  · refine ⟨fun j h => (nomatch h), fun j target h => ?_⟩
    cases h
    exact start_lt hc _
  · refine ⟨fun j h => ?_, fun j target h => (nomatch h)⟩
    cases h
    exact hi

theorem next_lt {hop : Hop ν} {c : Nat} (hc : c < t.fresh) :
    (∀ i, t.next c hop = .goes i → i < t.fresh) ∧
      ∀ i target, t.next c hop = .through i target → i < t.fresh := by
  have hbelow := t.below c
  unfold next
  split
  next entries parent hnode =>
    rw [hnode] at hbelow
    split
    · exact ⟨fun i h => by cases h; exact hc, fun i target h => (nomatch h)⟩
    · exact ⟨fun i h => by cases h; exact hc, fun i target h => (nomatch h)⟩
    · exact ⟨fun i h => by cases h; exact hbelow.1, fun i target h => (nomatch h)⟩
    · split
      · exact ⟨fun i h => (nomatch h), fun i target h => (nomatch h)⟩
      next j hentry => exact arrive_lt hc (hbelow.2 _ _ hentry)
  · exact ⟨fun i h => (nomatch h), fun i target h => (nomatch h)⟩

theorem walk_lt {j : Nat} (hcur : cur < t.fresh) (h : t.walk k cur hops = .found j) :
    j < t.fresh := by
  have hleads := leads_of_walk h
  clear h
  induction hleads with
  | nil => exact hcur
  | goes hnext _ ih => exact ih ((next_lt hcur).1 _ hnext)
  | through hnext _ ih => exact ih ((next_lt hcur).2 _ _ hnext)

theorem resolve_lt {cwd i : Nat} {r : Route ν} (hcwd : cwd < t.fresh)
    (h : t.resolve cwd r = .found i) : i < t.fresh := walk_lt (start_lt hcwd r) h

/-- A walk is the same in another tree where no hop differs that leads there. -/
theorem walk_transfer {t' : Tree ν} {j : Nat} (h : t.walk k cur hops = .found j)
    (hnext : ∀ c hop, t'.next c hop = t.next c hop ∨
      ∀ links rest, t.walk links c (hop :: rest) ≠ .found j) :
    t'.walk k cur hops = .found j := by
  have hleads := leads_of_walk h
  clear h
  induction hleads with
  | nil links i => exact walk_nil links i
  | @goes links i c j hop more h hrest ih =>
    rcases hnext i hop with heq | hnot
    · rw [walk_goes (heq.trans h), ih hnext]
    · exact absurd (leads_iff.mpr (.goes h hrest)) (hnot _ _)
  | @through links i c j hop target more h hrest ih =>
    rcases hnext i hop with heq | hnot
    · rw [walk_through (heq.trans h), ih hnext]
    · exact absurd (leads_iff.mpr (.through h hrest)) (hnot _ _)

theorem hop_of_nothing {hop : Hop ν} {n : ν} (h : t.next cur hop = .nothing n) : hop = .name n := by
  unfold next at h
  split at h
  · split at h
    · cases h
    · cases h
    · cases h
    · split at h
      · cases h
        rfl
      · unfold arrive at h
        split at h <;> cases h
  · cases h

theorem next_name {d : Nat} (n : ν) (hd : t.isDir d) :
    t.next d (.name n) = match t.entry d n with
      | none => .nothing n
      | some i => t.arrive d i := by
  unfold isDir at hd
  unfold next entry
  cases hnode : t.node d with
  | dir entries parent => rfl
  | file => rw [hnode] at hd; cases hd
  | link target => rw [hnode] at hd; cases hd

theorem next_of_missing {k cur : Nat} {hops : List (Hop ν)} {d : Nat} {n : ν}
    (h : t.walk k cur hops = .missing d n) : t.next d (.name n) = .nothing n := by
  match hops with
  | [] => cases (walk_nil k cur).symm.trans h
  | hop :: rest =>
    cases hnext : t.next cur hop with
    | goes i => exact next_of_missing ((walk_goes hnext k rest).symm.trans h)
    | through c target =>
      match k with
      | 0 => cases (walk_through_zero hnext rest).symm.trans h
      | links + 1 => exact next_of_missing ((walk_through hnext links rest).symm.trans h)
    | nothing m =>
      obtain ⟨-, rfl, rfl⟩ := Place.ofRest_eq_missing ((walk_nothing hnext k rest).symm.trans h)
      exact (hop_of_nothing hnext) ▸ hnext
    | notDirectory => cases (walk_notDirectory hnext k rest).symm.trans h
termination_by (k, hops.length)

theorem isDir_of_nothing {d : Nat} {n : ν} (h : t.next d (.name n) = .nothing n) :
    t.isDir d ∧ t.entry d n = none := by
  unfold next at h
  unfold isDir entry
  split at h
  next entries parent hnode =>
    dsimp only at h ⊢
    split at h
    next hentry => exact ⟨rfl, hentry⟩
    · unfold arrive at h
      split at h <;> cases h
  · cases h

theorem isDir_of_directory {cwd d : Nat} {r : Route ν} (h : t.directory cwd r = some d) :
    t.isDir d ∧ t.resolve cwd r = .found d := by
  unfold directory at h
  split at h
  next i hi =>
    split at h
    next hdir =>
      cases h
      exact ⟨hdir, hi⟩
    · cases h
  · cases h

theorem holder_eq_some {cwd d : Nat} {n : ν} {r : Route ν} (h : t.holder cwd r = some (d, n)) :
    t.isDir d ∧ ∃ before, r.hops = before ++ [.name n] ∧
      t.resolve cwd { r with hops := before } = .found d := by
  unfold holder at h
  split at h
  next m hlast =>
    obtain ⟨c, hc, heq⟩ := Option.map_eq_some_iff.mp h
    cases heq
    obtain ⟨hdir, hfound⟩ := isDir_of_directory hc
    exact ⟨hdir, r.hops.dropLast, (List.dropLast_append_getLast? _ hlast).symm, hfound⟩
  · cases h

theorem resolve_of_holder {cwd d : Nat} {n : ν} {r : Route ν} (h : t.holder cwd r = some (d, n)) :
    ∃ links, t.resolve cwd r = t.walk links d [.name n] := by
  obtain ⟨-, before, hhops, hfound⟩ := holder_eq_some h
  obtain ⟨links, -, hmore⟩ := walk_append hfound
  refine ⟨links, ?_⟩
  rw [resolve, hhops]
  exact hmore [.name n]

theorem holder_of {cwd d : Nat} {n : ν} {r : Route ν} {before : List (Hop ν)} (hdir : t.isDir d)
    (hhops : r.hops = before ++ [.name n])
    (hfound : t.resolve cwd { r with hops := before } = .found d) : t.holder cwd r = some (d, n) := by
  have hdirectory : t.directory cwd { r with hops := before } = some d := by
    rw [directory, hfound]
    exact if_pos hdir
  rw [holder, hhops, List.getLast?_concat, List.dropLast_concat, hdirectory]
  rfl

theorem walk_ne_found_of_holder {cwd d : Nat} {n : ν} {r : Route ν} (h : t.holder cwd r = some (d, n))
    (hlinks : t.resolve cwd r ≠ .tooManyLinks) (hnone : ∀ i, t.resolve cwd r ≠ .found i)
    (k j : Nat) (rest : List (Hop ν)) : t.walk k d (.name n :: rest) ≠ .found j := by
  intro hfound
  obtain ⟨links, hwalk⟩ := resolve_of_holder h
  rw [hwalk] at hlinks hnone
  have hsplit : t.walk k d ([.name n] ++ rest) = .found j := hfound
  obtain ⟨i, -, hi, -⟩ := walk_append_found hsplit hlinks
  exact hnone i hi

theorem arrive_fresh (c : Nat) : t.arrive c t.fresh = .goes t.fresh := by
  unfold arrive
  rw [t.unused t.fresh (Nat.le_refl _)]

end Walks

/-! ## Changes of a directory -/

def allocate : Tree ν :=
  { t with
    fresh := t.fresh + 1
    root_lt := Nat.lt_succ_of_lt t.root_lt
    below := fun d => (t.below d).mono (Nat.le_succ _)
    unused := fun i hi => t.unused i (Nat.le_of_succ_le hi) }

theorem fresh_lt_allocate : ∀ i, some t.fresh = some i → i < t.allocate.fresh := by
  rintro i ⟨⟩
  exact Nat.lt_succ_self _

section Changes
variable [DecidableEq ν] {d : Nat} {n : ν}

def setEntry (d : Nat) (n : ν) (o : Option Nat) (ho : ∀ i, o = some i → i < t.fresh) : Tree ν :=
  { t with
    node := Function.update t.node d ((t.node d).setEntry n o)
    below := by
      intro c
      by_cases hc : c = d
      · subst hc
        rw [Function.update_self]
        exact (t.below c).setEntry n ho
      · rw [Function.update_of_ne hc]
        exact t.below c
    unused := by
      intro i hi
      have hfile := t.unused i hi
      by_cases hd : i = d
      · subst hd
        rw [Function.update_self, hfile]
        rfl
      · rw [Function.update_of_ne hd]
        exact hfile }

def create (d : Nat) (n : ν) : Tree ν := t.allocate.setEntry d n (some t.fresh) t.fresh_lt_allocate

variable {t}

theorem setEntry_isDir (o : Option Nat) (ho : ∀ i, o = some i → i < t.fresh) (i : Nat) :
    (t.setEntry d n o ho).isDir i = t.isDir i := by
  unfold isDir setEntry
  dsimp only
  by_cases hi : i = d
  · subst hi
    rw [Function.update_self]
    cases t.node i <;> rfl
  · rw [Function.update_of_ne hi]

theorem setEntry_arrive (o : Option Nat) (ho : ∀ i, o = some i → i < t.fresh) (c i : Nat) :
    (t.setEntry d n o ho).arrive c i = t.arrive c i := by
  unfold arrive setEntry start
  dsimp only
  by_cases hi : i = d
  · subst hi
    rw [Function.update_self]
    cases t.node i <;> rfl
  · rw [Function.update_of_ne hi]

theorem setEntry_entry (hd : t.isDir d) (o : Option Nat) (ho : ∀ i, o = some i → i < t.fresh) :
    (t.setEntry d n o ho).entry d n = o := by
  unfold isDir at hd
  unfold entry setEntry
  dsimp only
  rw [Function.update_self]
  cases hnode : t.node d with
  | file => rw [hnode] at hd; cases hd
  | dir entries parent => exact Function.update_self _ _ _
  | link target => rw [hnode] at hd; cases hd

theorem setEntry_next (o : Option Nat) (ho : ∀ i, o = some i → i < t.fresh) {c : Nat} {hop : Hop ν}
    (h : ¬(c = d ∧ hop = .name n)) : (t.setEntry d n o ho).next c hop = t.next c hop := by
  have harrive := setEntry_arrive (t := t) (d := d) (n := n) o ho
  unfold next
  by_cases hc : c = d
  · subst hc
    cases hnode : t.node c with
    | file => simp [setEntry, hnode, Node.setEntry]
    | link target => simp [setEntry, hnode, Node.setEntry]
    | dir entries parent =>
      have hnode' : (t.setEntry c n o ho).node c = .dir (Function.update entries n o) parent := by
        simp [setEntry, hnode, Node.setEntry]
      rw [hnode']
      cases hop with
      | here => rfl
      | slash => rfl
      | up => rfl
      | name m =>
        have hm : m ≠ n := fun hm => h ⟨rfl, congrArg Hop.name hm⟩
        simp only [Function.update_of_ne hm, harrive]
  · have hnode' : (t.setEntry d n o ho).node c = t.node c := Function.update_of_ne hc _ _
    simp only [hnode', harrive]

theorem create_next {c : Nat} {hop : Hop ν} (h : ¬(c = d ∧ hop = .name n)) :
    (t.create d n).next c hop = t.next c hop := setEntry_next (t := t.allocate) _ _ h

theorem create_next_name (h : t.next d (.name n) = .nothing n) :
    (t.create d n).next d (.name n) = .goes t.fresh := by
  obtain ⟨hdir, -⟩ := isDir_of_nothing h
  have hdir' : (t.create d n).isDir d := (setEntry_isDir (t := t.allocate) _ _ d).trans hdir
  have hentry : (t.create d n).entry d n = some t.fresh :=
    setEntry_entry (t := t.allocate) hdir _ _
  rw [next_name n hdir', hentry]
  exact (setEntry_arrive (t := t.allocate) _ _ d t.fresh).trans (arrive_fresh d)

/-- What a path led to it leads to still, -/
theorem create_walk {k cur j : Nat} {hops : List (Hop ν)} (hfree : t.next d (.name n) = .nothing n)
    (h : t.walk k cur hops = .found j) : (t.create d n).walk k cur hops = .found j := by
  refine walk_transfer h fun c hop => ?_
  by_cases hc : c = d ∧ hop = .name n
  · obtain ⟨rfl, rfl⟩ := hc
    refine .inr fun links rest hfound => ?_
    exact Place.ofRest_ne_found j ((walk_nothing hfree links rest).symm.trans hfound)
  · exact .inl (create_next hc)

/-- and a path to the missing name leads to the new file. -/
theorem create_missing {k cur : Nat} {hops : List (Hop ν)} (h : t.walk k cur hops = .missing d n) :
    (t.create d n).walk k cur hops = .found t.fresh := by
  have hfree := next_of_missing h
  match hops with
  | [] => cases (walk_nil k cur).symm.trans h
  | hop :: rest =>
    by_cases hhere : cur = d ∧ hop = .name n
    · obtain ⟨rfl, rfl⟩ := hhere
      obtain ⟨rfl, -⟩ := Place.ofRest_eq_missing ((walk_nothing hfree k rest).symm.trans h)
      rw [walk_goes (create_next_name hfree), walk_nil]
    · have hsame := create_next (t := t) (d := d) (n := n) hhere
      cases hnext : t.next cur hop with
      | goes i =>
        rw [walk_goes (hsame.trans hnext)]
        exact create_missing ((walk_goes hnext k rest).symm.trans h)
      | through c target =>
        match k with
        | 0 => cases (walk_through_zero hnext rest).symm.trans h
        | links + 1 =>
          rw [walk_through (hsame.trans hnext)]
          exact create_missing ((walk_through hnext links rest).symm.trans h)
      | nothing m =>
        obtain ⟨-, rfl, rfl⟩ := Place.ofRest_eq_missing ((walk_nothing hnext k rest).symm.trans h)
        exact absurd ⟨rfl, hop_of_nothing hnext⟩ hhere
      | notDirectory => cases (walk_notDirectory hnext k rest).symm.trans h
termination_by (k, hops.length)

/-- What a path leads to in the tree with the new file, but for that file, it led to before. -/
theorem create_walk_back {k cur j : Nat} {hops : List (Hop ν)} (hfree : t.next d (.name n) = .nothing n)
    (hj : j ≠ t.fresh) (h : (t.create d n).walk k cur hops = .found j) :
    t.walk k cur hops = .found j := by
  refine walk_transfer h fun c hop => ?_
  by_cases hc : c = d ∧ hop = .name n
  · obtain ⟨rfl, rfl⟩ := hc
    refine .inr fun links rest hfound => ?_
    rw [walk_goes (create_next_name hfree)] at hfound
    have hfile : (t.create c n).isDir t.fresh = false := by
      rw [create, setEntry_isDir]
      unfold isDir
      rw [show t.allocate.node t.fresh = .file from t.unused t.fresh (Nat.le_refl _)]
    exact hj (walk_of_file hfile hfound)
  · exact .inl (create_next hc).symm

theorem create_isDir (i : Nat) : (t.create d n).isDir i = t.isDir i :=
  setEntry_isDir (t := t.allocate) _ _ i

theorem create_holder_back {cwd c : Nat} {m : ν} {r : Route ν} (hfree : t.next d (.name n) = .nothing n)
    (h : (t.create d n).holder cwd r = some (c, m)) : t.holder cwd r = some (c, m) := by
  obtain ⟨hdir, before, hhops, hfound⟩ := holder_eq_some h
  rw [create_isDir] at hdir
  have hc : c ≠ t.fresh := by
    rintro rfl
    unfold isDir at hdir
    rw [t.unused t.fresh (Nat.le_refl _)] at hdir
    cases hdir
  exact holder_of hdir hhops (create_walk_back hfree hc hfound)

/-- A new file is made under one name and moved to another: what a path led to it leads to still,
where it did not pass the entry that is replaced. -/
theorem replace_walk {k cur j c : Nat} {m : ν} {hops : List (Hop ν)} {o : Option Nat}
    {t' : Tree ν} (ht : t' = t.create d n) (hn : ∀ i, none = some i → i < t'.fresh)
    (ho : ∀ i, o = some i → i < (t'.setEntry d n none hn).fresh) (hfree : t.next d (.name n) = .nothing n)
    (hapart : ∀ links rest, t.walk links c (.name m :: rest) ≠ .found j)
    (h : t.walk k cur hops = .found j) :
    ((t'.setEntry d n none hn).setEntry c m o ho).walk k cur hops = .found j := by
  subst ht
  refine walk_transfer h fun b hop => ?_
  by_cases hnew : b = c ∧ hop = .name m
  · obtain ⟨rfl, rfl⟩ := hnew
    exact .inr hapart
  by_cases hold : b = d ∧ hop = .name n
  · obtain ⟨rfl, rfl⟩ := hold
    refine .inr fun links rest hfound => ?_
    exact Place.ofRest_ne_found j ((walk_nothing hfree links rest).symm.trans hfound)
  · rw [setEntry_next o ho hnew, setEntry_next none hn hold, create_next hold]
    exact .inl rfl

theorem replace_resolve {cwd j c : Nat} {m : ν} {r : Route ν} {o : Option Nat}
    {t' : Tree ν} (ht : t' = t.create d n) (hn : ∀ i, none = some i → i < t'.fresh)
    (ho : ∀ i, o = some i → i < (t'.setEntry d n none hn).fresh) (hfree : t.next d (.name n) = .nothing n)
    (hapart : ∀ links rest, t.walk links c (.name m :: rest) ≠ .found j)
    (h : t.resolve cwd r = .found j) :
    ((t'.setEntry d n none hn).setEntry c m o ho).resolve cwd r = .found j := by
  have hwalk := replace_walk ht hn ho hfree hapart h
  subst ht
  exact hwalk

end Changes
end Tree
end Krypto.Effect
