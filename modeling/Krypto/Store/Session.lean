import Krypto.Effect.Service
import Krypto.Store.Operations
import Krypto.Store.Size

/-! A party that works on one store: the requests it makes of its handle, if it
has one, and what it is answered. -/

namespace Krypto.Store
open Effect

inductive Request where
  /-- Drop the handle, and open the store again. -/
  | reopen
  | close
  /-- Open with another master key from now on. -/
  | use (master : MasterKey)
  | put (name : Str) (secret : SecretBuf)
  | get (name : Str)
  | delete (name : Str)
  | contains (name : Str)
  | list (start : Str)
  | rotate (newMaster : MasterKey)
  deriving DecidableEq

inductive Answer where
  /-- There was no handle to ask. -/
  | noHandle
  | done (r : Except Error Unit)
  | secret (r : Except Error SecretBuf)
  | found (b : Bool)
  | names (l : List Str)
  deriving DecidableEq

structure Session where
  master : MasterKey
  handle : Option SecretStore

def Session.start (master : MasterKey) : Session := ⟨master, none⟩

def Session.drop (s : Session) : Action Bytes Unit :=
  match s.handle with
  | none => pure ()
  | some st => dropLock st.lock

def Session.ask (s : Session) (f : SecretStore → Action Bytes (Answer × Session)) :
    Action Bytes (Answer × Session) :=
  match s.handle with
  | none => pure (.noHandle, s)
  | some st => f st

def serve (P : Primitives) (path : Bytes) : Server (Call.Reply (ν := Bytes)) Error Request Answer Session
  | .reopen, s => do
    s.drop
    match ← (SecretStore.openStore path s.master).attempt with
    | .ok st => pure (.done (.ok ()), { s with handle := some st })
    | .error e => pure (.done (.error e), { s with handle := none })
  | .close, s => do
    s.drop
    pure (.done (.ok ()), { s with handle := none })
  | .use master, s => pure (.done (.ok ()), { s with master })
  | .put name secret, s => s.ask fun st => do
    let (r, st) ← st.put P name secret
    pure (.done r, { s with handle := some st })
  | .get name, s => s.ask fun st => do
    let r ← (st.get P name).attempt
    pure (.secret r, s)
  | .delete name, s => s.ask fun st => do
    let (r, st) ← st.delete name
    pure (.done r, { s with handle := some st })
  | .contains name, s => s.ask fun st => pure (.found (st.contains name), s)
  | .list start, s => s.ask fun st => pure (.names (st.list start), s)
  | .rotate newMaster, s => s.ask fun st => do
    match ← (st.rotate P newMaster).attempt with
    | .ok st => pure (.done (.ok ()), ⟨newMaster, some st⟩)
    | .error e => pure (.done (.error e), { s with handle := none })

def Request.NeedsHandle : Request → Prop
  | .reopen | .close | .use _ => False
  | _ => True

def toExcept {α : Type} : Outcome Error α → Except Error α
  | .ok a => .ok a
  | .err e => .error e
  | .panic => .error .auth

section Specs
variable {ι : Type} [DecidableEq ι] {me : ι} {E : (kernel Bytes me).Env} (P : Primitives)
  {path : Bytes}

inductive Served (E : (kernel Bytes me).Env) (path : Bytes) :
    Request → Session → Log × Process Bytes ι → Answer → Session → Log × Process Bytes ι → Prop where
  | noHandle {q s t} (hq : q.NeedsHandle) (hs : s.handle = none) : Served E path q s t .noHandle s t
  | opened {s t st t'} (h : Opened E path s.master t (.ok st) t') :
      Served E path .reopen s t (.done (.ok ())) { s with handle := some st } t'
  | openFailed {s t e t'} (h : Opened E path s.master t (.err e) t') :
      Served E path .reopen s t (.done (.error e)) { s with handle := none } t'
  | closed {s t t'} (h : Untouched path t t') :
      Served E path .close s t (.done (.ok ())) { s with handle := none } t'
  | used {s t master} : Served E path (.use master) s t (.done (.ok ())) { s with master } t
  | put {s t st name secret r st' t'} (hs : s.handle = some st)
      (h : Changed E st (PutAttempt P st name secret) (fun e => validateName name = .err e) t
        (.ok (r, st')) t') :
      Served E path (.put name secret) s t (.done r) { s with handle := some st' } t'
  | got {s t st name r l'} (hs : s.handle = some st)
      (h : r = st.read P name ∨ SecretStore.Refused (Unlocked ((kernel Bytes me).Answers E)) r)
      (ht : Untouched path t (l', t.2)) :
      Served E path (.get name) s t (.secret (toExcept r)) s (l', t.2)
  | deleted {s t st name r st' t'} (hs : s.handle = some st)
      (h : Changed E st (fun c => c = erased st.toContents name) (fun _ => False) t
        (.ok (r, st')) t') :
      Served E path (.delete name) s t (.done r) { s with handle := some st' } t'
  | contained {s t st name} (hs : s.handle = some st) :
      Served E path (.contains name) s t (.found (st.contains name)) s t
  | listed {s t st start} (hs : s.handle = some st) :
      Served E path (.list start) s t (.names (st.list start)) s t
  | rotated {s t st newMaster st' t'} (hs : s.handle = some st)
      (h : Rotated P E st newMaster t (.ok st') t') :
      Served E path (.rotate newMaster) s t (.done (.ok ())) ⟨newMaster, some st'⟩ t'
  | rotateFailed {s t st newMaster e t'} (hs : s.handle = some st)
      (h : Rotated P E st newMaster t (.err e) t') :
      Served E path (.rotate newMaster) s t (.done (.error e)) { s with handle := none } t'

/-- A handle is on this store's path, and holds allowed names only and no more than fits. -/
structure Session.Good (path : Bytes) (s : Session) : Prop where
  path : ∀ st, s.handle = some st → st.path = path
  valid : ∀ st, s.handle = some st → Valid st.entries
  fits : ∀ st, s.handle = some st → Fits st.toContents

variable (path) in
theorem drop_wp (s : Session) (t : Log × Process Bytes ι) :
    wp (kernel Bytes me).logged E anyStep s.drop
      (fun r t' => r = .ok () ∧ Untouched path t t') t := by
  unfold Session.drop
  cases s.handle with
  | none => exact ⟨rfl, .refl t⟩
  | some st => exact harmless_wp path (dropLock_quiet st.lock (Q := fun r => r = .ok ()) rfl) t

theorem ask_wp {s : Session} {f : SecretStore → Action Bytes (Answer × Session)}
    {Q : Outcome Error (Answer × Session) → Log × Process Bytes ι → Prop}
    {t : Log × Process Bytes ι} (hnone : s.handle = none → Q (.ok (.noHandle, s)) t)
    (hsome : ∀ st, s.handle = some st → wp (kernel Bytes me).logged E anyStep (f st) Q t) :
    wp (kernel Bytes me).logged E anyStep (s.ask f) Q t := by
  unfold Session.ask
  cases h : s.handle with
  | none => exact hnone h
  | some st => exact hsome st h

theorem serve_wp {s : Session} (hs : s.Good path) (q : Request) (t : Log × Process Bytes ι) :
    wp (kernel Bytes me).logged E anyStep (serve P path q s)
      (fun r t' => ∃ a s', r = .ok (a, s') ∧ Served P E path q s t a s' t') t := by
  cases q with
  | reopen =>
    show wp _ _ _ (s.drop >>= fun _ => (SecretStore.openStore path s.master).attempt >>= _) _ _
    rw [wp_bind]
    refine (drop_wp path s t).imp fun r t1 h1 => ?_
    obtain ⟨rfl, ht1⟩ := h1
    show wp _ _ _ ((SecretStore.openStore path s.master).attempt >>= _) _ _
    rw [wp_bind, wp_attempt]
    refine (openStore_wp path s.master t1).imp fun r t' h => ?_
    cases r with
    | ok st => exact ⟨_, _, rfl, .opened (h.after ht1)⟩
    | err e => exact ⟨_, _, rfl, .openFailed (h.after ht1)⟩
    | panic => exact absurd h opened_ne_panic
  | close =>
    show wp _ _ _ (s.drop >>= fun _ => pure _) _ _
    rw [wp_bind]
    refine (drop_wp path s t).imp fun r t1 h1 => ?_
    obtain ⟨rfl, ht1⟩ := h1
    exact ⟨_, _, rfl, .closed ht1⟩
  | use master => exact ⟨_, _, rfl, .used⟩
  | put name secret =>
    refine ask_wp (fun h => ⟨_, _, rfl, .noHandle trivial h⟩) fun st hst => ?_
    rw [wp_bind]
    refine (put_wp P st name secret t).imp fun r t' h => ?_
    cases r with
    | ok x => exact ⟨_, _, rfl, .put hst h⟩
    | err e => cases h
    | panic => cases h
  | get name =>
    refine ask_wp (fun h => ⟨_, _, rfl, .noHandle trivial h⟩) fun st hst => ?_
    obtain ⟨l, s0⟩ := t
    rw [wp_bind, wp_attempt]
    refine (quiet_wp (SecretStore.get_quiet P st (hs.valid st hst name)) l s0).imp fun r t' h => ?_
    obtain ⟨l', s1⟩ := t'
    obtain ⟨hr, hd, hw, hs1⟩ := h
    -- `get` makes no call that changes the process
    obtain rfl : s1 = s0 := hs1
    have hserved : Served P E path (.get name) s (l, s1) (.secret (toExcept r)) s (l', s1) :=
      .got hst hr ⟨rfl, hd, hw⟩
    cases r with
    | ok pt => exact ⟨_, _, rfl, hserved⟩
    | err e => exact ⟨_, _, rfl, hserved⟩
    | panic =>
      rcases hr with hr | ⟨-, m, hm⟩
      · exact absurd hr.symm (SecretStore.read_ne_panic P st name)
      · cases hm
  | delete name =>
    refine ask_wp (fun h => ⟨_, _, rfl, .noHandle trivial h⟩) fun st hst => ?_
    rw [wp_bind]
    refine (delete_wp st name t).imp fun r t' h => ?_
    cases r with
    | ok x => exact ⟨_, _, rfl, .deleted hst h⟩
    | err e => cases h
    | panic => cases h
  | contains name =>
    exact ask_wp (fun h => ⟨_, _, rfl, .noHandle trivial h⟩) fun st hst =>
      ⟨_, _, rfl, .contained hst⟩
  | list start =>
    exact ask_wp (fun h => ⟨_, _, rfl, .noHandle trivial h⟩) fun st hst =>
      ⟨_, _, rfl, .listed hst⟩
  | rotate newMaster =>
    refine ask_wp (fun h => ⟨_, _, rfl, .noHandle trivial h⟩) fun st hst => ?_
    rw [wp_bind, wp_attempt]
    refine (rotate_wp P (hs.valid st hst) newMaster t).imp fun r t' h => ?_
    cases r with
    | ok st' => exact ⟨_, _, rfl, .rotated hst h⟩
    | err e => exact ⟨_, _, rfl, .rotateFailed hst h⟩
    | panic => cases h

theorem served_of_ends {s s' : Session} (hs : s.Good path) {q : Request} {p p' : Process Bytes ι}
    {a : Answer} (h : Ends (kernel Bytes me) E (serve P path q s) p (.ok (a, s')) p') (l : Log) :
    ∃ l', Ends (kernel Bytes me).logged E (serve P path q s) (l, p) (.ok (a, s')) (l', p') ∧
      Served P E path q s (l, p) a s' (l', p') := by
  obtain ⟨l', h'⟩ := h.logged l
  obtain ⟨a', s'', he, hserved⟩ := (serve_wp P hs q (l, p)).ends h'
  cases he
  exact ⟨l', h', hserved⟩

theorem RotateAttempt.valid {st : SecretStore} {newMaster : MasterKey} {c : Contents}
    (h : RotateAttempt P st newMaster c) (hv : Valid st.entries) : Valid c.entries := by
  intro n hn
  rcases h.lookup n with ⟨-, hnone⟩ | ⟨old, pt, new, hold, -⟩
  · exact absurd hn (AList.lookup_eq_none.mp hnone)
  · exact hv n (AList.lookup_isSome.mp (by rw [hold]; rfl))

theorem Changed.good {st st' : SecretStore} {Attempt : Contents → Prop} {Bad : Error → Prop}
    {t t' : Log × Process Bytes ι} {r : Except Error Unit}
    (h : Changed E st Attempt Bad t (.ok (r, st')) t')
    (hattempt : ∀ c, Attempt c → Valid c.entries) (hv : Valid st.entries)
    (hfits : Fits st.toContents) :
    st'.path = st.path ∧ Valid st'.entries ∧ Fits st'.toContents := by
  cases h with
  | saved hc himage hstored hdir => exact ⟨rfl, hattempt _ hc, fits_of_checkedImage himage⟩
  | same hstored hdir hc => exact ⟨rfl, hv, hfits⟩
  | failed hsame hstored hdir he => exact ⟨rfl, hv.same hsame, hfits.same hsame⟩
  | late hsame hflaky he hc himage hstored hdir hwrote =>
    exact ⟨rfl, hv.same hsame, hfits.same hsame⟩

theorem good_handle {s : Session} {st : SecretStore} (hpath : st.path = path)
    (hv : Valid st.entries) (hfits : Fits st.toContents) :
    Session.Good path { s with handle := some st } := by
  constructor
  · rintro _ ⟨⟩
    exact hpath
  · rintro _ ⟨⟩
    exact hv
  · rintro _ ⟨⟩
    exact hfits

omit [DecidableEq ι] in
theorem good_none {s : Session} : Session.Good path { s with handle := none } :=
  ⟨fun _ h => (nomatch h), fun _ h => (nomatch h), fun _ h => (nomatch h)⟩

theorem Served.good {q : Request} {s s' : Session} {t t' : Log × Process Bytes ι} {a : Answer}
    (h : Served P E path q s t a s' t') (hs : s.Good path) : s'.Good path := by
  cases h with
  | noHandle => exact hs
  | opened h =>
    cases h with
    | loaded hd hcap hc ht =>
      exact good_handle rfl (load_valid (Nat.lt_of_le_of_lt hcap (by decide)) hc)
        (fits_of_load hcap hc)
    | created => exact good_handle rfl valid_empty (fits_empty _ _)
  | openFailed => exact good_none
  | closed => exact good_none
  | used => exact ⟨hs.path, hs.valid, hs.fits⟩
  | put hst h =>
    have hv := hs.valid _ hst
    obtain ⟨hp, hv', hfits⟩ := h.good (by
      rintro c ⟨blob, hname, -, rfl⟩
      exact hv.insert hname blob) hv (hs.fits _ hst)
    exact good_handle (hp.trans (hs.path _ hst)) hv' hfits
  | got => exact hs
  | deleted hst h =>
    have hv := hs.valid _ hst
    obtain ⟨hp, hv', hfits⟩ := h.good (by
      rintro c rfl
      exact hv.erase _) hv (hs.fits _ hst)
    exact good_handle (hp.trans (hs.path _ hst)) hv' hfits
  | contained => exact hs
  | listed => exact hs
  | rotated hst h =>
    have hpath := hs.path _ hst
    cases h with
    | saved hc himage hstored hdir =>
      exact good_handle (s := ⟨_, none⟩) hpath (RotateAttempt.valid P hc (hs.valid _ hst))
        (fits_of_checkedImage himage)
  | rotateFailed => exact good_none

theorem Session.good_start (master : MasterKey) : (Session.start master).Good path :=
  good_none (s := .start master)

/-- A handle that some run ends with, from any state of the system. -/
def SecretStore.Reachable (me : ι) (path : Bytes) (st : SecretStore) : Prop :=
  ∃ (E : (kernel Bytes me).Env) (master : MasterKey) (p p' : Process Bytes ι)
    (l : List (Request × Answer)) (s : Session),
    Serves (kernel Bytes me) E (serve P path) (.start master, p) l (s, p') ∧ s.handle = some st

theorem good_of_serves {master : MasterKey} {p p' : Process Bytes ι}
    {l : List (Request × Answer)} {s : Session}
    (h : Serves (kernel Bytes me) E (serve P path) (.start master, p) l (s, p')) : s.Good path := by
  refine h.invariant (I := fun s _ => s.Good path) (Session.good_start master) ?_
  intro q s p a s' p' hs hends
  obtain ⟨l', -, hserved⟩ := served_of_ends P hs hends []
  exact hserved.good P hs

end Specs
end Krypto.Store
