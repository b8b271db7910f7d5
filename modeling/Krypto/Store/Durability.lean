import Krypto.Store.Crash
import Krypto.Store.Failure

/-! Runs cut short by a crash: what is stored afterwards is the file of the store
after a part of the run that has every operation that returned `Ok`. -/

namespace Krypto.Store
open Effect

/-- The complete file of `c`: its image, or the file that was there at the start, if it is one. -/
structure FileOf (start : Option Bytes) (c : Contents) (d : Bytes) : Prop where
  whole : image c = .ok d ∨ start = some d
  loads : ∃ c', load d = .ok c' ∧ c'.Same c
  length_le : d.length ≤ MAX_STORE_BYTES

theorem fileOf_checkedImage (start : Option Bytes) {c : Contents} {d : Bytes}
    (hv : Valid c.entries) (h : checkedImage c = .ok d) : FileOf start c d := by
  obtain ⟨himage, hlen⟩ := checkedImage_eq_ok.mp h
  exact ⟨Or.inl himage, load_checkedImage hv h, hlen⟩

theorem FileOf.same {start : Option Bytes} {a b : Contents} {d : Bytes} (h : FileOf start a d)
    (hs : b.Same a) : FileOf start b d := by
  obtain ⟨c, hc, hsame⟩ := h.loads
  refine ⟨?_, ⟨c, hc, ?_⟩, h.length_le⟩
  · rw [image_congr hs]
    exact h.whole
  · exact ⟨hsame.salt.trans hs.salt.symm, hsame.keyId.trans hs.keyId.symm,
      hsame.entries.trans hs.entries.symm⟩

def Succeeded : Request × Answer → Prop
  | (.close, _) | (.use _, _) => False
  | (_, .done (.ok _)) | (_, .secret (.ok _)) | (_, .found _) | (_, .names _) => True
  | _ => False

section Runs
variable {ι : Type} [DecidableEq ι] {me : ι} {P : Primitives} {path : Bytes}

theorem syncsDirectory_total (op : Call Bytes) : ∃ c, syncsDirectory me op c := by
  cases op with
  | openDir => exact ⟨(none : Option Fault), rfl⟩
  | syncDir => exact ⟨(none : Option Fault), rfl⟩
  | lockPages n => exact ⟨Except.ok (), trivial⟩
  | getrandom n => exact ⟨Except.error "", trivial⟩
  | processId => exact ⟨(0 : Nat), trivial⟩
  | write f data => exact ⟨(none : Option (Fault × Nat)), trivial⟩
  | close f => exact ⟨(), trivial⟩
  | _ => exact ⟨(none : Option Fault), trivial⟩

abbrev Runs (P : Primitives) (me : ι) (path : Bytes) :
    Session × Process Bytes ι → List (Request × Answer) → Session × Process Bytes ι → Prop :=
  Serves (kernel Bytes me) (syncsDirectory me) (serve P path)

/-- `v` is what was there before the run, and no operation returned `Ok`, or it is the file of the
store after a first part of the run, and no operation after that part returned `Ok`. -/
inductive Explained (P : Primitives) (me : ι) (path : Bytes) (x : Session × Process Bytes ι)
    (l : List (Request × Answer)) (y : Session × Process Bytes ι) : Option Bytes → Prop where
  | unchanged (hfail : ∀ r ∈ l, ¬Succeeded r) : Explained P me path x l y (x.2.disk.stored path)
  | file {d before after z st} (hl : l = before ++ after) (hbefore : Runs P me path x before z)
      (hafter : Runs P me path z after y) (hst : z.1.handle = some st)
      (hfile : FileOf (x.2.disk.stored path) st.toContents d) (hfail : ∀ r ∈ after, ¬Succeeded r) :
      Explained P me path x l y (some d)

variable {x y : Session × Process Bytes ι} {l : List (Request × Answer)}

theorem Explained.snoc {v : Option Bytes} (h : Explained P me path x l y v) {q : Request}
    {a : Answer} (ha : ¬Succeeded (q, a)) {s' : Session} {p' : Process Bytes ι}
    (hlast : Ends (kernel Bytes me) (syncsDirectory me) (serve P path q y.1) y.2 (.ok (a, s')) p') :
    Explained P me path x (l ++ [(q, a)]) (s', p') v := by
  have hmore {m : List (Request × Answer)} (hm : ∀ r ∈ m, ¬Succeeded r) :
      ∀ r ∈ m ++ [(q, a)], ¬Succeeded r := by
    intro r hr
    rcases List.mem_append.mp hr with hr | hr
    · exact hm r hr
    · rw [List.mem_singleton.mp hr]
      exact ha
  cases h with
  | unchanged hfail => exact .unchanged (hmore hfail)
  | file hl hbefore hafter hst hfile hfail =>
    rw [hl, List.append_assoc]
    exact .file rfl hbefore (.snoc hafter hlast) hst hfile (hmore hfail)

/-- Between two requests: what is stored is on the medium, is the handle's if there is one, and is
explained by the run. -/
structure Settled (P : Primitives) (me : ι) (path : Bytes) (x : Session × Process Bytes ι)
    (l : List (Request × Answer)) (y : Session × Process Bytes ι) : Prop where
  run : Runs P me path x l y
  good : y.1.Good path
  durable : ∃ u, y.2.disk.Durable path u
  handle : ∀ st, y.1.handle = some st → ∃ d, y.2.disk.stored path = some d ∧
    FileOf (x.2.disk.stored path) st.toContents d
  explained : Explained P me path x l y (y.2.disk.stored path)

theorem Changed.fileOf {start : Option Bytes} {st st' : SecretStore} {Attempt : Contents → Prop}
    {Bad : Error → Prop} {t t' : Log × Process Bytes ι} {r : Except Error Unit} {d : Bytes}
    (h : Changed (syncsDirectory me) st Attempt Bad t (.ok (r, st')) t')
    (hattempt : ∀ c, Attempt c → Valid c.entries) (hd : t.2.disk.stored st.path = some d)
    (hfile : FileOf start st.toContents d) :
    ∃ d', t'.2.disk.stored st.path = some d' ∧ FileOf start st'.toContents d' := by
  cases h with
  | saved hc himage hstored hdir =>
    exact ⟨_, hstored, fileOf_checkedImage start (hattempt _ hc) himage⟩
  | same hstored hdir hc => exact ⟨d, hstored.trans hd, hfile⟩
  | failed hsame hstored hdir he => exact ⟨d, hstored.trans hd, hfile.same ⟨rfl, rfl, hsame⟩⟩
  | late hsame hflaky => exact absurd hflaky syncsDirectory_not_flaky

theorem Explained.loaded {d : Bytes} (h : Explained P me path x l y (some d)) {c : Contents}
    (hc : load d = .ok c) (hcap : d.length ≤ MAX_STORE_BYTES) :
    FileOf (x.2.disk.stored path) c d := by
  have hwhole : image c = .ok d ∨ x.2.disk.stored path = some d := by
    obtain ⟨v, hv⟩ : ∃ v, v = some d := ⟨_, rfl⟩
    rw [← hv] at h
    cases h with
    | unchanged => exact Or.inr hv
    | file hl hbefore hafter hst hfile =>
      obtain rfl := Option.some.inj hv
      obtain ⟨c', hc', hsame⟩ := hfile.loads
      obtain rfl := Outcome.ok.inj (hc'.symm.trans hc)
      rw [image_congr hsame]
      exact hfile.whole
  exact ⟨hwhole, ⟨c, hc, rfl, rfl, Same.refl _⟩, hcap⟩

/-- A request served: either the handle's file is stored, or there is no handle, nothing changed
and nothing succeeded. -/
theorem Served.stored {s s' : Session} {q : Request} {a : Answer} {t t' : Log × Process Bytes ι}
    (hserved : Served P (syncsDirectory me) path q s t a s' t') (h : Settled P me path x l (s, t.2)) :
    (∃ st d, s'.handle = some st ∧ t'.2.disk.stored path = some d ∧
      FileOf (x.2.disk.stored path) st.toContents d) ∨
    s'.handle = none ∧ t'.2.disk.stored path = t.2.disk.stored path ∧ ¬Succeeded (q, a) := by
  -- an operation that leaves the file alone leaves it the handle's
  have hkept {st : SecretStore} (hst : s.handle = some st)
      (ht : t'.2.disk.stored path = t.2.disk.stored path) :
      ∃ st d, s.handle = some st ∧ t'.2.disk.stored path = some d ∧
        FileOf (x.2.disk.stored path) st.toContents d := by
    obtain ⟨d, hd, hfile⟩ := h.handle st hst
    exact ⟨st, d, hst, ht.trans hd, hfile⟩
  cases hserved with
  | noHandle hq hs =>
    refine Or.inr ⟨hs, rfl, ?_⟩
    cases q <;> first | exact hq.elim | exact id
  | opened hopened =>
    cases hopened with
    | loaded hd hcap hc ht =>
      have hexplained := h.explained
      rw [hd] at hexplained
      exact Or.inl ⟨_, _, rfl, ht.stored.trans hd, hexplained.loaded hc hcap⟩
    | created hnone himage hstored hdir =>
      exact Or.inl ⟨_, _, rfl, hstored, fileOf_checkedImage _ valid_empty himage⟩
  | openFailed hopened =>
    cases hopened with
    | rejected hd hbad ht => exact Or.inr ⟨rfl, ht.stored, id⟩
    | failed he hstored hdir hwrote => exact Or.inr ⟨rfl, hstored, id⟩
    | late he hflaky => exact absurd hflaky syncsDirectory_not_flaky
  | closed ht => exact Or.inr ⟨rfl, ht.stored, id⟩
  | used =>
    rcases Option.eq_none_or_eq_some s.handle with hs | ⟨st, hs⟩
    · exact Or.inr ⟨hs, rfl, id⟩
    · exact Or.inl (hkept hs rfl)
  | put hst hput =>
    obtain ⟨d, hd, hfile⟩ := h.handle _ hst
    obtain rfl := h.good.path _ hst
    have hv := h.good.valid _ hst
    obtain ⟨d', hd', hfile'⟩ := hput.fileOf (by
      rintro c ⟨blob, hname, -, rfl⟩
      exact hv.insert hname blob) hd hfile
    exact Or.inl ⟨_, d', rfl, hd', hfile'⟩
  | got hst hr ht => exact Or.inl (hkept hst ht.stored)
  | deleted hst hdelete =>
    obtain ⟨d, hd, hfile⟩ := h.handle _ hst
    obtain rfl := h.good.path _ hst
    have hv := h.good.valid _ hst
    obtain ⟨d', hd', hfile'⟩ := hdelete.fileOf (by
      rintro c rfl
      exact hv.erase _) hd hfile
    exact Or.inl ⟨_, d', rfl, hd', hfile'⟩
  | contained hst => exact Or.inl (hkept hst rfl)
  | listed hst => exact Or.inl (hkept hst rfl)
  | rotated hst hrotate =>
    obtain rfl := h.good.path _ hst
    cases hrotate with
    | saved hc himage hstored hdir =>
      have hv := hc.valid P (h.good.valid _ hst)
      exact Or.inl ⟨_, _, rfl, hstored, fileOf_checkedImage _ hv himage⟩
  | rotateFailed hst hrotate =>
    obtain rfl := h.good.path _ hst
    cases hrotate with
    | failed hstored hdir he => exact Or.inr ⟨rfl, hstored, id⟩
    | late hflaky => exact absurd hflaky syncsDirectory_not_flaky

theorem Settled.step {s s' : Session} {p p' : Process Bytes ι} {q : Request} {a : Answer}
    (h : Settled P me path x l (s, p))
    (hends : Ends (kernel Bytes me) (syncsDirectory me) (serve P path q s) p (.ok (a, s')) p') :
    Settled P me path x (l ++ [(q, a)]) (s', p') := by
  obtain ⟨l', -, hserved⟩ := served_of_ends P h.good hends []
  obtain ⟨v, hv⟩ := h.durable
  have hdurable := (serve_durable (v := v) P h.good q hv).ends hends
  have hrun := Serves.snoc h.run hends
  have hgood := hserved.good P h.good
  rcases hserved.stored h with ⟨st, d, hst, hd, hfile⟩ | ⟨hnone, hstored, hfail⟩
  · refine ⟨hrun, hgood, hdurable, ?_, ?_⟩
    · intro st' hst'
      obtain rfl := Option.some.inj (hst.symm.trans hst')
      exact ⟨d, hd, hfile⟩
    · have hd' : p'.disk.stored path = some d := hd
      show Explained P me path x _ _ (p'.disk.stored path)
      rw [hd']
      exact .file (List.append_nil _).symm hrun (.nil _) hst hfile fun r hr => nomatch hr
  · refine ⟨hrun, hgood, hdurable, fun st hst => ?_, ?_⟩
    · exact absurd (hnone.symm.trans hst) (by simp)
    · have hp : p'.disk.stored path = p.disk.stored path := hstored
      show Explained P me path x _ _ (p'.disk.stored path)
      rw [hp]
      exact h.explained.snoc hfail hends

theorem settled_of_runs {master : MasterKey} {p : Process Bytes ι} {v : Option Bytes}
    (hp : p.disk.Durable path v) (hrun : Runs P me path (.start master, p) l y) :
    Settled P me path (.start master, p) l y := by
  induction hrun with
  | nil =>
    refine ⟨.nil _, Session.good_start master, ⟨v, hp⟩, fun st hst => (nomatch hst), ?_⟩
    exact .unchanged fun r hr => nomatch hr
  | snoc run last ih => exact Settled.step ih last

/-- A crash at any call of any run, in which the directory can be synced: the file is explained by
the run so far, or by that run with the operation that was under way. And whatever other files
there are, opening the store again gives what that file holds. -/
theorem crash_leaves_whole_file {master : MasterKey} {p p1 p2 : Process Bytes ι} {v : Option Bytes}
    {s : Session} (hp : p.disk.Durable path v) (hrun : Runs P me path (.start master, p) l (s, p1))
    (q : Request) {rest : Action Bytes (Answer × Session)}
    (hsteps : Steps (kernel Bytes me) (syncsDirectory me) (serve P path q s, p1) (rest, p2))
    {d' : Disk Bytes} (hcrash : p2.disk.Crash d') :
    (∃ ops y, (ops = l ∧ y = (s, p1) ∨ ∃ a, ops = l ++ [(q, a)] ∧
        Ends (kernel Bytes me) (syncsDirectory me) rest p2 (.ok (a, y.1)) y.2) ∧
      Explained P me path (.start master, p) ops y (d'.stored path)) ∧
    ∀ (E' : (kernel Bytes me).Env) (p3 p4 : Process Bytes ι) (master' : MasterKey)
      (r : Outcome Error SecretStore), p3.disk.stored path = d'.stored path →
      Ends (kernel Bytes me) E' (SecretStore.openStore path master') p3 r p4 →
      (∀ st, r = .ok st → (∀ d, d'.stored path = some d → load d = .ok st.toContents) ∧
        (d'.stored path = none → st.entries = ∅)) ∧
      ∀ e, r = .err e → FromEnv ((kernel Bytes me).Answers E') e ∨ ∃ d, d'.stored path = some d ∧
        (d.length ≤ MAX_STORE_BYTES → load d = .err e) := by
  have hsettled := settled_of_runs hp hrun
  obtain ⟨u, hu⟩ := hsettled.durable
  have hu1 : p1.disk.stored path = u := hu.stored
  have hwp : wp (kernel Bytes me) (syncsDirectory me) (Guarded path u) (serve P path q s)
      (fun _ p' => ∃ u, p'.disk.Durable path u) p1 := serve_durable P hsettled.good q hu
  constructor
  -- the crash leaves what was there before the operation, or what is seen now
  · have hsafe : p2.disk.CrashSafe path u :=
      (wp_mono (fun _ _ _ h => h.1) (fun _ _ h => h) hwp).always (hu.crashSafe u) hsteps
    rcases hsafe d' hcrash with hd | hd
    · have hexplained : Explained P me path (.start master, p) l (s, p1) (p1.disk.stored path) :=
        hsettled.explained
      rw [hu1, ← hd] at hexplained
      exact ⟨l, (s, p1), Or.inl ⟨rfl, rfl⟩, hexplained⟩
    by_cases hsame : p2.disk.stored path = u
    · have hexplained : Explained P me path (.start master, p) l (s, p1) (p1.disk.stored path) :=
        hsettled.explained
      rw [hu1, ← hsame, ← hd] at hexplained
      exact ⟨l, (s, p1), Or.inl ⟨rfl, rfl⟩, hexplained⟩
    -- The file was replaced, so the operation ends with that file, if it is let.
    obtain ⟨r, p3, hrest⟩ := exists_ends syncsDirectory_total rest p2
    have hends : Ends (kernel Bytes me) (syncsDirectory me) (serve P path q s) p1 r p3 :=
      hsteps.trans hrest
    -- the file is replaced at most once, so what is seen now is what the operation ends with
    have hkept : p2.disk.stored path ≠ u → p3.disk.stored path = p2.disk.stored path := by
      have hrel : wp (kernel Bytes me) (syncsDirectory me)
          (fun _ (a b : Process Bytes ι) =>
            a.disk.stored path ≠ u → b.disk.stored path = a.disk.stored path)
          rest (fun _ p' => ∃ u, p'.disk.Durable path u) p2 :=
        wp_mono (fun _ _ _ h => h.2) (fun _ _ h => h) (hwp.steps hsteps)
      refine hrel.relates (fun _ _ => rfl) (fun {a b c} hab hbc ha => ?_) hrest
      have hb := hab ha
      rw [hbc (hb ▸ ha), hb]
    obtain ⟨l', hlogged⟩ := hends.logged []
    obtain ⟨a, s', rfl, -⟩ := (serve_wp P hsettled.good q ([], p1)).ends hlogged
    have hexplained : Explained P me path (.start master, p) (l ++ [(q, a)]) (s', p3)
        (p3.disk.stored path) := (hsettled.step hends).explained
    rw [hkept hsame, ← hd] at hexplained
    exact ⟨l ++ [(q, a)], (s', p3), Or.inr ⟨a, rfl, hrest⟩, hexplained⟩
  · intro E' p3 p4 master' r hstored hends
    obtain ⟨l', hlogged⟩ := hends.logged []
    -- opening does not see that there was a crash, only what is stored
    have hopened := (openStore_wp path master' ([], p3)).ends hlogged
    rw [← hstored]
    cases hopened with
    | loaded hd hcap hc ht =>
      refine ⟨?_, fun e he => nomatch he⟩
      rintro st ⟨⟩
      refine ⟨fun d hd' => ?_, fun hnone => absurd (hnone.symm.trans hd) (by simp)⟩
      obtain rfl := Option.some.inj (hd.symm.trans hd')
      exact hc
    | created hnone himage hstored' hdir =>
      refine ⟨?_, fun e he => nomatch he⟩
      rintro st ⟨⟩
      exact ⟨fun d hd => absurd (hnone.symm.trans hd) (by simp), fun _ => rfl⟩
    | rejected hd hbad ht =>
      refine ⟨fun st h => (nomatch h), ?_⟩
      rintro e ⟨⟩
      exact Or.inr ⟨_, hd, hbad⟩
    | failed he hstored' hdir hwrote =>
      refine ⟨fun st h => (nomatch h), ?_⟩
      rintro e ⟨⟩
      exact Or.inl he
    | late he =>
      refine ⟨fun st h => (nomatch h), ?_⟩
      rintro e ⟨⟩
      exact Or.inl he

end Runs

/-! ## A `put` cut short after its rename -/

def cutPut (n : Nat) : Action Bytes (Answer × Session) × Process Bytes Unit :=
  (kernel Bytes ()).advance (failing fun _ => false) n
    (serve sampleCiphers samplePath (.put ['a'] [5]) ⟨sampleKey, some sampleHandle⟩, sampleOpened.2)

theorem syncsDirectory_failing (op : Call Bytes) :
    syncsDirectory () op (failing (fun _ => false) op) := by
  cases op <;> first | rfl | trivial

/-- The rename is lost with a crash before the directory is synced, and the old file is there. -/
theorem crash_leaves_whole_file_sample :
    (cutPut 9).2.disk.stored samplePath ≠ sampleOpened.2.disk.stored samplePath ∧
    (cutPut 9).2.disk.lose.stored samplePath = sampleOpened.2.disk.stored samplePath ∧
    ∃ ops y, Explained sampleCiphers () samplePath (.start sampleKey, .start) ops y
      ((cutPut 9).2.disk.lose.stored samplePath) := by
  have hnone : (Process.start : Process Bytes Unit).disk.Durable samplePath none :=
    ⟨fun _ h => absurd h List.not_mem_nil, fun _ h => (nomatch h), rfl⟩
  have hopened := ends_play (M := kernel Bytes ()) (E := syncsDirectory ())
    (failing fun _ => false) syncsDirectory_failing
    (serve sampleCiphers samplePath .reopen (.start sampleKey)) (Process.start : Process Bytes Unit)
  have hrun : Runs sampleCiphers () samplePath (.start sampleKey, .start)
      [(.reopen, .done (.ok ()))] (⟨sampleKey, some sampleHandle⟩, sampleOpened.2) :=
    .snoc (.nil _) hopened
  have hsteps := steps_advance (M := kernel Bytes ()) (E := syncsDirectory ())
    (failing fun _ => false) syncsDirectory_failing 9
    (serve sampleCiphers samplePath (.put ['a'] [5]) ⟨sampleKey, some sampleHandle⟩, sampleOpened.2)
  have hcrash := crash_leaves_whole_file hnone hrun (.put ['a'] [5]) hsteps (Disk.crash_lose _)
  obtain ⟨⟨ops, y, -, hexplained⟩, -⟩ := hcrash
  exact ⟨by decide +kernel, by decide +kernel, ops, y, hexplained⟩

end Krypto.Store
