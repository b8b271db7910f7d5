import Krypto.Store.Acceptance
import Krypto.Store.Binding

/-! `rotate` keeps what a store holds, or changes nothing. -/

namespace Krypto.Store
open Effect

section Rotation
variable {ι : Type} [DecidableEq ι] {me : ι} {P : Primitives}

def Gets (P : Primitives) (me : ι) (st : SecretStore) (n : Str) (r : Outcome Error SecretBuf) :
    Prop :=
  ∀ p : Process Bytes ι, Ends (kernel Bytes me) locksPages (st.get P n) p r p

theorem locksPages_not_unlocked : ¬Unlocked ((kernel Bytes me).Answers locksPages) := by
  rintro ⟨n, e, c, s, hc, hy⟩
  have hc' : c = .ok () := hc
  rw [hc'] at hy
  cases hy

theorem gets_iff (st : SecretStore) {n : Str} (hv : n ∈ st.entries → ValidName n)
    {r : Outcome Error SecretBuf} : Gets P me st n r ↔ r = st.read P n := by
  have hread {p p' : Process Bytes ι} {r : Outcome Error SecretBuf}
      (h : Ends (kernel Bytes me) locksPages (st.get P n) p r p') : r = st.read P n ∧ p' = p := by
    obtain ⟨hr, hp⟩ := private_ends (SecretStore.get_quiet P st hv) h
    exact ⟨hr.resolve_right fun h => locksPages_not_unlocked h.1, hp⟩
  constructor
  · intro h
    exact (hread (h .start)).1
  · rintro rfl p
    obtain ⟨r, p', h⟩ := exists_ends locksPages_total (st.get P n) p
    obtain ⟨rfl, rfl⟩ := hread h
    exact h

/-! ## What the new generation holds -/

structure Renewed (P : Primitives) (st st' : SecretStore) (newMaster : MasterKey) : Prop where
  master : st'.master = newMaster
  attempt : RotateAttempt P st newMaster st'.toContents

theorem Renewed.generation_eq {st st' : SecretStore} {newMaster : MasterKey}
    (h : Renewed P st st' newMaster) : st'.generation = ⟨newMaster, st'.salt, st'.keyId⟩ := by
  rw [← h.master]
  rfl

theorem Renewed.mem_iff {st st' : SecretStore} {newMaster : MasterKey}
    (h : Renewed P st st' newMaster) (n : Str) : n ∈ st'.entries ↔ n ∈ st.entries := by
  rw [← AList.lookup_isSome, ← AList.lookup_isSome]
  rcases h.attempt.lookup n with ⟨hold, hnew⟩ | ⟨old, pt, new, hold, -, hnew, -⟩
  · rw [hold, hnew]
  · rw [hold, hnew]
    exact iff_of_true rfl rfl

theorem Renewed.blobKeyId {st st' : SecretStore} {newMaster : MasterKey}
    (h : Renewed P st st' newMaster) {n : Str} {blob : Bytes}
    (hb : st'.entries.lookup n = some blob) : Aead.blobKeyId blob = .ok st'.keyId.toList := by
  rcases h.attempt.lookup n with ⟨-, hnew⟩ | ⟨old, pt, new, -, -, hnew, hseal⟩
  · rw [hnew] at hb
    cases hb
  · obtain rfl := Option.some.inj (hnew.symm.trans hb)
    exact blobKeyId_of_seals hseal

/-- Every new blob is a seal of what the name read before. -/
theorem Renewed.seals {st st' : SecretStore} {newMaster : MasterKey}
    (h : Renewed P st st' newMaster) {n : Str} {blob : Bytes} (hb : st'.entries.lookup n = some blob) :
    ∃ pt, st.read P n = .ok pt ∧ st'.generation.Seals P n pt blob := by
  rcases h.attempt.lookup n with ⟨-, hnew⟩ | ⟨old, pt, new, hold, hverdict, hnew, hseal⟩
  · rw [hnew] at hb
    cases hb
  · obtain rfl := Option.some.inj (hnew.symm.trans hb)
    rw [SecretStore.read_of_lookup P hold, h.generation_eq]
    exact ⟨pt, hverdict, hseal⟩

theorem Renewed.read_eq (hP : Aead.Correct P) {st st' : SecretStore} {newMaster : MasterKey}
    (h : Renewed P st st' newMaster) (n : Str) : st'.read P n = st.read P n := by
  cases hnew : st'.entries.lookup n with
  | none =>
    have hold : st.entries.lookup n = none := by
      rw [AList.lookup_eq_none, ← h.mem_iff, ← AList.lookup_eq_none]
      exact hnew
    rw [SecretStore.read, SecretStore.read, hold, hnew]
    rfl
  | some blob =>
    obtain ⟨pt, hread, hseal⟩ := h.seals hnew
    rw [hread, SecretStore.read_of_lookup P hnew, hseal.verdict hP]

/-- What a rotation from `st` to `st'` has sealed. -/
def rotationSeals (P : Primitives) (st st' : SecretStore) : List StoreSeal :=
  st'.entries.entries.filterMap fun e =>
    match st.read P e.1 with
    | .ok pt => some ⟨st'.generation, e.1, pt, e.2⟩
    | _ => none

theorem generation_of_rotationSeals {st st' : SecretStore} {x : StoreSeal}
    (hx : x ∈ rotationSeals P st st') : x.generation = st'.generation := by
  obtain ⟨e, -, he⟩ := List.mem_filterMap.mp hx
  cases hread : st.read P e.1 with
  | ok pt =>
    rw [hread] at he
    exact Option.some.inj he ▸ rfl
  | err e' =>
    rw [hread] at he
    cases he
  | panic =>
    rw [hread] at he
    cases he

theorem mem_rotationSeals {st st' : SecretStore} {n : Str} {pt blob : Bytes}
    (hb : st'.entries.lookup n = some blob) (hread : st.read P n = .ok pt) :
    ⟨st'.generation, n, pt, blob⟩ ∈ rotationSeals P st st' := by
  have hmem : (⟨n, blob⟩ : Sigma fun _ : Str => Bytes) ∈ st'.entries.entries :=
    AList.mem_lookup_iff.mp hb
  refine List.mem_filterMap.mpr ⟨_, hmem, ?_⟩
  simp only [hread]

variable {made : List Aead.Encryption} {before : List StoreSeal} {used : Derivation → Prop}

/-- Under the old master key no name is read any more. -/
theorem Renewed.read_old {st st' : SecretStore} {newMaster : MasterKey}
    (h : Renewed P st st' newMaster) (hs : Unforged P made (before ++ rotationSeals P st st') used)
    (hfresh : ∀ x ∈ before, x.generation.salt ≠ st'.salt) (hne : st.master ≠ newMaster) {n : Str}
    (hn : n ∈ st'.entries) (hu : used (derivation ⟨st.master, st'.salt, st'.keyId⟩ n)) :
    SecretStore.read P { st' with master := st.master } n = .err .auth := by
  obtain ⟨blob, hb⟩ := Option.isSome_iff_exists.mp (AList.lookup_isSome.mpr hn)
  have hread : SecretStore.read P { st' with master := st.master } n =
      Generation.verdict P ⟨st.master, st'.salt, st'.keyId⟩ n blob :=
    SecretStore.read_of_lookup P hb
  have hno (pt : Bytes) : Generation.verdict P ⟨st.master, st'.salt, st'.keyId⟩ n blob ≠ .ok pt := by
    intro hv
    obtain ⟨-, x, hx, hder, -⟩ := hs.seal_of_verdict hu hv
    simp only [derivation, Derivation.mk.injEq] at hder
    obtain ⟨hmaster, hsalt, -⟩ := hder
    -- a seal from before has another salt, and one of the rotation has another master key
    rcases List.mem_append.mp hx with hx | hx
    · exact hfresh x hx hsalt.symm
    · rw [generation_of_rotationSeals hx, h.generation_eq] at hmaster
      exact hne hmaster
  rw [hread]
  rcases Generation.verdict_cases P _ n blob with ⟨hblob, -⟩ | ⟨-, hv | ⟨pt, hv⟩⟩
  · exact absurd (h.attempt.sealed n blob hb).isBlob hblob
  · exact hv
  · exact absurd hv (hno pt)

/-! ## Where an entry does not open -/

/-- The error of reading all is the error of `get` at the first name that fails. -/
theorem decryptAll_ends_err {E : (kernel Bytes me).Env} {st : SecretStore} {names : List Str}
    {p p' : Process Bytes ι} {e : Error}
    (h : Ends (kernel Bytes me) E (st.decryptAll P names) p (.err e) p') :
    ∃ before n after plain p1, names = before ++ n :: after ∧
      Ends (kernel Bytes me) E (st.decryptAll P before) p (.ok plain) p1 ∧
      Ends (kernel Bytes me) E (st.get P n) p1 (.err e) p' := by
  induction names generalizing p with
  | nil =>
    cases (ends_done h).1
  | cons name names ih =>
    obtain ⟨r, p1, hget, h⟩ := ends_andThen h
    cases r with
    | err e' =>
      obtain ⟨he, rfl⟩ := ends_done h
      cases he
      exact ⟨[], name, names, [], p, rfl, .refl _, hget⟩
    | panic => cases (ends_done h).1
    | ok secret =>
      obtain ⟨r, p2, hrest, h⟩ := ends_andThen h
      cases r with
      | ok plain => cases (ends_done h).1
      | panic => cases (ends_done h).1
      | err e' =>
        obtain ⟨he, rfl⟩ := ends_done h
        cases he
        obtain ⟨before, n, after, plain, p3, rfl, hbefore, hn⟩ := ih hrest
        refine ⟨name :: before, n, after, (name, secret) :: plain, p3, rfl, ?_, hn⟩
        exact hget.bind (hbefore.bind (.refl _))

/-- A rotation of a store of which some entry does not open is over before it writes. -/
theorem rotate_ends_unread {E : (kernel Bytes me).Env} {st : SecretStore} (hv : Valid st.entries)
    (hun : ∃ n ∈ st.entries, ∀ pt, st.read P n ≠ .ok pt) {newMaster : MasterKey}
    {p p' : Process Bytes ι} {r : Outcome Error SecretStore}
    (h : Ends (kernel Bytes me) E (st.rotate P newMaster) p r p') :
    ∃ e before n after plain p1 p2, r = .err e ∧ Str.sort st.entries.keys = before ++ n :: after ∧
      Ends (kernel Bytes me) E (st.decryptAll P before) p (.ok plain) p1 ∧
      Ends (kernel Bytes me) E (st.get P n) p1 (.err e) p2 := by
  have hnot (plain : List (Str × SecretBuf)) :
      st.readAll P (Str.sort st.entries.keys) ≠ .ok plain := by
    intro hplain
    obtain ⟨n, hn, hno⟩ := hun
    obtain ⟨hnames, hread⟩ := (SecretStore.readAll_eq_ok P).mp hplain
    have hmem : n ∈ plain.map Prod.fst := by
      rw [hnames, Str.mem_sort, ← AList.mem_keys]
      exact hn
    obtain ⟨x, hx, rfl⟩ := List.mem_map.mp hmem
    exact hno x.2 (hread x hx)
  -- what follows the reading: the new generation, the write, and closing the lock
  obtain ⟨r1, p1, hrotated, h⟩ := ends_andThen h
  obtain ⟨r2, p2, hnew, hrotated⟩ := ends_andThen hrotated
  obtain ⟨r3, p3, hall, hnew⟩ := ends_andThen hnew
  -- the reading ends as the pure one does, or finds no locked pages: in an error either way
  have hr3 : ∃ e, r3 = .err e := by
    rcases (private_ends (SecretStore.decryptAll_quiet P st (valid_sort hv)) hall).1 with rfl | ⟨-, m, rfl⟩
    · cases hplain : st.readAll P (Str.sort st.entries.keys) with
      | ok plain => exact absurd hplain (hnot plain)
      | err e => exact ⟨e, rfl⟩
      | panic => exact absurd hplain (SecretStore.readAll_ne_panic P st _)
    · exact ⟨_, rfl⟩
  obtain ⟨e, rfl⟩ := hr3
  obtain ⟨before, n, after, plain, p4, hnames, hbefore, hn⟩ := decryptAll_ends_err hall
  obtain ⟨rfl, rfl⟩ := ends_done hnew
  obtain ⟨rfl, rfl⟩ := ends_done hrotated
  obtain ⟨r5, p5, -, h⟩ := ends_andThen h
  obtain ⟨rfl, rfl⟩ := ends_done h
  exact ⟨e, before, n, after, plain, p4, _, rfl, hnames, hbefore, hn⟩

/-! ## The whole of `rotate` -/

theorem RotateAttempt.reads {st : SecretStore} {newMaster : MasterKey} {c : Contents}
    (h : RotateAttempt P st newMaster c) {n : Str} (hn : n ∈ st.entries) :
    ∃ pt, st.read P n = .ok pt := by
  rcases h.lookup n with ⟨hold, -⟩ | ⟨old, pt, new, hold, hverdict, -⟩
  · exact absurd hn (AList.lookup_eq_none.mp hold)
  · exact ⟨pt, by rw [SecretStore.read_of_lookup P hold, hverdict]⟩

theorem Rotated.renewed {E : (kernel Bytes me).Env} {st st' : SecretStore} {newMaster : MasterKey}
    {t t' : Log × Process Bytes ι} (hv : Valid st.entries)
    (h : Rotated P E st newMaster t (.ok st') t') :
    Renewed P st st' newMaster ∧ ∃ d c, t'.2.disk.stored st.path = some d ∧
      image st'.toContents = .ok d ∧ load d = .ok c ∧ c.Same st'.toContents := by
  cases h with
  | saved hc himage hstored hdir =>
    obtain ⟨c, hload, hsame⟩ := load_checkedImage (hc.valid P hv) himage
    exact ⟨⟨rfl, hc⟩, _, c, hstored, (checkedImage_eq_ok.mp himage).1, hload, hsame⟩

/-- A rotation that succeeds keeps the names and what `get` answers, under the new key id, and
leaves nothing to be read under the old master key; only the environment can make it fail where
every entry opens and the new image fits; where some entry does not open, it answers the error of
`get` at the first such name and writes nothing; and it does not change the length of an image. -/
theorem rotate_all_or_nothing {path : Bytes} {st : SecretStore}
    (hst : SecretStore.Reachable P me path st) (newMaster : MasterKey) (E : (kernel Bytes me).Env)
    (p p' : Process Bytes ι) (r : Outcome Error SecretStore)
    (h : Ends (kernel Bytes me) E (st.rotate P newMaster) p r p') :
    (∀ st', r = .ok st' → st'.master = newMaster ∧ (∀ n, n ∈ st'.entries ↔ n ∈ st.entries) ∧
      (∀ n ∈ st.entries, ∃ pt, Gets P me st n (.ok pt)) ∧
      (∀ n blob, st'.entries.lookup n = some blob →
        Aead.blobKeyId blob = .ok st'.keyId.toList) ∧
      (∃ d c, p'.disk.stored path = some d ∧ load d = .ok c ∧ c.Same st'.toContents) ∧
      (∀ n blob, st'.entries.lookup n = some blob → ∃ pt, Gets P me st n (.ok pt) ∧
        st'.generation.Seals P n pt blob ∧
        ⟨st'.generation, n, pt, blob⟩ ∈ rotationSeals P st st') ∧
      (Aead.Correct P → ∀ n r, Gets P me st' n r ↔ Gets P me st n r) ∧
      ∀ made before used, Unforged P made (before ++ rotationSeals P st st') used →
        (∀ x ∈ before, x.generation.salt ≠ st'.salt) → st.master ≠ newMaster → ∀ n ∈ st'.entries,
          used (derivation ⟨st.master, st'.salt, st'.keyId⟩ n) →
          Gets P me { st' with master := st.master } n (.err .auth)) ∧
    ((∀ n ∈ st.entries, ∃ pt, Gets P me st n (.ok pt)) →
      (∀ c, RotateAttempt P st newMaster c → Fits c) →
      (∃ st', r = .ok st') ∨ ∃ e, r = .err e ∧ FromEnv ((kernel Bytes me).Answers E) e) ∧
    ((∃ n ∈ st.entries, ∀ pt, ¬Gets P me st n (.ok pt)) →
      (∃ e before n after plain p1 p2, r = .err e ∧ Str.sort st.entries.keys = before ++ n :: after ∧
        Ends (kernel Bytes me) E (st.decryptAll P before) p (.ok plain) p1 ∧
        Ends (kernel Bytes me) E (st.get P n) p1 (.err e) p2) ∧
      p'.disk.stored path = p.disk.stored path ∧
      ∀ f data next p1, ¬Steps (kernel Bytes me) E (st.rotate P newMaster, p)
        (.call (.write f data) next, p1)) ∧
    (Aead.AegisLengths P → Sealed P st.entries →
      (∀ st' d d', r = .ok st' → image st.toContents = .ok d → p'.disk.stored path = some d' →
        d'.length = d.length) ∧
      ∀ e, r = .err e → ¬e.IsFormat) := by
  obtain ⟨rfl, hv⟩ := Reachable.valid hst
  obtain ⟨l, hlogged⟩ := h.logged []
  have hrotated := (rotate_wp P hv newMaster ([], p)).ends hlogged
  have hgets {n : Str} {r : Outcome Error SecretBuf} : Gets P me st n r ↔ r = st.read P n :=
    gets_iff st (hv n)
  refine ⟨?_, ?_, ?_, ?_⟩
  -- it succeeded: the new generation, what it answers, and the file
  · rintro st' rfl
    obtain ⟨hnew, d, c, hstored, -, hload, hsame⟩ := hrotated.renewed hv
    have hv' : Valid st'.entries := hnew.attempt.valid P hv
    refine ⟨hnew.master, hnew.mem_iff, fun n hn => ?_, fun n blob => hnew.blobKeyId,
      ⟨d, c, hstored, hload, hsame⟩, fun n blob hb => ?_, fun hP n r => ?_, ?_⟩
    · obtain ⟨pt, hpt⟩ := hnew.attempt.reads hn
      exact ⟨pt, hgets.mpr hpt.symm⟩
    · obtain ⟨pt, hread, hseal⟩ := hnew.seals hb
      exact ⟨pt, hgets.mpr hread.symm, hseal, mem_rotationSeals hb hread⟩
    · rw [gets_iff st' (hv' n), hgets, hnew.read_eq hP]
    · intro made before used hs hfresh hne n hn hu
      have hold := hnew.read_old hs hfresh hne hn hu
      exact (gets_iff { st' with master := st.master } (hv' n)).mpr hold.symm
  -- every entry opens and the image fits, so only the environment is left to fail
  · intro hall hfits
    cases hrotated with
    | saved => exact Or.inl ⟨_, rfl⟩
    | late hflaky he => exact Or.inr ⟨_, rfl, he⟩
    | failed hstored hdir he =>
      rcases he with he | he | ⟨c, hc, he⟩
      · exact Or.inr ⟨_, rfl, he⟩
      · have hread : ∀ n ∈ Str.sort st.entries.keys, ∃ pt, st.read P n = .ok pt := by
          intro n hn
          obtain ⟨pt, hpt⟩ := hall n (mem_of_mem_sort n hn)
          exact ⟨pt, (hgets.mp hpt).symm⟩
        obtain ⟨plain, hplain⟩ := SecretStore.exists_readAll P hread
        rw [hplain] at he
        cases he
      · exact absurd he (checkedImage_of_fits (hfits c hc))
  -- an entry does not open, so nothing is attempted: no call writes
  · rintro ⟨n, hn, hno⟩
    have hun : ∀ pt, st.read P n ≠ .ok pt := fun pt hpt => hno pt (hgets.mpr hpt.symm)
    have hnot {c : Contents} (hc : RotateAttempt P st newMaster c) : False := by
      obtain ⟨pt, hpt⟩ := hc.reads hn
      exact hun pt hpt
    refine ⟨rotate_ends_unread hv ⟨n, hn, hun⟩ h, ?_, fun f data next p1 hsteps => ?_⟩
    · cases hrotated with
      | saved hc => exact (hnot hc).elim
      | late hflaky he hc => exact (hnot hc).elim
      | failed hstored => exact hstored
    · obtain ⟨st', a, ⟨-, -, hattempt⟩, -⟩ :=
        ((rotateLocked_outline P hv newMaster).saves.onErr st.lock).write hsteps
      exact hnot hattempt
  -- every new blob is as long as the old one, so the images are, and the new one fits
  · intro hP hsealed
    refine ⟨?_, fun e he hformat => ?_⟩
    · rintro st' d d' rfl himage hd'
      obtain ⟨hnew, d1, -, hstored, himage', -, -⟩ := hrotated.renewed hv
      obtain rfl := Option.some.inj (hstored.symm.trans hd')
      rw [image_length himage', image_length himage, hnew.attempt.size_eq hP hsealed]
    · subst he
      cases hrotated with
      | late hflaky he => exact he.not_isFormat hformat
      | failed hstored hdir he =>
        rcases he with he | he | ⟨c, hc, he⟩
        · exact he.not_isFormat hformat
        · obtain ⟨-, n, -, -, -, hread⟩ := SecretStore.readAll_eq_err P he
          exact read_not_isFormat hsealed hread hformat
        · refine checkedImage_of_fits ?_ he
          unfold Fits
          rw [hc.size_eq hP hsealed]
          exact Reachable.fits hst

end Rotation

/-! ## A store with two entries, rotated -/

/-- A key for each first byte of the master key and of the salt, and last byte of `info`. -/
def freshKdf (salt ikm info : Bytes) : Fixed 32 :=
  ⟨ikm.headD 0 :: salt.headD 0 :: List.replicate 30 (info.getLastD 0), rfl⟩

def otherKey : MasterKey := ⟨List.replicate 32 2, by decide, by decide⟩

def ones : Fixed 16 := .fill 16 1

def putSeals : List StoreSeal :=
  [sampleSeal, { sampleSeal with
    name := ['b']
    plaintext := [6]
    blob := Aead.transparentBlob .aegis256 (.zero 16) (List.replicate 32 0) [6] }]

/-- What was sealed before under the sample key is sealed under the other one. -/
def rotatedSeals : List StoreSeal :=
  putSeals.map fun x => { x with
    generation := ⟨otherKey, ones, ones⟩
    blob := Aead.transparentBlob .aegis256 ones (List.replicate 32 1) x.plaintext }

def rotatedMade : List Aead.Encryption :=
  (putSeals ++ rotatedSeals).map fun x => (x.call (Aead.transparent freshKdf fun _ => true)).encryption

def rotatedUsed : List Derivation :=
  (putSeals ++ rotatedSeals).map (fun x => derivation x.generation x.name) ++
    [⟨sampleKey, ones, SecretStore.dekInfo ['a']⟩, ⟨sampleKey, ones, SecretStore.dekInfo ['b']⟩]

/-- Opening the store where there is none, and two calls of `put`. -/
def filledRun (P : Primitives) : Option (List (Request × Answer) × (Session × Process Bytes Unit)) :=
  serveAll (kernel Bytes ()) (failing fun _ => false) (serve P samplePath)
    [.reopen, .put ['a'] [5], .put ['b'] [6]] (.start sampleKey, .start)

def filledHandle : SecretStore where
  salt := .zero 16
  keyId := .zero 16
  entries := insertAll ∅ (putSeals.map fun x => (x.name, x.blob))
  path := samplePath
  master := sampleKey
  lock := some 0

def rotatedHandle : SecretStore where
  salt := ones
  keyId := ones
  entries := insertAll ∅ (rotatedSeals.map fun x => (x.name, x.blob))
  path := samplePath
  master := otherKey
  lock := some 0

theorem filled_reachable {P : Primitives}
    (h : (filledRun P).map (fun r => r.2.1.handle) = some (some filledHandle)) :
    SecretStore.Reachable P () samplePath filledHandle := by
  obtain ⟨⟨l, s, p⟩, hr, hs⟩ := Option.map_eq_some_iff.mp h
  exact ⟨fun _ _ => True, sampleKey, .start, p, l, s, serves_of_serveAll (fun _ => trivial) hr, hs⟩

theorem filled_rotates {P : Primitives}
    (h : ((kernel Bytes ()).play (drawing 1) (filledHandle.rotate P otherKey) .start).1 =
      .ok rotatedHandle) :
    ∃ p', Ends (kernel Bytes ()) (fun _ _ => True) (filledHandle.rotate P otherKey)
      (Process.start : Process Bytes Unit) (.ok rotatedHandle) p' :=
  ends_of_play (drawing 1) (fun _ => trivial) h

theorem rotated_unforged :
    let P := Aead.transparent freshKdf (· ∈ rotatedMade)
    Unforged P rotatedMade (putSeals ++ rotationSeals P filledHandle rotatedHandle) (· ∈ rotatedUsed) := by
  intro P
  have hseals : rotationSeals P filledHandle rotatedHandle = rotatedSeals.reverse := by decide +kernel
  have hmem (x : StoreSeal) : x ∈ putSeals ++ rotatedSeals.reverse ↔ x ∈ putSeals ++ rotatedSeals := by
    simp only [List.mem_append, List.mem_reverse]
  have hkeys : ∀ u ∈ rotatedUsed, ∀ v ∈ rotatedUsed, (u.dek P).key = (v.dek P).key → u = v := by
    decide +kernel
  rw [hseals]
  refine ⟨(Aead.transparent_ideal _ _).toUnforgeable, fun u v hu hv h => ?_, fun x hx => ?_, ?_⟩
  · exact hkeys u hu v hv (congrArg DerivedKey.key h)
  · exact List.mem_append_left _ (List.mem_map_of_mem ((hmem x).mp hx))
  · intro e he g name _ _
    obtain ⟨x, hx, rfl⟩ := List.mem_map.mp he
    exact ⟨x, (hmem x).mpr hx, rfl⟩

/-- Under the new key `get` answers what it did, with ciphers that are right; under the old one it
answers nothing, with ciphers that are not forged. -/
theorem rotate_all_or_nothing_sample :
    let P := Aead.transparent freshKdf fun _ => true
    let P' := Aead.transparent freshKdf (· ∈ rotatedMade)
    ((∃ p', Ends (kernel Bytes ()) (fun _ _ => True) (filledHandle.rotate P otherKey)
        (Process.start : Process Bytes Unit) (.ok rotatedHandle) p') ∧
      Gets P () rotatedHandle ['a'] (.ok [5]) ∧ Gets P () rotatedHandle ['b'] (.ok [6])) ∧
    (∃ p', Ends (kernel Bytes ()) (fun _ _ => True) (filledHandle.rotate P' otherKey)
        (Process.start : Process Bytes Unit) (.ok rotatedHandle) p') ∧
      Gets P' () { rotatedHandle with master := sampleKey } ['a'] (.err .auth) ∧
      Gets P' () { rotatedHandle with master := sampleKey } ['b'] (.err .auth) := by
  intro P P'
  constructor
  · have hreach : SecretStore.Reachable P () samplePath filledHandle :=
      filled_reachable (by decide +kernel)
    obtain ⟨p', hends⟩ := filled_rotates (P := P) (by decide +kernel)
    obtain ⟨hok, -, -, -⟩ := rotate_all_or_nothing hreach otherKey _ _ _ _ hends
    obtain ⟨-, -, -, -, -, -, hgets, -⟩ := hok rotatedHandle rfl
    have hvalid (n : Str) (hn : n ∈ filledHandle.entries) : ValidName n :=
      (Reachable.valid hreach).2 n hn
    have hcorrect : Aead.Correct P := Aead.transparent_correct freshKdf
    refine ⟨⟨p', hends⟩, (hgets hcorrect ['a'] _).mpr ?_, (hgets hcorrect ['b'] _).mpr ?_⟩
    · exact (gets_iff filledHandle (hvalid ['a'])).mpr (by decide +kernel)
    · exact (gets_iff filledHandle (hvalid ['b'])).mpr (by decide +kernel)
  · have hreach : SecretStore.Reachable P' () samplePath filledHandle :=
      filled_reachable (by decide +kernel)
    obtain ⟨p', hends⟩ := filled_rotates (P := P') (by decide +kernel)
    obtain ⟨hok, -, -, -⟩ := rotate_all_or_nothing hreach otherKey _ _ _ _ hends
    obtain ⟨-, -, -, -, -, -, -, hold⟩ := hok rotatedHandle rfl
    have hfresh : ∀ x ∈ putSeals, x.generation.salt ≠ rotatedHandle.salt := by decide +kernel
    have hne : filledHandle.master ≠ otherKey := by decide +kernel
    have hauth := hold _ _ _ rotated_unforged hfresh hne
    exact ⟨⟨p', hends⟩, hauth ['a'] (by decide +kernel) (by decide +kernel),
      hauth ['b'] (by decide +kernel) (by decide +kernel)⟩

end Krypto.Store
