import Krypto.Cli
import Krypto.Inspect.Blind

/-! The exit codes of `open` and `inspect`, over every byte string on stdin. -/

namespace Krypto.Cli
open Effect

def smooth : shell.Env
  | .sys (.lockPages _), c => c = .ok ()
  | .sys (.openRead _), c => c = none
  | .sys (.read _ _), c => c = none
  | .readToEnd _, c => c = none
  | .write _, c => c = none
  | _, _ => True

theorem smooth_total (op : Syscall) : ∃ c, smooth op c := by
  cases op with
  | readToEnd n => exact ⟨(none : Option IoError), rfl⟩
  | readChunk n => exact ⟨(.ok 0 : Except IoError Nat), trivial⟩
  | write data => exact ⟨(none : Option (IoError × Nat)), rfl⟩
  | now => exact ⟨(0 : Nat), trivial⟩
  | sys op =>
    cases op with
    | lockPages n => exact ⟨Except.ok (), rfl⟩
    | openRead n => exact ⟨(none : Option Fault), rfl⟩
    | read f n => exact ⟨(none : Option Fault), rfl⟩
    | getrandom n => exact ⟨Except.ok (.zero n), trivial⟩
    | processId => exact ⟨(0 : Nat), trivial⟩
    | write f data => exact ⟨(none : Option (Fault × Nat)), trivial⟩
    | close f => exact ⟨(), trivial⟩
    | _ => exact ⟨(none : Option Fault), trivial⟩

def smoothCalls : (kernel String ()).Env := fun op c => smooth (.sys op) c

abbrev Wp {α : Type} (p : Step α) (Q : Outcome Fail α → Shell → Prop) (s : Shell) : Prop :=
  wp shell smooth (fun _ _ _ => True) p Q s

abbrev CallWp {α : Type} (p : Action String α) (Q : Outcome Error α → Process String Unit → Prop)
    (s : Process String Unit) : Prop :=
  wp (kernel String ()) smoothCalls (fun _ _ _ => True) p Q s

/-! ## What the crate's calls end in -/

section Calls
variable {α : Type} {P : Primitives} {s : Process String Unit}

theorem callWp_lockedPages {n : Nat} {Q : Outcome Error Unit → Process String Unit → Prop}
    (h : Q (.ok ()) s) : CallWp (lockedPages n) Q s := by
  unfold lockedPages
  split_ifs
  · exact h
  · intro c hc
    have hc : c = Except.ok () := hc
    subst hc
    exact ⟨trivial, h⟩

theorem callWp_derive {master : MasterKey} {info salt : Bytes}
    {Q : Outcome Error DerivedKey → Process String Unit → Prop}
    (hin : MasterKey.checkInputs info salt = .ok ()) (h : Q (.ok (master.okm P info salt)) s) :
    CallWp (master.derive P info salt) Q s := by
  rw [MasterKey.derive, hin, lift_ok_bind, CallWp, wp_bind]
  exact callWp_lockedPages h

def keyIdOf (T : Tools) (master : MasterKey) : Fixed 16 where
  toList := (T.hmacSha256 (master.okm T.primitives MasterKey.KEY_ID_CONTEXT []).toFixed
    (Str.asBytes "key-id".toList)).toList.take 16
  length_eq := by
    rw [List.length_take, Fixed.length_eq]
    rfl

theorem callWp_keyId {T : Tools} {master : MasterKey}
    {Q : Outcome Error (Fixed 16) → Process String Unit → Prop} (h : Q (.ok (keyIdOf T master)) s) :
    CallWp (master.keyId T.hmacSha256 T.primitives) Q s := by
  rw [MasterKey.keyId, CallWp, wp_bind]
  apply callWp_derive (by decide +kernel)
  simp only [Prog.onOk, hmacSha256, DerivedKey.withKey_eq, lift_ok_bind]
  exact h

theorem callWp_openBlob {key : DerivedKey} {b : Bytes}
    {Q : Outcome Error SecretBuf → Process String Unit → Prop}
    (h : Q (Aead.openBody P key b) s) : CallWp (Aead.openBlob P key b) Q s := by
  rw [Aead.openBlob]
  generalize Aead.openBody P key b = r at h ⊢
  cases r with
  | ok pt =>
    rw [lift_ok_bind, CallWp, wp_bind]
    exact callWp_lockedPages h
  | err e => exact h
  | panic => exact h

def HoldsKey (s : Process String Unit) (path : String) (master : MasterKey) : Prop :=
  ∃ i, s.disk.dir path = some i ∧ s.disk.content i = master.key

theorem callWp_openRead {path : String} {i : Nat} {f : Except IoError Nat → Action String α}
    {Q : Outcome Error α → Process String Unit → Prop} (hdir : s.disk.dir path = some i)
    (h : CallWp (f (.ok s.nextFile)) Q (s.openFile i)) :
    CallWp (Krypto.ask (.openRead path) >>= f) Q s := by
  intro c hc
  have hc : c = none := hc
  subst hc
  refine ⟨trivial, ?_⟩
  simp only [kernel, Process.step, hdir]
  exact h

theorem callWp_read {file limit i : Nat} {f : Except IoError Bytes → Action String α}
    {Q : Outcome Error α → Process String Unit → Prop} (hfile : s.files file = some i)
    (h : CallWp (f (.ok ((s.disk.content i).take limit))) Q s) :
    CallWp (Krypto.ask (.read file limit) >>= f) Q s := by
  intro c hc
  have hc : c = none := hc
  subst hc
  refine ⟨trivial, ?_⟩
  simp only [kernel, Process.step, hfile]
  exact h

theorem callWp_dropFile {file : Nat} {Q : Outcome Error Unit → Process String Unit → Prop}
    (h : ∀ s', Q (.ok ()) s') : CallWp (dropFile file) Q s :=
  fun _ _ => ⟨trivial, h _⟩

theorem callWp_fromSecretFile {path : String} {master : MasterKey}
    {Q : Outcome Error MasterKey → Process String Unit → Prop} (hkey : HoldsKey s path master)
    (h : ∀ s', Q (.ok master) s') : CallWp (MasterKey.fromSecretFile path) Q s := by
  obtain ⟨i, hdir, hcontent⟩ := hkey
  have hwhole : (s.disk.content i).take (maxMasterKeyBytes + 1) = master.key := by
    rw [hcontent, List.take_of_length_le (Nat.le_succ_of_le master.length_le)]
  have hle : ¬master.key.length < 32 := Nat.not_lt.mpr master.le_length
  have hle' : ¬maxMasterKeyBytes < master.key.length := Nat.not_lt.mpr master.length_le
  apply callWp_openRead hdir
  rw [orIo_ok_bind, CallWp, wp_bind, Prog.always, wp_andThen]
  apply callWp_read (Process.openFile_files s i)
  rw [Process.openFile_disk, hwhole]
  show CallWp ((dropFile s.nextFile).andThen fun _ => .done (.ok master.key)) _ _
  rw [CallWp, wp_andThen]
  apply callWp_dropFile
  intro s'
  simp only [wp_done, Prog.onOk, dif_neg hle, dif_neg hle']
  rw [wp_bind]
  apply callWp_lockedPages
  exact h s'

end Calls

/-! ## What the commands end in -/

section Commands
variable {α : Type} {T : Tools} {s : Shell}

/-- The crate runs on the process of the shell, and leaves the streams alone. -/
def shellHosts : Hosts crate (kernel String ()) shell where
  choice _ c := c
  get := Shell.process
  put process t := { t with process }
  reply _ _ _ := rfl
  state _ _ _ := rfl
  get_put _ _ := rfl
  put_put _ _ _ := rfl
  put_get _ := rfl

theorem wp_mapErr {f : Error → Fail} {p : Action String α} {Q : Outcome Fail α → Shell → Prop}
    (h : CallWp p (fun r process => Q (r.mapErr f) { s with process }) s.process) :
    Wp (mapErr f p) Q s :=
  shellHosts.wp_embed (fun _ _ hc => hc) h

theorem wp_readStdin {f : Bytes → Step α} {Q : Outcome Fail α → Shell → Prop}
    (hle : s.stdin.length ≤ MAX_STDIN)
    (h : ∀ s', s'.process = s.process → Wp (f s.stdin) Q s') : Wp (readStdin >>= f) Q s := by
  have hwhole : s.stdin.take (MAX_STDIN + 1) = s.stdin := List.take_of_length_le (by omega)
  intro c hc
  have hc : c = none := hc
  subst hc
  refine ⟨trivial, ?_⟩
  simp only [shell, Shell.step, hwhole]
  show Wp ((if MAX_STDIN < s.stdin.length then Prog.throw tooMuch else pure s.stdin) >>= f) Q _
  rw [if_neg (Nat.not_lt.mpr hle)]
  exact h _ rfl

theorem wp_out {bytes : Bytes} {Q : Outcome Fail Unit → Shell → Prop} (h : ∀ s', Q (.ok ()) s') :
    Wp (out bytes) Q s := by
  intro c hc
  have hc : c = none := hc
  subst hc
  exact ⟨trivial, h _⟩

theorem wp_master {args : Args} {path : String} {key : MasterKey} {f : MasterKey → Step α}
    {Q : Outcome Fail α → Shell → Prop} (hpath : args.get "--key-file" = some path)
    (hfile : HoldsKey s.process path key)
    (h : ∀ s', s'.stdin = s.stdin → Wp (f key) Q s') : Wp (master args >>= f) Q s := by
  rw [master, Args.need_of_get hpath, Wp, wp_bind]
  show Wp (mapErr .krypto (MasterKey.fromSecretFile path)) _ s
  apply wp_mapErr
  apply callWp_fromSecretFile hfile
  intro process
  exact h _ rfl

def opened (T : Tools) (master : MasterKey) (key : DerivedKey) (b : Bytes) : Outcome Fail Bytes := do
  let id ← (Aead.blobKeyId b).mapErr .krypto
  if id ≠ (keyIdOf T master).toList then .err (.krypto .wrongKey)
  else (Aead.openBody T.primitives key b).mapErr .krypto

theorem wp_openInput {master : MasterKey} {key : DerivedKey} {b : Bytes} :
    Wp (openInput T master key b) (fun r _ => r = (opened T master key b >>= fun _ => .ok ())) s := by
  rw [openInput, Wp, wp_bind]
  apply wp_mapErr
  apply callWp_keyId
  show Wp (mapErr .krypto (Krypto.lift (Aead.blobKeyId b)) >>= _) _ _
  rw [Wp, wp_bind, opened]
  apply wp_mapErr
  cases Aead.blobKeyId b with
  | err e => rfl
  | panic => rfl
  | ok id =>
    simp only [Krypto.lift, wp_done, Outcome.mapErr, Outcome.ok_bind, Prog.onOk]
    by_cases hid : id = (keyIdOf T master).toList
    · rw [if_neg (not_not.mpr hid), if_neg (not_not.mpr hid), wp_bind]
      apply wp_mapErr
      apply callWp_openBlob
      cases Aead.openBody T.primitives key b with
      | ok pt => exact wp_out fun _ => rfl
      | err e => rfl
      | panic => rfl
    · rw [if_pos hid, if_pos hid]
      rfl

/-- `argv` is a call of `open`, and names a key file that holds `master`, and a context and a
salt that give `key`. -/
def CallsOpen (T : Tools) (argv : List String) (master : MasterKey) (key : DerivedKey) (s : Shell) :
    Prop :=
  ∃ args path context salt, parse argv = .ok args ∧ args.command = "open" ∧ args.help = false ∧
    args.get "--key-file" = some path ∧ HoldsKey s.process path master ∧
    args.get "--context" = some context ∧ args.get "--salt" = some salt ∧
    MasterKey.checkInputs (Str.asBytes context.toList) (Str.asBytes salt.toList) = .ok () ∧
    key = master.okm T.primitives (Str.asBytes context.toList) (Str.asBytes salt.toList)

theorem wp_run_open_key {argv : List String} {master : MasterKey} {key : DerivedKey}
    {Q : Outcome Fail Unit → Shell → Prop} (hcall : CallsOpen T argv master key s)
    (h : ∀ s', s'.stdin = s.stdin → Wp (readStdin >>= openInput T master key) Q s') :
    Wp (run T argv) Q s := by
  obtain ⟨args, path, context, salt, hparse, hcommand, hhelp, hpath, hfile, hcontext, hsalt, hin,
    rfl⟩ := hcall
  have halg : algOf args = .ok .aegis256 := by
    -- `open` takes no `--alg`
    have hnone : args.get "--alg" = none := by
      apply parse_get_none hparse hhelp
      rw [hcommand]
      decide
    rw [algOf, hnone]
  have hseal : ¬args.command = "seal" := by
    rw [hcommand]
    decide
  have hrun : run T argv = aead T args := by
    rw [run_of_command T hparse hhelp, command, hcommand]
    rfl
  rw [hrun, aead, halg, Args.need_of_get hcontext, Args.need_of_get hsalt]
  apply wp_master hpath hfile
  intro s1 hs1
  show Wp (mapErr .fromArgs _ >>= _) _ s1
  rw [Wp, wp_bind]
  apply wp_mapErr
  apply callWp_derive hin
  simp only [Outcome.mapErr, Prog.onOk, if_neg hseal, if_pos hcommand]
  exact h _ hs1

theorem wp_run_open {argv : List String} {master : MasterKey} {key : DerivedKey}
    (hcall : CallsOpen T argv master key s) (hle : s.stdin.length ≤ MAX_STDIN) :
    Wp (run T argv) (fun r _ => r = (opened T master key s.stdin >>= fun _ => .ok ())) s := by
  apply wp_run_open_key hcall
  intro s1 hs1
  rw [← hs1] at hle ⊢
  apply wp_readStdin hle
  intro s2 _
  exact wp_openInput

theorem inspect_changed (lib : Inspect.Lib) {b : Bytes} (hmagic : Aead.MAGIC <+: b) :
    (Inspect.inspect lib b).changed = decide (Aead.verdict b = .changed) := by
  rw [Inspect.inspect, Inspect.inspectAt_blob lib _ (Inspect.blob_eq hmagic)]
  cases Aead.verdict b <;> rfl

def CallsInspect (argv : List String) : Prop :=
  ∃ args, parse argv = .ok args ∧ args.command = "inspect" ∧ args.help = false

theorem wp_run_inspect {argv : List String} (hcall : CallsInspect argv)
    (hle : s.stdin.length ≤ MAX_STDIN) (hmagic : Aead.MAGIC <+: s.stdin) :
    Wp (run T argv) (fun r _ => r =
      if Aead.verdict s.stdin = .changed then .err (.krypto .auth) else .ok ()) s := by
  obtain ⟨args, hparse, hcommand, hhelp⟩ := hcall
  have hrun : run T argv = inspect T := by
    rw [run_of_command T hparse hhelp, command, hcommand]
    rfl
  rw [hrun, inspect]
  apply wp_readStdin hle
  intro s1 _
  rw [Wp, wp_bind]
  apply wp_out
  intro s2
  simp only [Prog.onOk, inspect_changed T.inspector hmagic, decide_eq_true_eq]
  split_ifs
  · rfl
  · rfl

end Commands

/-! ## The verdicts -/

def Exits (T : Tools) (argv : List String) (s : Shell) (Q : UInt8 → Prop) : Prop :=
  (∃ r s', Ends shell smooth (run T argv) s r s') ∧
    ∀ r s', Ends shell smooth (run T argv) s r s' → ∃ c, exitCode r = some c ∧ Q c

theorem Exits.of_wp {T : Tools} {argv : List String} {s : Shell} {Q : UInt8 → Prop}
    {r : Outcome Fail Unit} (h : Wp (run T argv) (fun r' _ => r' = r) s)
    (hr : ∃ c, exitCode r = some c ∧ Q c) : Exits T argv s Q := by
  refine ⟨exists_ends smooth_total _ _, fun r' s' hends => ?_⟩
  rw [h.ends hends]
  exact hr

theorem Exits.imp {T : Tools} {argv : List String} {s : Shell} {Q Q' : UInt8 → Prop}
    (h : Exits T argv s Q) (hQ : ∀ c, Q c → Q' c) : Exits T argv s Q' := by
  refine ⟨h.1, fun r s' hends => ?_⟩
  obtain ⟨c, hc, hq⟩ := h.2 r s' hends
  exact ⟨c, hc, hQ c hq⟩

theorem Exits.and {T : Tools} {argv : List String} {s : Shell} {Q Q' : UInt8 → Prop}
    (h : Exits T argv s Q) (h' : Exits T argv s Q') : ∃ c, Q c ∧ Q' c := by
  obtain ⟨r, s', hends⟩ := h.1
  obtain ⟨c, hc, hq⟩ := h.2 r s' hends
  obtain ⟨c', hc', hq'⟩ := h'.2 r s' hends
  rw [hc, Option.some.injEq] at hc'
  exact ⟨c, hq, hc' ▸ hq'⟩

def Authenticates (P : Primitives) (key : DerivedKey) (alg : Alg) (b : Bytes) : Prop :=
  ∃ pt, Aead.primitiveOpen P alg key.toFixed (Aead.nonceOf alg (b.take Aead.HEADER_LEN))
    (b.drop Aead.HEADER_LEN) (b.take Aead.HEADER_LEN) = .ok pt

/-- The exit code that `open` owes its caller for `b`. -/
def OpenCode (T : Tools) (master : MasterKey) (key : DerivedKey) (b : Bytes) (c : UInt8) : Prop :=
  match Aead.verdict b with
  | .notBlob => c = 1
  | .changed => c = 3
  | .header alg id =>
    if id ≠ (keyIdOf T master).toList then c = 4
    else c = 0 ∧ Authenticates T.primitives key alg b ∨ c = 3 ∧ ¬Authenticates T.primitives key alg b

theorem opened_code (T : Tools) (master : MasterKey) (key : DerivedKey) (b : Bytes) :
    ∃ c, exitCode (opened T master key b >>= fun _ => .ok ()) = some c ∧
      OpenCode T master key b c := by
  obtain ⟨hformat, hauth⟩ := Aead.blobKeyId_reads b
  unfold OpenCode
  cases hv : Aead.verdict b with
  | notBlob =>
    obtain ⟨m, hm⟩ := hformat.mpr hv
    exact ⟨1, by rw [opened, hm]; rfl, rfl⟩
  | changed => exact ⟨3, by rw [opened, hauth hv]; rfl, rfl⟩
  | header alg id =>
    have hread := Aead.verdict_header hv
    simp only [opened, Aead.blobKeyId_verdict hv, Outcome.mapErr, Outcome.ok_bind]
    by_cases hne : id ≠ (keyIdOf T master).toList
    · exact ⟨4, by rw [if_pos hne]; rfl, by rw [if_pos hne]⟩
    simp only [if_neg hne]
    have hopen := Aead.openBody_of_readHeader T.primitives key hread
    rcases Aead.openBody_of_isBlob T.primitives key (Aead.isBlob_of_readHeader hread) with he | ⟨pt, he⟩
    · refine ⟨3, by rw [he]; rfl, .inr ⟨rfl, ?_⟩⟩
      rintro ⟨pt, hpt⟩
      rw [← hopen, he] at hpt
      cases hpt
    · exact ⟨0, by rw [he]; rfl, .inl ⟨rfl, pt, hopen ▸ he⟩⟩

section Readers
variable {T : Tools} {s : Shell} {argv : List String} {master : MasterKey} {key : DerivedKey}

theorem open_exits (hcall : CallsOpen T argv master key s) (hle : s.stdin.length ≤ MAX_STDIN) :
    Exits T argv s (OpenCode T master key s.stdin) :=
  .of_wp (wp_run_open hcall hle) (opened_code T master key s.stdin)

theorem inspect_exits (hcall : CallsInspect argv) (hle : s.stdin.length ≤ MAX_STDIN)
    (hmagic : Aead.MAGIC <+: s.stdin) :
    Exits T argv s (· = if Aead.verdict s.stdin = .changed then 3 else 0) := by
  apply Exits.of_wp (wp_run_inspect hcall hle hmagic)
  split_ifs
  · exact ⟨3, rfl, rfl⟩
  · exact ⟨0, rfl, rfl⟩

theorem OpenCode.other_id {b : Bytes} (h : OpenCode T master key b 4) :
    Aead.blobKeyId b ≠ .ok (keyIdOf T master).toList := by
  unfold OpenCode at h
  cases hv : Aead.verdict b with
  | notBlob =>
    rw [hv] at h
    have h : (4 : UInt8) = 1 := h
    exact absurd h (by decide)
  | changed =>
    rw [hv] at h
    have h : (4 : UInt8) = 3 := h
    exact absurd h (by decide)
  | header alg id =>
    simp only [hv] at h
    split_ifs at h with hne
    · rw [Aead.blobKeyId_verdict hv]
      exact fun he => hne (Outcome.ok.inj he)
    · rcases h with ⟨h, -⟩ | ⟨h, -⟩
      · exact absurd h (by decide)
      · exact absurd h (by decide)

/-- Every reader of a header gives the verdict its bytes call for: the crate's functions, and
`open` and `inspect` by their exit codes. What `inspect` calls changed is changed for `open`
under every master key, and exit 4 is for another id only. -/
theorem one_verdict {ν ι : Type} [DecidableEq ν] [DecidableEq ι] (me : ι) (T : Tools) (b : Bytes)
    (hb : b.length ≤ MAX_STDIN) :
    (∀ key, Aead.EndsIn (ν := ν) me (Aead.openBlob T.primitives key b) (Aead.Reads b)) ∧
    (∀ old new newKeyId, Aead.EndsIn (ν := ν) me (Aead.reseal T.primitives old new newKeyId b)
      (Aead.Reads b)) ∧
    Aead.Reads b (Aead.blobKeyId b) ∧
    (∀ argv master key s, s.stdin = b → CallsOpen T argv master key s →
      Exits T argv s (OpenCode T master key b)) ∧
    (∀ argv s, s.stdin = b → CallsInspect argv → Aead.MAGIC <+: b →
      Exits T argv s (· = if Aead.verdict b = .changed then 3 else 0)) ∧
    (∀ argv s argv' master key s', s.stdin = b → s'.stdin = b → CallsInspect argv →
      CallsOpen T argv' master key s' → Aead.MAGIC <+: b → Exits T argv s (· = 3) →
      Exits T argv' s' (· = 3)) ∧
    (∀ argv master key s, s.stdin = b → CallsOpen T argv master key s →
      Exits T argv s (fun c => c = 4 → Aead.blobKeyId b ≠ .ok (keyIdOf T master).toList)) := by
  refine ⟨fun _ => Aead.openBlob_reads, fun _ _ _ => Aead.reseal_reads,
    Aead.blobKeyId_reads b, ?_, ?_, ?_, ?_⟩
  · rintro argv master key s rfl hcall
    exact open_exits hcall hb
  · rintro argv s rfl hcall hmagic
    exact inspect_exits hcall hb hmagic
  · rintro argv s argv' master key s' rfl hs' hcall hcall' hmagic h3
    obtain ⟨c, rfl, hc⟩ := h3.and (inspect_exits hcall hb hmagic)
    have hchanged : Aead.verdict s.stdin = .changed := by
      by_contra hne
      rw [if_neg hne] at hc
      exact absurd hc (by decide)
    rw [← hs'] at hb hchanged
    refine (open_exits hcall' hb).imp fun c hc => ?_
    rwa [OpenCode, hchanged] at hc
  · rintro argv master key s rfl hcall
    refine (open_exits hcall hb).imp fun c hc h4 => ?_
    subst h4
    exact hc.other_id

end Readers

section Sample

def sampleTools : Tools where
  primitives := Aead.transparent (fun _ _ _ => .zero 32) fun _ => false
  hmacSha256 _ _ := .fill 32 7
  inspector := {
    sha256 := fun _ => []
    toLowercase := id
    toUppercase := id
    looksRandom := fun _ => false }
  curves := {
    ed25519Point := fun _ => false
    ed25519Holds := fun _ _ _ => false
    p256Point := fun _ => false
    p256Signature := fun _ => false
    p256Holds := fun _ _ _ => false }
  argon2 _ _ _ := .ok (.zero 32)
  millis := Str.decimal
  microsPerRound := Str.decimal

def sampleShell (b : Bytes) : Shell where
  process := { (Process.start : Process String Unit) with
    disk := ((Disk.empty : Disk String).create "key" 0o600).write 0 (List.replicate 32 0) }
  stdin := b
  stdout := []

def sampleOpen : List String := ["open", "--salt", "s", "--key-file", "key", "--context", "c"]

theorem one_verdict_sample :
    let id : Fixed 16 := ⟨List.replicate 16 7, rfl⟩
    let routed := Aead.headerBytes .aegis256 (.zero 16) []
    let forged := Aead.headerBytes .aegis256 id []
    let changed := forged.set 5 9
    Exits sampleTools sampleOpen (sampleShell routed) (· = 4) ∧
      Exits sampleTools sampleOpen (sampleShell forged) (· = 3) ∧
      Exits sampleTools ["inspect"] (sampleShell changed) (· = 3) ∧
      Exits sampleTools sampleOpen (sampleShell changed) (· = 3) := by
  intro id routed forged changed
  let master : MasterKey := ⟨List.replicate 32 0, by decide, by decide⟩
  let key := master.okm sampleTools.primitives (Str.asBytes ['c']) (Str.asBytes ['s'])
  have hcall (b : Bytes) : CallsOpen sampleTools sampleOpen master key (sampleShell b) :=
    ⟨⟨"open", [("--salt", "s"), ("--key-file", "key"), ("--context", "c")], false⟩, "key", "c", "s",
      by decide +kernel, rfl, rfl, by decide +kernel, ⟨0, rfl, rfl⟩, by decide +kernel,
      by decide +kernel, by decide +kernel, rfl⟩
  have hinspect : CallsInspect ["inspect"] := ⟨⟨"inspect", [], false⟩, by decide +kernel, rfl, rfl⟩
  have hverdict (b : Bytes) (hb : b.length ≤ MAX_STDIN) :=
    one_verdict () sampleTools b hb (ν := Unit)
  have hrouted : Aead.verdict routed = .header .aegis256 (Fixed.zero 16).toList := by decide +kernel
  have hforged : Aead.verdict forged = .header .aegis256 id.toList := by decide +kernel
  have hchanged : Aead.verdict changed = .changed := by decide +kernel
  have hrefused : Aead.primitiveOpen sampleTools.primitives .aegis256 key.toFixed
      (Aead.nonceOf .aegis256 (forged.take Aead.HEADER_LEN)) (forged.drop Aead.HEADER_LEN)
      (forged.take Aead.HEADER_LEN) = .err .auth := by decide +kernel
  obtain ⟨-, -, -, hopen, -, -, -⟩ := hverdict routed (by decide +kernel)
  obtain ⟨-, -, -, hopen', -, -, -⟩ := hverdict forged (by decide +kernel)
  obtain ⟨-, -, -, -, hinspected, himplies, -⟩ := hverdict changed (by decide +kernel)
  have hexit3 : Exits sampleTools ["inspect"] (sampleShell changed) (· = 3) := by
    refine (hinspected _ _ rfl hinspect (by decide +kernel)).imp fun c hc => ?_
    rw [hc, if_pos hchanged]
  refine ⟨?_, ?_, hexit3, himplies _ _ _ _ _ _ rfl rfl hinspect (hcall changed)
    (by decide +kernel) hexit3⟩
  · refine (hopen _ _ _ _ rfl (hcall routed)).imp fun c hc => ?_
    rw [OpenCode, hrouted] at hc
    have hother : (Fixed.zero 16).toList ≠ (keyIdOf sampleTools master).toList := by decide +kernel
    simpa only [if_pos hother] using hc
  · refine (hopen' _ _ _ _ rfl (hcall forged)).imp fun c hc => ?_
    rw [OpenCode, hforged] at hc
    have hsame : ¬id.toList ≠ (keyIdOf sampleTools master).toList := by decide +kernel
    simp only [if_neg hsame] at hc
    rcases hc with ⟨-, pt, hpt⟩ | ⟨hc, -⟩
    · rw [hrefused] at hpt
      cases hpt
    · exact hc

end Sample
end Krypto.Cli
