import Krypto.Aead.Authentic
import Krypto.Cli.ExitCode
import Krypto.Cli.Grammar

/-! What `krypto-cli` writes to stdout, whatever fails on the way: the answer to the
call, or the first bytes of it where the write is cut short. -/

namespace Krypto.Cli
open Effect

/-- The key file of a call holds `master`, which gives `key` for its context and its salt. -/
structure Keyed (T : Tools) (s : Shell) (args : Args) (master : MasterKey) (key : DerivedKey) : Prop where
  file : ∃ path, args.get "--key-file" = some path ∧ HoldsKey s.process path master
  derived : ∃ context salt, args.get "--context" = some context ∧ args.get "--salt" = some salt ∧
    key = master.okm T.primitives (Str.asBytes context.toList) (Str.asBytes salt.toList)

inductive Holds (T : Tools) (args : Args) (message : Bytes) : Prop where
  | intro {check : Bytes → Bytes → Bytes → Outcome Error Unit} {publicKey signature : Bytes}
    (hcheck : args.get "--alg" = some "ed25519" ∧ check = Sign.ed25519Verify T.curves ∨
      args.get "--alg" = some "p256" ∧ check = Sign.ecdsaP256Verify T.curves)
    (hpublic : hexArg args "--public" = .ok publicKey)
    (hsignature : hexArg args "--signature" = .ok signature)
    (hholds : check publicKey message signature = .ok ())

def lineOf (text : Str) : Bytes := Str.asBytes (text ++ ['\n'])

/-- What a command prints for all of stdin and the key that its key file holds. -/
inductive Prints (T : Tools) (s : Shell) (args : Args) : String → Bytes → Prop where
  | version : Prints T s args "version" (lineOf VERSION.toList)
  | inspect : Prints T s args "inspect" (lineOf (Inspect.inspect T.inspector s.stdin).report)
  | keyid {path : String} {master : MasterKey} (hpath : args.get "--key-file" = some path)
    (hfile : HoldsKey s.process path master) :
    Prints T s args "keyid" (lineOf (Hex.encode (keyIdOf T master).toList))
  | sealed {master : MasterKey} {key : DerivedKey} {alg : Alg} {nonce : Fixed alg.nonceLen}
    {blob : Bytes} (hkey : Keyed T s args master key) (halg : algOf args = .ok alg)
    (hblob : Aead.sealWith T.primitives nonce.toList key (keyIdOf T master) s.stdin alg = .ok blob) :
    Prints T s args "seal" blob
  | opened {master : MasterKey} {key : DerivedKey} {plaintext : Bytes} (hkey : Keyed T s args master key)
    (hid : Aead.blobKeyId s.stdin = .ok (keyIdOf T master).toList)
    (hopen : Aead.openBody T.primitives key s.stdin = .ok plaintext) :
    Prints T s args "open" plaintext
  | mac {master : MasterKey} {key : DerivedKey} (hkey : Keyed T s args master key) :
    Prints T s args "mac" (lineOf (Hex.encode (T.hmacSha256 key.toFixed s.stdin).toList))
  | sha256 : Prints T s args "sha256" (lineOf (Hex.encode (T.inspector.sha256 s.stdin)))
  | verify (h : Holds T args s.stdin) : Prints T s args "verify" (lineOf "the signature holds".toList)
  /-- One line for each preset, and for sealing and opening, of times that are the clock's. -/
  | benched (interactive balanced high sealing opening : Nat) :
    Prints T s args "bench" (Str.asBytes (presetLine T "interactive" interactive ++
      presetLine T "balanced" balanced ++ presetLine T "high" high ++
      roundsLine T "seal" sealing ++ roundsLine T "open" opening))

inductive Answer (T : Tools) (s : Shell) (args : Args) : Bytes → Prop where
  | overview (hhelp : args.help = true) (hfirst : isHelp args.command = true) :
    Answer T s args (lineOf overview.toList)
  | usage {text : String} (hhelp : args.help = true) (htext : helpOf args.command = .ok text) :
    Answer T s args (lineOf text.toList)
  | command {text : Bytes} (hhelp : args.help = false) (h : Prints T s args args.command text) :
    Answer T s args text

def Fail.Known (fail : Fail) : Prop := fail.code ∈ ([1, 2, 3, 4] : List UInt8)

instance (fail : Fail) : Decidable fail.Known := inferInstanceAs (Decidable (_ ∈ _))

inductive Ended (T : Tools) (s : Shell) (args : Args) : Outcome Fail Unit → Bytes → Prop where
  | silent {fail : Fail} (h : fail.Known) : Ended T s args (.err fail) []
  | answered {text : Bytes} (h : Answer T s args text) : Ended T s args (.ok ()) text
  /-- A changed blob is reported, and is exit 3. -/
  | changed {text : Bytes} (h : Answer T s args text) (hcommand : args.command = "inspect")
    (hchanged : (Inspect.inspect T.inspector s.stdin).changed = true) :
    Ended T s args (.err (.krypto .auth)) text
  | cut {text : Bytes} {e : IoError} {n : Nat} (h : Answer T s args text) :
    Ended T s args (.err (.io ("writing to stdout failed: " ++ e.message))) (text.take n)

theorem known_krypto (e : Error) : (Fail.krypto e).Known := by
  cases e <;> exact of_decide_eq_true rfl

theorem known_fromArgs (e : Error) : (Fail.fromArgs e).Known := by
  cases e <;> exact of_decide_eq_true rfl

theorem known_usage (m : Message) : (Fail.usage m).Known := of_decide_eq_true rfl

theorem known_io (m : Message) : (Fail.io m).Known := of_decide_eq_true rfl

/-! ## The steps of a command -/

section Steps
variable {E : shell.Env} {T : Tools} {args : Args} {s0 s : Shell} {α : Type}

/-- Every run of `p` from `s` ends as a call may that began at `s0`. -/
abbrev Tells (E : shell.Env) (T : Tools) (args : Args) (s0 : Shell) (p : Step Unit) (s : Shell) : Prop :=
  wp shell E (fun _ _ _ => True) p
    (fun r s' => ∃ written, s'.stdout = s0.stdout ++ written ∧ Ended T s0 args r written) s

theorem tells_err {fail : Fail} (h : fail.Known) (hs : s.stdout = s0.stdout) :
    Tells E T args s0 (Prog.throw fail) s :=
  ⟨[], by rw [List.append_nil, hs], .silent h⟩

theorem tells_lift {r : Outcome Fail α} {f : α → Step Unit} (hs : s.stdout = s0.stdout)
    (hpanic : r ≠ .panic) (herr : ∀ fail, r = .err fail → fail.Known)
    (hok : ∀ a, r = .ok a → Tells E T args s0 (f a) s) : Tells E T args s0 (lift r >>= f) s := by
  cases r with
  | ok a => exact hok a rfl
  | err fail => exact tells_err (herr fail rfl) hs
  | panic => exact absurd rfl hpanic

theorem tells_need {flag : String} {f : String → Step Unit} (hs : s.stdout = s0.stdout)
    (hok : ∀ value, args.get flag = some value → Tells E T args s0 (f value) s) :
    Tells E T args s0 (lift (args.need flag) >>= f) s := by
  apply tells_lift hs (need_ne_panic args flag)
  · intro fail hfail
    unfold Args.need at hfail
    cases hget : args.get flag with
    | none =>
      rw [hget] at hfail
      cases hfail
      exact known_usage _
    | some value =>
      rw [hget] at hfail
      cases hfail
  · intro value hvalue
    exact hok value (Outcome.ofOption_eq_ok.mp hvalue)

/-- A call into the crate that only asks for randomness and pages. -/
theorem wp_private {f : Error → Fail} {p : Action String α} {Q : Outcome Error α → Prop}
    (h : Quiet Call.Private (fun _ _ => True) p Q) (s : Shell) :
    wp shell E (fun _ _ _ => True) (mapErr f p)
      (fun r s' => (∃ r', Q r' ∧ r = r'.mapErr f) ∧ s' = s) s := by
  have hwp : wp (kernel String ()) (fun _ _ => True) (fun _ _ _ => True) p
      (fun r t => Q r ∧ t = s.process) s.process := by
    apply Quiet.wp (h.replies fun _ _ _ => trivial)
    intro op c t hop _
    cases op <;> first | exact ⟨rfl, trivial⟩ | exact absurd hop id
  apply shellHosts.wp_embed (E := fun _ _ => True) (fun _ _ _ => trivial)
  refine hwp.imp fun r t hr => ⟨⟨r, hr.1, rfl⟩, ?_⟩
  rw [hr.2]
  rfl

theorem tells_private {f : Error → Fail} {p : Action String α} {k : α → Step Unit}
    {Q : Outcome Error α → Prop} (h : Quiet Call.Private (fun _ _ => True) p Q)
    (hs : s.stdout = s0.stdout) (hf : ∀ e, (f e).Known) (hpanic : ¬Q .panic)
    (hok : ∀ a, Q (.ok a) → Tells E T args s0 (k a) s) : Tells E T args s0 (mapErr f p >>= k) s := by
  rw [Tells, wp_bind]
  refine (wp_private h s).imp ?_
  rintro r t ⟨⟨r', hr', rfl⟩, rfl⟩
  cases r' with
  | ok a => exact hok a hr'
  | err e => exact tells_err (hf e) hs
  | panic => exact absurd hr' hpanic

/-- The last step of a command. -/
theorem wp_write {text : Bytes} {Q : Outcome Fail Unit → Shell → Prop}
    (hok : Q (.ok ()) { s with stdout := s.stdout ++ text })
    (hcut : ∀ (e : IoError) n, Q (.err (.io ("writing to stdout failed: " ++ e.message)))
      { s with stdout := s.stdout ++ text.take n }) :
    wp shell E (fun _ _ _ => True) (out text) Q s := by
  intro c _
  refine ⟨trivial, ?_⟩
  rcases c with - | ⟨e, n⟩
  · exact hok
  · exact hcut e n

theorem tells_out {text : Bytes} (hs : s.stdout = s0.stdout) (h : Answer T s0 args text) :
    Tells E T args s0 (out text) s := by
  apply wp_write
  · exact ⟨text, by rw [hs], .answered h⟩
  · exact fun e n => ⟨text.take n, by rw [hs], .cut h⟩

theorem tells_readStdin {f : Bytes → Step Unit} (hs : s.stdout = s0.stdout)
    (hin : s.stdin = s0.stdin)
    (hok : ∀ t, t.stdout = s0.stdout → t.process = s.process → Tells E T args s0 (f s0.stdin) t) :
    Tells E T args s0 (readStdin >>= f) s := by
  intro c _
  refine ⟨trivial, ?_⟩
  rcases c with - | e
  · show Tells E T args s0 ((if MAX_STDIN < (s.stdin.take (MAX_STDIN + 1)).length then
      Prog.throw tooMuch else pure (s.stdin.take (MAX_STDIN + 1))) >>= f) _
    by_cases hlong : MAX_STDIN < (s.stdin.take (MAX_STDIN + 1)).length
    · rw [if_pos hlong]
      exact tells_err (known_usage _) hs
    · -- not more than fits was read, so all of it was
      have hwhole : s.stdin.take (MAX_STDIN + 1) = s0.stdin := by
        rw [← hin]
        rw [List.length_take] at hlong
        apply List.take_of_length_le
        omega
      rw [if_neg hlong, hwhole]
      exact hok _ hs rfl
  · exact tells_err (known_io _) hs

/-- The loop ends with all of stdin behind what is held, unless that is too much or a read fails. -/
theorem wp_readAll (fuel : Nat) {held : Growing} (hheld : held.buf.length ≤ MAX_STDIN)
    (hfuel : MAX_STDIN + 1 < fuel + held.buf.length) :
    wp shell E (fun _ _ _ => True) (readChunks fuel held)
      (fun r t => t.stdout = s.stdout ∧ t.process = s.process ∧
        ((∃ fail, r = .err fail ∧ fail.Known ∧ (MAX_STDIN < held.buf.length + s.stdin.length ∨
          ∃ n e, E (.readChunk n) (.error e))) ∨ r = .ok (held.buf ++ s.stdin))) s := by
  induction fuel generalizing held s with
  | zero => omega
  | succ fuel ih =>
    intro c hc
    refine ⟨trivial, ?_⟩
    rcases c with e | n
    · exact ⟨rfl, rfl, Or.inl ⟨_, rfl, known_io _, Or.inr ⟨_, e, hc⟩⟩⟩
    show wp shell E (fun _ _ _ => True)
      (afterChunk fuel held (.ok (s.stdin.take (min (64 * 1024) (n + 1))))) _ _
    generalize hsize : min (64 * 1024) (n + 1) = size
    have hpos : 0 < size := by omega
    cases hchunk : s.stdin.take size with
    | nil =>
      have hend : s.stdin = [] := by
        cases hstdin : s.stdin with
        | nil => rfl
        | cons b rest =>
          rw [hstdin, List.take_eq_nil_iff] at hchunk
          rcases hchunk with hzero | hnil
          · omega
          · cases hnil
      refine ⟨rfl, rfl, Or.inr ?_⟩
      rw [hend, List.append_nil]
    | cons b chunk =>
      by_cases hover : MAX_STDIN < held.buf.length + (b :: chunk).length
      · have hextend : held.extend (b :: chunk) = .err tooMuch := if_pos hover
        show wp shell E (fun _ _ _ => True) (lift (held.extend (b :: chunk)) >>= readChunks fuel) _ _
        rw [hextend]
        refine ⟨rfl, rfl, Or.inl ⟨_, rfl, known_usage _, Or.inl ?_⟩⟩
        rw [← hchunk, List.length_take] at hover
        omega
      · obtain ⟨capacity, hextend⟩ := Growing.extend_ok (Nat.le_of_not_lt hover)
        show wp shell E (fun _ _ _ => True) (lift (held.extend (b :: chunk)) >>= readChunks fuel) _ _
        rw [hextend]
        have hlength : (held.buf ++ b :: chunk).length = held.buf.length + (b :: chunk).length :=
          List.length_append
        have hless : MAX_STDIN + 1 < fuel + (held.buf ++ b :: chunk).length := by
          rw [hlength, List.length_cons]
          omega
        have hrest := @ih ⟨held.buf ++ b :: chunk, capacity⟩
          (s := { s with stdin := s.stdin.drop size }) (hlength ▸ Nat.le_of_not_lt hover) hless
        subst hsize
        refine hrest.imp ?_
        rintro r t ⟨hout, hprocess, hr⟩
        refine ⟨hout, hprocess, hr.imp ?_ fun hr => ?_⟩
        · rintro ⟨fail, hfail, hknown, hlong | herror⟩
          · refine ⟨fail, hfail, hknown, Or.inl ?_⟩
            rw [hlength, List.length_drop, ← hchunk, List.length_take] at hlong
            omega
          · exact ⟨fail, hfail, hknown, Or.inr herror⟩
        · rw [hr, List.append_assoc, ← hchunk, List.take_append_drop]

theorem tells_readStdinSecret {f : SecretBuf → Step Unit} (hs : s.stdout = s0.stdout)
    (hin : s.stdin = s0.stdin)
    (hok : ∀ t, t.stdout = s0.stdout → t.process = s.process → Tells E T args s0 (f s0.stdin) t) :
    Tells E T args s0 (readStdinSecret >>= f) s := by
  rw [readStdinSecret, Tells, wp_bind, wp_bind]
  refine (wp_readAll (MAX_STDIN + 2) (Nat.zero_le _) (by simp)).imp ?_
  rintro r t ⟨hout, hprocess, ⟨fail, rfl, hfail, -⟩ | rfl⟩
  · exact tells_err (E := E) hfail (hout.trans hs)
  · show wp shell E _ (mapErr .krypto (lockedPages ([] ++ s.stdin).length) >>= fun _ =>
      pure ([] ++ s.stdin)) _ t
    rw [List.nil_append, hin, wp_bind]
    refine (wp_private (lockedPages_quiet _) t).imp ?_
    rintro r t' ⟨⟨r', hr', rfl⟩, rfl⟩
    rcases hr' with rfl | ⟨e, -, -, rfl⟩
    · exact hok _ (hout.trans hs) hprocess
    · exact tells_err (E := E) (known_krypto _) (hout.trans hs)

end Steps

/-! ## The key of a call -/

section Keys
variable {E : shell.Env} {T : Tools} {args : Args} {s0 s : Shell} {α : Type}

/-- What comes out of a key file is the key that it holds. -/
theorem wp_fromSecretFile {E : (kernel String ()).Env} {path : String} {t : Process String Unit} :
    wp (kernel String ()) E (fun _ _ _ => True) (MasterKey.fromSecretFile path)
      (fun r t' => t'.disk = t.disk ∧ ((∃ e, r = .err e) ∨
        ∃ master, r = .ok master ∧ HoldsKey t path master)) t := by
  intro c _
  refine ⟨trivial, ?_⟩
  rcases c with - | fault
  swap
  · exact ⟨rfl, Or.inl ⟨_, rfl⟩⟩
  cases hdir : t.disk.dir path with
  | none =>
    have hreply : (kernel String ()).step (.openRead path) none t = (.error Process.notFound, t) := by
      simp only [kernel, Process.step, hdir]
    rw [hreply]
    exact ⟨rfl, Or.inl ⟨_, rfl⟩⟩
  | some i =>
    have hreply : (kernel String ()).step (.openRead path) none t = (.ok t.nextFile, t.openFile i) := by
      simp only [kernel, Process.step, hdir]
    rw [hreply]
    show wp _ _ _ (Prog.always _ (dropFile t.nextFile) >>= _) _ _
    rw [wp_bind, Prog.always, wp_andThen]
    intro c _
    refine ⟨trivial, ?_⟩
    rcases c with - | fault
    · have hread : (kernel String ()).step (.read t.nextFile (maxMasterKeyBytes + 1)) none
          (t.openFile i) = (.ok ((t.disk.content i).take (maxMasterKeyBytes + 1)), t.openFile i) := by
        simp only [kernel, Process.step, Process.openFile_files, Process.openFile_disk]
      rw [hread]
      intro c _
      refine ⟨trivial, ?_⟩
      show wp _ _ _ (if h : _ then _ else _) _ _
      split_ifs with hshort hlong
      · exact ⟨rfl, Or.inl ⟨_, rfl⟩⟩
      · exact ⟨rfl, Or.inl ⟨_, rfl⟩⟩
      · rw [wp_bind]
        refine (Quiet.wp (lockedPages_quiet _) ?_).imp ?_
        · intro op c u hop _
          cases op <;> first | exact ⟨rfl, trivial⟩ | exact absurd hop id
        · rintro r u ⟨hr, rfl⟩
          rcases hr with rfl | ⟨e, -, -, rfl⟩
          · refine ⟨rfl, Or.inr ⟨_, rfl, i, hdir, ?_⟩⟩
            rw [List.length_take] at hlong
            exact (List.take_of_length_le (by omega)).symm
          · exact ⟨rfl, Or.inl ⟨_, rfl⟩⟩
    · intro c _
      exact ⟨trivial, rfl, Or.inl ⟨_, rfl⟩⟩

theorem tells_master {f : MasterKey → Step Unit} (hs : s.stdout = s0.stdout)
    (hdisk : s.process.disk = s0.process.disk)
    (hok : ∀ master path t, args.get "--key-file" = some path → HoldsKey s0.process path master →
      t.stdout = s0.stdout → t.stdin = s.stdin → Tells E T args s0 (f master) t) :
    Tells E T args s0 (master args >>= f) s := by
  rw [master, Prog.bind_assoc]
  apply tells_need hs
  intro path hpath
  rw [Tells, wp_bind]
  apply shellHosts.wp_embed (E := fun _ _ => True) (fun _ _ _ => trivial)
  refine wp_fromSecretFile.imp ?_
  rintro r t ⟨-, ⟨e, rfl⟩ | ⟨master, rfl, i, hdir, hcontent⟩⟩
  · exact tells_err (known_krypto e) hs
  · refine hok master path _ hpath ⟨i, ?_, ?_⟩ hs rfl
    · rw [← hdisk]
      exact hdir
    · rw [← hdisk]
      exact hcontent

end Keys

/-! ## The commands -/

section Commands
variable {E : shell.Env} {T : Tools} {args : Args} {s0 s : Shell} {α : Type} {ν : Type}

theorem checkInputs_cases (info salt : Bytes) :
    MasterKey.checkInputs info salt = .ok () ∨ ∃ m, MasterKey.checkInputs info salt = .err (.format m) := by
  unfold MasterKey.checkInputs MasterKey.boundInput
  split_ifs
  · exact Or.inr ⟨_, rfl⟩
  · exact Or.inr ⟨_, rfl⟩
  · exact Or.inr ⟨_, rfl⟩
  · exact Or.inr ⟨_, rfl⟩
  · exact Or.inl rfl

theorem derive_quiet (P : Primitives) (master : MasterKey) (info salt : Bytes)
    {A : (op : Call ν) → op.Reply → Prop} :
    Quiet Call.Private A (master.derive P info salt) fun r =>
      r = .ok (master.okm P info salt) ∨ ∃ e, r = .err e := by
  rw [MasterKey.derive]
  rcases checkInputs_cases info salt with hin | ⟨m, hin⟩
  · rw [hin, lift_ok_bind]
    refine (lockedPages_quiet 32).bind (fun _ _ => Or.inl rfl) (fun e _ => Or.inr ⟨e, rfl⟩) ?_
    rintro (h | ⟨e, -, -, h⟩)
    · cases h
    · cases h
  · rw [hin, lift_err_bind]
    exact Or.inr ⟨_, rfl⟩

theorem keyId_quiet (T : Tools) (master : MasterKey) {A : (op : Call ν) → op.Reply → Prop} :
    Quiet Call.Private A (master.keyId T.hmacSha256 T.primitives) fun r =>
      r = .ok (keyIdOf T master) ∨ ∃ e, r = .err e := by
  rw [MasterKey.keyId]
  refine (derive_quiet _ _ _ _).bind (fun key hkey => ?_) (fun e _ => Or.inr ⟨e, rfl⟩) ?_
  · rcases hkey with hkey | ⟨e, hkey⟩
    · cases hkey
      simp only [hmacSha256, DerivedKey.withKey_eq, lift_ok_bind]
      exact Or.inl rfl
    · cases hkey
  · rintro (h | ⟨e, h⟩)
    · cases h
    · cases h

theorem tells_value {f : Error → Fail} {p : Action String α} {k : α → Step Unit} {a : α}
    (h : Quiet Call.Private (fun _ _ => True) p fun r => r = .ok a ∨ ∃ e, r = .err e)
    (hs : s.stdout = s0.stdout) (hf : ∀ e, (f e).Known) (hok : Tells E T args s0 (k a) s) :
    Tells E T args s0 (mapErr f p >>= k) s := by
  apply tells_private h hs hf
  · rintro (h | ⟨e, h⟩)
    · cases h
    · cases h
  · rintro b (h | ⟨e, h⟩)
    · cases h
      exact hok
    · cases h

theorem tells_keyId {master : MasterKey} {k : Fixed 16 → Step Unit} (hs : s.stdout = s0.stdout)
    (hok : Tells E T args s0 (k (keyIdOf T master)) s) :
    Tells E T args s0 (mapErr .krypto (master.keyId T.hmacSha256 T.primitives) >>= k) s :=
  tells_value (keyId_quiet T master) hs known_krypto hok

theorem openBody_ne_panic (P : Primitives) (key : DerivedKey) (b : Bytes) :
    Aead.openBody P key b ≠ .panic := by
  by_cases h : Aead.IsBlob b
  · rcases Aead.openBody_of_isBlob P key h with he | ⟨pt, he⟩
    · exact he ▸ Outcome.err_ne_panic _
    · exact he ▸ Outcome.ok_ne_panic _
  · obtain ⟨m, hm⟩ := Aead.openBody_of_not_isBlob P key h
    exact hm ▸ Outcome.err_ne_panic _

theorem blobKeyId_ne_panic (b : Bytes) : Aead.blobKeyId b ≠ .panic := by
  by_cases h : Aead.IsBlob b
  · rcases Aead.blobKeyId_of_isBlob h with he | ⟨id, he⟩
    · exact he ▸ Outcome.err_ne_panic _
    · exact he ▸ Outcome.ok_ne_panic _
  · obtain ⟨m, hm⟩ := Aead.blobKeyId_of_not_isBlob h
    exact hm ▸ Outcome.err_ne_panic _

theorem tells_openInput {master : MasterKey} {key : DerivedKey} (hhelp : args.help = false)
    (hcommand : args.command = "open") (hkey : Keyed T s0 args master key)
    (hs : s.stdout = s0.stdout) : Tells E T args s0 (openInput T master key s0.stdin) s := by
  apply tells_keyId hs
  have hread : Quiet Call.Private (fun _ _ => True)
      (Krypto.lift (Aead.blobKeyId s0.stdin) : Action String Bytes) (· = Aead.blobKeyId s0.stdin) := rfl
  apply tells_private hread hs known_krypto fun h => blobKeyId_ne_panic _ h.symm
  intro id hid
  by_cases hsame : id = (keyIdOf T master).toList
  · rw [if_neg (not_not.mpr hsame)]
    apply tells_private (Aead.openBlob_quiet T.primitives key s0.stdin) hs known_krypto
    · rintro (h | ⟨pt, e, -, -, h⟩)
      · exact openBody_ne_panic _ _ _ h.symm
      · cases h
    · rintro plaintext (h | ⟨pt, e, -, -, h⟩)
      · refine tells_out hs (.command hhelp ?_)
        rw [hcommand]
        exact .opened hkey (hsame ▸ hid.symm) h.symm
      · cases h
  · rw [if_pos hsame]
    exact tells_err (known_krypto _) hs

theorem sealWith_ne_panic (P : Primitives) {alg : Alg} (nonce : Fixed alg.nonceLen) (key : DerivedKey)
    (id : Fixed 16) (pt : Bytes) : Aead.sealWith P nonce.toList key id pt alg ≠ .panic := by
  have hlen := nonce.length_eq
  rw [Aead.sealWith, DerivedKey.withKey_eq]
  refine Outcome.bind_ne_panic ?_ fun _ => Outcome.ok_ne_panic _
  generalize Aead.headerBytes alg id nonce.toList = header
  cases alg with
  | aegis256 =>
    rw [Aead.primitiveSeal_aegis256 P _ _ hlen]
    exact Outcome.ok_ne_panic _
  | xchacha20Poly1305 =>
    rw [Aead.primitiveSeal_xchacha P _ _ hlen]
    exact Outcome.ofOption_ne_panic _ _
  | aes256Gcm =>
    rw [Aead.primitiveSeal_aesGcm P _ _ hlen]
    exact Outcome.ofOption_ne_panic _ _

theorem algOf_cases (args : Args) :
    (∃ alg, algOf args = .ok alg) ∨ ∃ m, algOf args = .err (.usage m) := by
  unfold algOf
  split
  all_goals first | exact Or.inl ⟨_, rfl⟩ | exact Or.inr ⟨_, rfl⟩

theorem tells_aead (hhelp : args.help = false)
    (hcommand : args.command = "seal" ∨ args.command = "open" ∨ args.command = "mac") :
    Tells E T args s0 (aead T args) s0 := by
  rw [aead]
  apply tells_lift rfl
  · rcases algOf_cases args with ⟨alg, h⟩ | ⟨m, h⟩
    · exact h ▸ Outcome.ok_ne_panic _
    · exact h ▸ Outcome.err_ne_panic _
  · intro fail hfail
    rcases algOf_cases args with ⟨alg, h⟩ | ⟨m, h⟩
    · rw [h] at hfail
      cases hfail
    · rw [h] at hfail
      cases hfail
      exact known_usage m
  intro alg halg
  apply tells_master rfl rfl
  intro master path s hpath hfile hout hin
  apply tells_need hout
  intro context hcontext
  apply tells_need hout
  intro salt hsalt
  apply tells_value (derive_quiet _ _ _ _) hout known_fromArgs
  generalize hderived : master.okm T.primitives (Str.asBytes context.toList) (Str.asBytes salt.toList) = key
  have hkey : Keyed T s0 args master key :=
    ⟨⟨path, hpath, hfile⟩, context, salt, hcontext, hsalt, hderived.symm⟩
  split_ifs with hseal hopen
  · apply tells_keyId hout
    apply tells_readStdinSecret hout hin
    intro t ht _
    apply tells_private (Aead.sealBlob_quiet T.primitives key (keyIdOf T master) s0.stdin alg) ht
      known_krypto
    · rintro (⟨nonce, h⟩ | ⟨e, -, h⟩)
      · exact sealWith_ne_panic _ _ _ _ _ h.symm
      · cases h
    · rintro blob (⟨nonce, h⟩ | ⟨e, -, h⟩)
      · refine tells_out ht (.command hhelp ?_)
        rw [hseal]
        exact .sealed hkey halg h.symm
      · cases h
  · apply tells_readStdin hout hin
    intro t ht _
    exact tells_openInput hhelp hopen hkey ht
  · have hmac : args.command = "mac" := by
      rcases hcommand with h | h | h
      · exact absurd h hseal
      · exact absurd h hopen
      · exact h
    apply tells_readStdin hout hin
    intro t ht _
    simp only [hmacSha256, DerivedKey.withKey_eq]
    refine tells_out ht (.command hhelp ?_)
    rw [hmac]
    exact .mac hkey

theorem hexArg_err {flag : String} {fail : Fail} (h : hexArg args flag = .err fail) : fail.Known := by
  unfold hexArg Args.need at h
  cases hget : args.get flag with
  | none =>
    rw [hget] at h
    cases h
    exact known_usage _
  | some value =>
    rw [hget, Outcome.ofOption_some, Outcome.ok_bind] at h
    cases hvalue : Hex.decode value.toList with
    | ok bytes =>
      rw [hvalue] at h
      cases h
    | err e =>
      rw [hvalue] at h
      cases h
      exact known_usage _
    | panic => exact absurd hvalue (Hex.decode_ne_panic _)

theorem ed25519Verify_ne_panic (C : Sign.Curves) (publicKey message signature : Bytes) :
    Sign.ed25519Verify C publicKey message signature ≠ .panic := by
  unfold Sign.ed25519Verify
  refine Outcome.bind_ne_panic (Outcome.ofOption_ne_panic _ _) fun key => ?_
  split_ifs
  · refine Outcome.bind_ne_panic (Outcome.ofOption_ne_panic _ _) fun sig => ?_
    split_ifs
    · exact Outcome.ok_ne_panic _
    · exact Outcome.err_ne_panic _
  · exact Outcome.err_ne_panic _

theorem ecdsaP256Verify_ne_panic (C : Sign.Curves) (publicSec1 message sigDer : Bytes) :
    Sign.ecdsaP256Verify C publicSec1 message sigDer ≠ .panic := by
  unfold Sign.ecdsaP256Verify
  split_ifs
  all_goals first | exact Outcome.err_ne_panic _ | exact Outcome.ok_ne_panic _

theorem tells_checked {check : Bytes → Bytes → Bytes → Outcome Error Unit} (hhelp : args.help = false)
    (hcommand : args.command = "verify")
    (hcheck : args.get "--alg" = some "ed25519" ∧ check = Sign.ed25519Verify T.curves ∨
      args.get "--alg" = some "p256" ∧ check = Sign.ecdsaP256Verify T.curves) :
    Tells E T args s0 (do
      let publicKey ← lift (hexArg args "--public")
      let signature ← lift (hexArg args "--signature")
      let message ← readStdin
      mapErr .fromArgs (Krypto.lift (check publicKey message signature))
      line "the signature holds".toList) s0 := by
  apply tells_lift rfl (hexArg_ne_panic _ _) fun fail => hexArg_err
  intro publicKey hpublic
  apply tells_lift rfl (hexArg_ne_panic _ _) fun fail => hexArg_err
  intro signature hsignature
  apply tells_readStdin rfl rfl
  intro t ht _
  have hquiet : Quiet Call.Private (fun _ _ => True)
      (Krypto.lift (check publicKey s0.stdin signature) : Action String Unit)
      (· = check publicKey s0.stdin signature) := rfl
  apply tells_private hquiet ht known_fromArgs
  · rcases hcheck with ⟨-, rfl⟩ | ⟨-, rfl⟩
    · exact fun h => ed25519Verify_ne_panic _ _ _ _ h.symm
    · exact fun h => ecdsaP256Verify_ne_panic _ _ _ _ h.symm
  · intro u hu
    refine tells_out ht (.command hhelp ?_)
    rw [hcommand]
    exact .verify ⟨hcheck, hpublic, hsignature, hu.symm⟩

theorem tells_verify (hhelp : args.help = false) (hcommand : args.command = "verify") :
    Tells E T args s0 (verify T args) s0 := by
  rw [verify]
  apply tells_need rfl
  intro alg halg
  dsimp only
  split
  · exact tells_checked hhelp hcommand (Or.inl ⟨halg, rfl⟩)
  · exact tells_checked hhelp hcommand (Or.inr ⟨halg, rfl⟩)
  · exact tells_err (known_usage _) rfl

theorem tells_inspect (hhelp : args.help = false) (hcommand : args.command = "inspect") :
    Tells E T args s0 (inspect T) s0 := by
  have hanswer : Answer T s0 args (lineOf (Inspect.inspect T.inspector s0.stdin).report) := by
    refine .command hhelp ?_
    rw [hcommand]
    exact .inspect
  apply tells_readStdin rfl rfl
  intro t ht _
  rw [Tells, wp_bind]
  apply wp_write
  · dsimp only [Prog.onOk]
    split_ifs with hchanged
    · exact ⟨_, by rw [ht]; rfl, .changed hanswer hcommand hchanged⟩
    · exact ⟨_, by rw [ht]; rfl, .answered hanswer⟩
  · exact fun e n => ⟨_, by rw [ht]; rfl, .cut hanswer⟩

theorem tells_now {f : Nat → Step Unit} (hok : ∀ nanos, Tells E T args s0 (f nanos) s) :
    Tells E T args s0 (now >>= f) s := fun nanos _ => ⟨trivial, hok nanos⟩

/-- It asks for nothing but randomness and pages, and ends. -/
abbrev Sound (p : Action String α) : Prop := Quiet Call.Private (fun _ _ => True) p (· ≠ .panic)

theorem Sound.bind {β : Type} {p : Action String α} {f : α → Action String β} (hp : Sound p)
    (hf : ∀ a, Sound (f a)) : Sound (p >>= f) :=
  Quiet.bind hp (fun a _ => hf a) (fun e _ => Outcome.err_ne_panic e) fun h => absurd rfl h

theorem sound_lift {r : Outcome Error α} (h : r ≠ .panic) :
    Sound (Krypto.lift r : Action String α) := h

theorem sound_lockedPages (n : Nat) : Sound (lockedPages n : Action String Unit) := by
  refine (lockedPages_quiet n).imp fun r hr => ?_
  rcases hr with rfl | ⟨e, -, -, rfl⟩
  · exact Outcome.ok_ne_panic _
  · exact Outcome.err_ne_panic _

theorem sound_fill (n : Nat) (what : String) : Sound (fill n what : Action String (Fixed n)) := by
  refine (fill_quiet n what).imp fun r hr => ?_
  rcases hr with ⟨b, rfl⟩ | ⟨e, -, rfl⟩
  · exact Outcome.ok_ne_panic _
  · exact Outcome.err_ne_panic _

theorem sound_fromVec (v : Bytes) : Sound (SecretBuf.fromVec v : Action String SecretBuf) :=
  (sound_lockedPages v.length).bind fun _ => sound_lift (Outcome.ok_ne_panic v)

theorem sound_random (len : Nat) : Sound (SecretBuf.random len : Action String SecretBuf) := by
  have hlen : checkRandomLen len MAX_RANDOM_BYTES ≠ .panic := by
    unfold checkRandomLen
    split_ifs
    · exact Outcome.err_ne_panic _
    · exact Outcome.ok_ne_panic _
  refine (sound_lift hlen).bind fun _ => (sound_lockedPages len).bind fun _ => ?_
  exact (sound_fill len _).bind fun b => sound_lift (Outcome.ok_ne_panic _)

theorem sound_deriveKey (argon2 : Password.Argon2) (password : SecretString) (salt : Bytes)
    (preset : Password.Preset) :
    Sound (Password.deriveKey argon2 password salt preset : Action String SecretBuf) := by
  unfold Password.deriveKey
  split_ifs with hsalt
  · exact sound_lift (Outcome.err_ne_panic _)
  · refine (sound_lockedPages 32).bind fun _ => ?_
    refine Sound.bind (sound_lift ?_) fun b => sound_lift (Outcome.ok_ne_panic _)
    cases argon2 preset.params password salt with
    | ok key => exact Outcome.ok_ne_panic _
    | error e => exact Outcome.err_ne_panic _

theorem fromBytes_ne_panic (key : SecretBuf) : MasterKey.fromBytes key ≠ .panic := by
  unfold MasterKey.fromBytes
  split_ifs
  · exact Outcome.err_ne_panic _
  · exact Outcome.err_ne_panic _
  · exact Outcome.ok_ne_panic _

theorem sound_derive (P : Primitives) (master : MasterKey) (info salt : Bytes) :
    Sound (master.derive P info salt : Action String DerivedKey) := by
  refine (derive_quiet P master info salt).imp fun r hr => ?_
  rcases hr with rfl | ⟨e, rfl⟩
  · exact Outcome.ok_ne_panic _
  · exact Outcome.err_ne_panic _

theorem sound_sealBlob (P : Primitives) (key : DerivedKey) (id : Fixed 16) (plaintext : Bytes) (alg : Alg) :
    Sound (Aead.sealBlob P key id plaintext alg : Action String Bytes) := by
  refine (Aead.sealBlob_quiet P key id plaintext alg).imp fun r hr => ?_
  rcases hr with ⟨nonce, rfl⟩ | ⟨e, -, rfl⟩
  · exact sealWith_ne_panic _ _ _ _ _
  · exact Outcome.err_ne_panic _

theorem sound_openBlob (P : Primitives) (key : DerivedKey) (blob : Bytes) :
    Sound (Aead.openBlob P key blob : Action String SecretBuf) := by
  refine (Aead.openBlob_quiet P key blob).imp fun r hr => ?_
  rcases hr with rfl | ⟨pt, e, -, -, rfl⟩
  · exact openBody_ne_panic _ _ _
  · exact Outcome.err_ne_panic _

/-- A step of `bench`. -/
theorem tells_sound {p : Action String α} {k : α → Step Unit} (h : Sound p) (hs : s.stdout = s0.stdout)
    (hok : ∀ a, Tells E T args s0 (k a) s) : Tells E T args s0 (mapErr .krypto p >>= k) s :=
  tells_private h hs known_krypto (fun h => h rfl) fun a _ => hok a

theorem tells_presetLines {pw : SecretString} {f : Str → Step Unit} (hs : s.stdout = s0.stdout)
    (presets : List (String × Password.Preset)) (report : Str)
    (hok : ∀ times : List Nat, times.length = presets.length → Tells E T args s0
      (f (report ++ (presets.zip times).flatMap fun p => presetLine T p.1.1 p.2)) s) :
    Tells E T args s0 (presetLines T pw presets report >>= f) s := by
  induction presets generalizing report with
  | nil =>
    have h := hok [] rfl
    rw [List.zip_nil_left, List.flatMap_nil, List.append_nil] at h
    exact h
  | cons p presets ih =>
    obtain ⟨name, preset⟩ := p
    simp only [presetLines, Prog.bind_assoc]
    apply tells_now
    intro start
    apply tells_sound (sound_deriveKey _ _ _ _) hs
    intro key
    apply tells_now
    intro stop
    apply ih
    intro times htimes
    have h := hok ((stop - start) :: times) (congrArg (· + 1) htimes)
    rw [List.zip_cons_cons, List.flatMap_cons, ← List.append_assoc] at h
    exact h

theorem tells_sealRounds {key : DerivedKey} {id : Fixed 16} {plaintext : SecretBuf}
    {f : Bytes → Step Unit} (hs : s.stdout = s0.stdout) (rounds : Nat) (blob : Bytes)
    (hok : ∀ blob, Tells E T args s0 (f blob) s) :
    Tells E T args s0 (sealRounds T key id plaintext rounds blob >>= f) s := by
  induction rounds generalizing blob with
  | zero => exact hok blob
  | succ rounds ih =>
    rw [sealRounds, Prog.bind_assoc]
    apply tells_sound (sound_sealBlob _ _ _ _ _) hs
    exact ih

theorem tells_openRounds {key : DerivedKey} {blob : Bytes} {f : Unit → Step Unit}
    (hs : s.stdout = s0.stdout) (rounds : Nat) (hok : Tells E T args s0 (f ()) s) :
    Tells E T args s0 (openRounds T key blob rounds >>= f) s := by
  induction rounds with
  | zero => exact hok
  | succ rounds ih =>
    rw [openRounds, Prog.bind_assoc]
    apply tells_sound (sound_openBlob _ _ _) hs
    exact fun _ => ih

theorem tells_bench (hhelp : args.help = false) (hcommand : args.command = "bench") :
    Tells E T args s0 (bench T) s0 := by
  apply tells_sound (sound_fromVec _) rfl
  intro pw
  apply tells_presetLines rfl
  intro times htimes
  obtain ⟨interactive, balanced, high, rfl⟩ := List.length_eq_three.mp htimes
  apply tells_sound (sound_random 32) rfl
  intro random
  apply tells_sound (sound_lift (fromBytes_ne_panic random)) rfl
  intro master
  apply tells_sound (sound_derive _ _ _ _) rfl
  intro key
  apply tells_keyId rfl
  apply tells_sound (sound_random 1024) rfl
  intro plaintext
  apply tells_now
  intro start
  apply tells_sealRounds rfl
  intro blob
  apply tells_now
  intro sealed
  apply tells_now
  intro restart
  apply tells_openRounds rfl
  apply tells_now
  intro opened
  have h : Prints T s0 args "bench" _ :=
    .benched interactive balanced high (sealed - start) (opened - restart)
  refine tells_out rfl (.command hhelp ?_)
  rw [hcommand]
  simpa [PRESETS, List.append_assoc] using h

theorem tells_command (hhelp : args.help = false) (hcommand : args.command ∈ COMMANDS) :
    Tells E T args s0 (command T args) s0 := by
  have hprints {text : Bytes} (h : Prints T s0 args args.command text) : Answer T s0 args text :=
    .command hhelp h
  simp only [COMMANDS, List.mem_cons, List.not_mem_nil, or_false] at hcommand
  rcases hcommand with h | h | h | h | h | h | h | h | h
  · rw [command, h]
    exact tells_out rfl (hprints (h ▸ .version))
  · rw [command, h]
    exact tells_inspect hhelp h
  · rw [command, h]
    apply tells_master rfl rfl
    intro master path t hpath hfile hout _
    apply tells_keyId hout
    exact tells_out hout (hprints (h ▸ .keyid hpath hfile))
  · rw [command, h]
    exact tells_aead hhelp (Or.inl h)
  · rw [command, h]
    exact tells_aead hhelp (Or.inr (Or.inl h))
  · rw [command, h]
    exact tells_aead hhelp (Or.inr (Or.inr h))
  · rw [command, h]
    apply tells_readStdin rfl rfl
    intro t ht _
    exact tells_out ht (hprints (h ▸ .sha256))
  · rw [command, h]
    exact tells_verify hhelp h
  · rw [command, h]
    exact tells_bench hhelp h

theorem tells_run {argv : List String} (hparse : parse argv = .ok args) :
    Tells E T args s0 (run T argv) s0 := by
  rw [run_of_parse T hparse]
  cases hhelp : args.help with
  | false =>
    have hcommand : args.command ∈ COMMANDS := (parse_calls.mp ⟨hparse, hhelp⟩).command
    exact tells_command hhelp hcommand
  | true =>
    rw [if_pos rfl]
    split_ifs with hfirst
    · exact tells_out rfl (.overview hhelp hfirst)
    · obtain ⟨text, htext⟩ := helpOf_ok (command_of_help hparse hfirst)
      rw [htext]
      exact tells_out rfl (.usage hhelp htext)

theorem known_iff {c : UInt8} : c ∈ ([1, 2, 3, 4] : List UInt8) ↔ c ∈ ([0, 1, 2, 3, 4] : List UInt8) ∧ c ≠ 0 := by
  simp only [List.mem_cons, List.not_mem_nil, or_false]
  constructor
  · rintro (rfl | rfl | rfl | rfl) <;> decide
  · rintro ⟨rfl | h, hne⟩
    · exact absurd rfl hne
    · exact h

theorem Fail.Known.exitCode {fail : Fail} (h : fail.Known) :
    ∃ c, exitCode (.err fail) = some c ∧ c ∈ ([0, 1, 2, 3, 4] : List UInt8) ∧
      (c = 0 ↔ (.err fail : Outcome Fail Unit) = .ok ()) := by
  obtain ⟨hc, hne⟩ := known_iff.mp h
  refine ⟨fail.code, rfl, hc, fun h0 => absurd h0 hne, fun hok => ?_⟩
  cases hok

theorem Ended.exitCode {r : Outcome Fail Unit} {written : Bytes} (h : Ended T s0 args r written) :
    ∃ c, exitCode r = some c ∧ c ∈ ([0, 1, 2, 3, 4] : List UInt8) ∧ (c = 0 ↔ r = .ok ()) := by
  cases h with
  | silent hknown => exact hknown.exitCode
  | answered _ => exact ⟨0, rfl, by decide, fun _ => rfl, fun _ => rfl⟩
  | changed _ _ _ => exact (known_krypto .auth).exitCode
  | cut _ => exact (known_io _).exitCode

end Commands

/-- Whatever fails on the way, a call prints its whole answer and ends well, or a part of its
answer as the write was cut short, or nothing; only `inspect` prints and fails. It ends with
an exit code of the tool's own, which is 0 just when it ends well. -/
theorem stdout_is_the_answer (T : Tools) {E : shell.Env} {argv : List String} {s s' : Shell}
    {r : Outcome Fail Unit} (h : Ends shell E (run T argv) s r s') :
    (∃ c, exitCode r = some c ∧ c ∈ ([0, 1, 2, 3, 4] : List UInt8) ∧ (c = 0 ↔ r = .ok ())) ∧
    ∃ written, s'.stdout = s.stdout ++ written ∧
      ((∃ fail, parse argv = .err fail ∧ r = .err fail ∧ written = []) ∨
        ∃ args, parse argv = .ok args ∧ Ended T s args r written) := by
  rcases parse_ends argv with ⟨args, hparse⟩ | ⟨fail, hparse, hcode⟩
  · obtain ⟨written, hwritten, hended⟩ := (tells_run (E := E) hparse).ends h
    exact ⟨hended.exitCode, written, hwritten, Or.inr ⟨args, hparse, hended⟩⟩
  · rw [run, hparse] at h
    obtain ⟨rfl, rfl⟩ := ends_done h
    have hknown : fail.Known := by
      rw [Fail.Known, hcode]
      decide
    exact ⟨hknown.exitCode, [], (List.append_nil _).symm, Or.inl ⟨fail, hparse, rfl, rfl⟩⟩

section Sample

def sampleSealCall : List String := ["seal", "--key-file", "key", "--context", "c", "--salt", "s"]

/-- Nothing fails, unless a write does. -/
def writing (fault : Option (IoError × Nat)) : (op : Syscall) → shell.Choice op
  | .sys op => failing (fun _ => false) op
  | .readToEnd _ => (none : Option IoError)
  | .readChunk _ => (.ok 1 : Except IoError Nat)
  | .write _ => fault
  | .now => (0 : Nat)

/-- The write of the blob stops after five bytes. -/
def sampleCut : Outcome Fail Unit × Shell :=
  shell.play (writing (some (Process.notFound, 5))) (run sampleTools sampleSealCall) (sampleShell [1, 2, 3])

theorem stdout_is_the_answer_sample :
    Ends shell (fun _ _ => True) (run sampleTools sampleSealCall) (sampleShell [1, 2, 3]) sampleCut.1 sampleCut.2 ∧
      exitCode sampleCut.1 = some 1 ∧ sampleCut.2.stdout.length = 5 ∧
      ∃ args, parse sampleSealCall = .ok args ∧
        Ended sampleTools (sampleShell [1, 2, 3]) args sampleCut.1 sampleCut.2.stdout := by
  have hends := ends_play (M := shell) (E := fun _ _ => True) (writing (some (Process.notFound, 5)))
    (fun _ => trivial) (run sampleTools sampleSealCall) (sampleShell [1, 2, 3])
  obtain ⟨-, written, hwritten, ⟨fail, hfail, -⟩ | ⟨args, hparse, hended⟩⟩ :=
    stdout_is_the_answer sampleTools hends
  · have hargs : parse sampleSealCall =
        .ok ⟨"seal", [("--key-file", "key"), ("--context", "c"), ("--salt", "s")], false⟩ := by decide +kernel
    rw [hargs] at hfail
    cases hfail
  · have hwritten : sampleCut.2.stdout = written := hwritten
    refine ⟨hends, by decide +kernel, by decide +kernel, args, hparse, ?_⟩
    rw [hwritten]
    exact hended

end Sample
end Krypto.Cli
