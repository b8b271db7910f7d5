import Krypto.Cli.ExitCode

/-! Exit code 2 and stdin: a wrong call is told before stdin is read, but for a
`verify` of a key or a signature that is malformed. -/

namespace Krypto.Cli
open Effect

def ReadsStdin : Syscall → Prop
  | .readToEnd _ | .readChunk _ => True
  | _ => False

def WrongCall {α : Type} (r : Outcome Fail α) : Prop := ∃ fail, r = .err fail ∧ fail.code = 2

def Silent (l : List (Event Syscall.Reply)) : Prop := ∀ e ∈ l, ¬ReadsStdin e.1

/-- Every run that ends with exit code 2 has read nothing from stdin, and is a run of every
other stdin. -/
def ToldFirst (E : shell.Env) (T : Tools) (argv : List String) (s : Shell) : Prop :=
  ∀ r l s', Ends shell.logged E (run T argv) ([], s) r (l, s') → exitCode r = some 2 →
    Silent l ∧ ∀ stdin, Ends shell E (run T argv) { s with stdin } r { s' with stdin }

def WellFormed (C : Sign.Curves) (alg : String) (publicKey signature : Bytes) : Prop :=
  match alg with
  | "ed25519" => (∃ key, Fixed.tryFrom 32 publicKey = some key ∧ C.ed25519Point key) ∧
      signature.length = 64
  | "p256" => C.p256Point publicKey ∧ C.p256Signature signature
  | _ => True

/-- `argv` is a call of `verify`, all in hex, but its key or its signature is malformed. -/
def Unchecked (C : Sign.Curves) (argv : List String) : Prop :=
  ∃ args alg publicKey signature, parse argv = .ok args ∧ args.help = false ∧
    args.command = "verify" ∧ args.need "--alg" = .ok alg ∧
    hexArg args "--public" = .ok publicKey ∧ hexArg args "--signature" = .ok signature ∧
    ¬WellFormed C alg publicKey signature

/-! ## Programs before and after they read -/

section Programs
variable {α β : Type} {E : shell.Env} {s : Shell} {l : List (Event Syscall.Reply)}

theorem wrongCall_err {e : Fail} : WrongCall (.err e : Outcome Fail α) ↔ e.code = 2 := by
  constructor
  · rintro ⟨fail, hfail, hcode⟩
    cases hfail
    exact hcode
  · intro h
    exact ⟨e, rfl, h⟩

theorem not_wrongCall_ok (a : α) : ¬WrongCall (.ok a : Outcome Fail α) := by
  rintro ⟨fail, hfail, -⟩
  cases hfail

theorem not_wrongCall_panic : ¬WrongCall (.panic : Outcome Fail α) := by
  rintro ⟨fail, hfail, -⟩
  cases hfail

theorem not_wrongCall_io (m : Message) : ¬WrongCall (.err (.io m) : Outcome Fail α) := by
  rw [wrongCall_err]
  show ¬(1 : UInt8) = 2
  decide

abbrev Deaf (p : Step α) : Prop :=
  Quiet (fun op => ¬ReadsStdin op) (fun _ _ => True) p (fun _ => True)

abbrev Late (p : Step α) : Prop :=
  Quiet (fun _ => True) (fun _ _ => True) p (fun r => ¬WrongCall r)

abbrev Prompt (E : shell.Env) (p : Step α) (x : List (Event Syscall.Reply) × Shell) : Prop :=
  wp shell.logged E (fun _ _ _ => True) p (fun r y => WrongCall r → Silent y.1) x

theorem Deaf.bind {p : Step α} {f : α → Step β} (h : Deaf p) (hf : ∀ a, Deaf (f a)) :
    Deaf (p >>= f) :=
  Quiet.bind h (fun a _ => hf a) (fun _ _ => trivial) (fun _ => trivial)

theorem Late.bind {p : Step α} {f : α → Step β} (h : Late p) (hf : ∀ a, Late (f a)) :
    Late (p >>= f) := by
  apply Quiet.bind h (fun a _ => hf a)
  · intro e hlate
    rwa [wrongCall_err] at hlate ⊢
  · exact fun _ => not_wrongCall_panic

theorem deaf_lift (r : Outcome Fail α) : Deaf (lift r) := trivial

theorem deaf_mapErr (f : Error → Fail) (p : Action String α) : Deaf (mapErr f p) := by
  refine Quiet.imp (Quiet.calls (quiet_embed f p) ?_) fun _ _ => trivial
  rintro op ⟨o, rfl⟩
  exact fun h => h

theorem deaf_out (bytes : Bytes) : Deaf (out bytes) := by
  refine ⟨fun h => h, fun y _ => ?_⟩
  cases y with
  | error e => trivial
  | ok u => trivial

theorem krypto_code_ne (e : Error) : (Fail.krypto e).code ≠ 2 := by
  unfold Fail.krypto
  cases e
  all_goals exact of_decide_eq_true rfl

theorem late_mapErr (p : Action String α) : Late (mapErr .krypto p) := by
  refine Quiet.imp (Quiet.calls (quiet_embed _ p) fun _ _ => trivial) ?_
  rintro r ⟨r', rfl⟩
  cases r' with
  | ok a => exact not_wrongCall_ok a
  | panic => exact not_wrongCall_panic
  | err e => exact mt wrongCall_err.mp (krypto_code_ne e)

theorem late_krypto (e : Error) : Late (Prog.throw (.krypto e) : Step α) :=
  mt wrongCall_err.mp (krypto_code_ne e)

theorem late_out (bytes : Bytes) : Late (out bytes) := by
  refine ⟨trivial, fun y _ => ?_⟩
  cases y with
  | error e => exact not_wrongCall_io _
  | ok u => exact not_wrongCall_ok ()

theorem late_pure (a : α) : Late (pure a : Step α) := not_wrongCall_ok a

theorem Late.prompt {p : Step α} (h : Late p) (x : List (Event Syscall.Reply) × Shell) :
    Prompt E p x := by
  have hwp := (h.replies fun _ _ _ => trivial).wp_invariant (M := shell.logged) (E := E) (s := x)
    (I := fun _ => True) (G := fun _ _ _ => True) trivial fun _ _ _ _ _ _ => ⟨trivial, trivial⟩
  exact hwp.imp fun r y hr hwrong => absurd hwrong hr.1

theorem step_stdin {op : Syscall} (h : ¬ReadsStdin op) (c : op.Choice) (s : Shell) :
    (Shell.step op c s).2.stdin = s.stdin := by
  cases op with
  | sys op => rfl
  | readToEnd n => exact absurd trivial h
  | readChunk n => exact absurd trivial h
  | now => rfl
  | write data =>
    rcases c with - | ⟨e, n⟩
    · rfl
    · rfl

theorem Deaf.prompt_bind {p : Step α} {f : α → Step β} (h : Deaf p) (hl : Silent l)
    (hf : ∀ a l' s', Silent l' → s'.stdin = s.stdin → Prompt E (f a) (l', s')) :
    Prompt E (p >>= f) (l, s) := by
  have hwp := (h.replies fun _ _ _ => trivial).wp_invariant (M := shell.logged) (E := E)
    (s := (l, s)) (I := fun y => Silent y.1 ∧ y.2.stdin = s.stdin) (G := fun _ _ _ => True)
    ⟨hl, rfl⟩ (by
      rintro op c ⟨l', s'⟩ hop - ⟨hl', hs'⟩
      refine ⟨⟨fun e he => ?_, (step_stdin hop c s').trans hs'⟩, trivial⟩
      rcases List.mem_append.mp he with he | he
      · exact hl' e he
      · rw [List.mem_singleton.mp he]
        exact hop)
  rw [Prompt, wp_bind]
  refine hwp.imp fun r y hy => ?_
  cases r with
  | ok a => exact hf a y.1 y.2 hy.2.1 hy.2.2
  | err e => exact fun _ => hy.2.1
  | panic => exact fun _ => hy.2.1

theorem prompt_readStdin {f : Bytes → Step α} (hle : s.stdin.length ≤ MAX_STDIN)
    (hf : ∀ input, Late (f input)) : Prompt E (readStdin >>= f) (l, s) := by
  intro c _
  refine ⟨trivial, ?_⟩
  rcases c with - | e
  · have hfits : ¬MAX_STDIN < (s.stdin.take (MAX_STDIN + 1)).length := by
      rw [List.length_take]
      omega
    show Prompt E ((if MAX_STDIN < (s.stdin.take (MAX_STDIN + 1)).length then Prog.throw tooMuch
      else pure (s.stdin.take (MAX_STDIN + 1))) >>= f) _
    rw [if_neg hfits]
    exact (hf _).prompt _
  · exact fun hwrong => absurd hwrong (not_wrongCall_io _)

theorem wp_readChunks_succ {fuel : Nat} {held : Growing}
    {Q : Outcome Fail Bytes → List (Event Syscall.Reply) × Shell → Prop}
    (herror : ∀ e : IoError, ∀ l', Q (.err (.io ("reading stdin failed: " ++ e.message))) (l', s))
    (hend : ∀ n l', s.stdin.take n = [] → Q (.ok held.buf) (l', { s with stdin := s.stdin.drop n }))
    (hmore : ∀ n l', s.stdin.take n ≠ [] → wp shell.logged E (fun _ _ _ => True)
      (lift (held.extend (s.stdin.take n)) >>= readChunks fuel) Q
      (l', { s with stdin := s.stdin.drop n })) :
    wp shell.logged E (fun _ _ _ => True) (readChunks (fuel + 1) held) Q (l, s) := by
  intro c _
  refine ⟨trivial, ?_⟩
  rcases c with e | n
  · exact herror e _
  · show wp shell.logged E (fun _ _ _ => True)
      (afterChunk fuel held (.ok (s.stdin.take (min (64 * 1024) (n + 1))))) Q _
    have hend := hend (min (64 * 1024) (n + 1))
    have hmore := hmore (min (64 * 1024) (n + 1))
    cases hchunk : s.stdin.take (min (64 * 1024) (n + 1)) with
    | nil => exact hend _ hchunk
    | cons b chunk =>
      rw [hchunk] at hmore
      exact hmore _ (List.cons_ne_nil b chunk)

/-- The loop gets no more bytes than stdin has. -/
theorem wp_readChunks (fuel : Nat) {held : Growing}
    (hle : held.buf.length + s.stdin.length ≤ MAX_STDIN) :
    wp shell.logged E (fun _ _ _ => True) (readChunks fuel held) (fun r _ => ¬WrongCall r) (l, s) := by
  induction fuel generalizing held l s with
  | zero => exact not_wrongCall_panic
  | succ fuel ih =>
    apply wp_readChunks_succ
    · exact fun e l' => not_wrongCall_io _
    · exact fun n l' _ => not_wrongCall_ok _
    · intro n l' _
      -- what is still on stdin is as much less as the chunk is long
      have hsum : (s.stdin.take n).length + (s.stdin.drop n).length = s.stdin.length := by
        rw [← List.length_append, List.take_append_drop]
      have hfits : held.buf.length + (s.stdin.take n).length ≤ MAX_STDIN := by omega
      obtain ⟨capacity, hextend⟩ := Growing.extend_ok hfits
      rw [hextend]
      apply ih
      dsimp only
      rw [List.length_append]
      omega

theorem prompt_readStdinSecret {f : SecretBuf → Step α} (hle : s.stdin.length ≤ MAX_STDIN)
    (hf : ∀ plaintext, Late (f plaintext)) : Prompt E (readStdinSecret >>= f) (l, s) := by
  rw [Prompt, wp_bind, readStdinSecret, wp_bind]
  refine (wp_readChunks (MAX_STDIN + 2) (by simpa using hle)).imp fun r x hr => ?_
  cases r with
  | err e =>
    intro hwrong
    rw [wrongCall_err] at hr hwrong
    exact absurd hwrong hr
  | panic => exact fun hwrong => absurd hwrong not_wrongCall_panic
  | ok buf =>
    show wp _ _ _ (mapErr .krypto (lockedPages buf.length) >>= fun _ => pure buf) _ _
    rw [← wp_bind]
    apply Late.prompt
    exact Late.bind (Late.bind (late_mapErr _) fun _ => late_pure _) hf

end Programs

/-! ## The commands -/

section Commands
variable {E : shell.Env} {T : Tools} {args : Args} {s : Shell} {l : List (Event Syscall.Reply)}

theorem deaf_master (args : Args) : Deaf (master args) :=
  (deaf_lift _).bind fun _ => deaf_mapErr _ _

theorem deaf_prompt {p : Step Unit} (h : Deaf p) (hl : Silent l) : Prompt E p (l, s) := by
  have hbind : (p >>= fun u => pure u) = p := by
    induction p with
    | done r => cases r <;> rfl
    | call op next ih => exact congrArg (Prog.call op) (funext fun y => ih y (h.2 y trivial))
  rw [← hbind]
  exact h.prompt_bind hl fun _ _ _ _ _ => (late_pure _).prompt _

theorem late_openInput (master : MasterKey) (key : DerivedKey) (input : Bytes) :
    Late (openInput T master key input) := by
  refine (late_mapErr _).bind fun expected => (late_mapErr _).bind fun id => ?_
  split_ifs
  · exact late_krypto _
  · exact (late_mapErr _).bind fun plaintext => late_out _

theorem prompt_aead (hl : Silent l) (hle : s.stdin.length ≤ MAX_STDIN) :
    Prompt E (aead T args) (l, s) := by
  refine (deaf_lift _).prompt_bind hl fun alg l1 s1 hl1 hs1 => ?_
  refine (deaf_master args).prompt_bind hl1 fun master l2 s2 hl2 hs2 => ?_
  refine (deaf_lift _).prompt_bind hl2 fun context l3 s3 hl3 hs3 => ?_
  refine (deaf_lift _).prompt_bind hl3 fun salt l4 s4 hl4 hs4 => ?_
  refine (deaf_mapErr _ _).prompt_bind hl4 fun key l5 s5 hl5 hs5 => ?_
  have hle5 : s5.stdin.length ≤ MAX_STDIN := by rwa [hs5, hs4, hs3, hs2, hs1]
  split_ifs with hseal hopen
  · refine (deaf_mapErr _ _).prompt_bind hl5 fun id l6 s6 hl6 hs6 => ?_
    rw [← hs6] at hle5
    exact prompt_readStdinSecret hle5 fun plaintext => (late_mapErr _).bind fun blob => late_out _
  · apply prompt_readStdin hle5
    exact late_openInput master key
  · apply prompt_readStdin hle5
    intro input
    exact (late_mapErr _).bind fun mac => late_out _

theorem prompt_lift_bind {α : Type} {r : Outcome Fail α} {f : α → Step Unit} (hl : Silent l)
    (hf : ∀ a, r = .ok a → Prompt E (f a) (l, s)) : Prompt E (lift r >>= f) (l, s) := by
  cases r with
  | ok a => exact hf a rfl
  | err e => exact fun _ => hl
  | panic => exact fun _ => hl

theorem late_check {check : Outcome Error Unit} (h : check = .ok () ∨ check = .err .auth) :
    Late (mapErr .fromArgs (Krypto.lift check)) := by
  rcases h with rfl | rfl
  · exact not_wrongCall_ok ()
  · rw [mapErr]
    exact mt wrongCall_err.mp (by decide)

theorem ed25519Verify_of_wellFormed {C : Sign.Curves} {publicKey signature : Bytes}
    (h : WellFormed C "ed25519" publicKey signature) (message : Bytes) :
    Sign.ed25519Verify C publicKey message signature = .ok () ∨
      Sign.ed25519Verify C publicKey message signature = .err .auth := by
  obtain ⟨⟨key, hkey, hpoint⟩, hlength⟩ := h
  have hsig : Fixed.tryFrom 64 signature = some ⟨signature, hlength⟩ := dif_pos hlength
  unfold Sign.ed25519Verify
  rw [hkey, hsig, Outcome.ofOption_some, Outcome.ok_bind, if_neg (not_not.mpr hpoint),
    Outcome.ofOption_some, Outcome.ok_bind]
  split_ifs
  · exact .inl rfl
  · exact .inr rfl

theorem ecdsaP256Verify_of_wellFormed {C : Sign.Curves} {publicKey signature : Bytes}
    (h : WellFormed C "p256" publicKey signature) (message : Bytes) :
    Sign.ecdsaP256Verify C publicKey message signature = .ok () ∨
      Sign.ecdsaP256Verify C publicKey message signature = .err .auth := by
  obtain ⟨hpoint, hsignature⟩ := h
  unfold Sign.ecdsaP256Verify
  rw [if_neg (not_not.mpr hpoint), if_neg (not_not.mpr hsignature)]
  split_ifs
  · exact .inl rfl
  · exact .inr rfl

theorem ed25519Verify_of_malformed {C : Sign.Curves} {publicKey signature : Bytes}
    (h : ¬WellFormed C "ed25519" publicKey signature) (message : Bytes) :
    ∃ m, Sign.ed25519Verify C publicKey message signature = .err (.format m) := by
  unfold Sign.ed25519Verify
  cases hkey : Fixed.tryFrom 32 publicKey with
  | none => exact ⟨_, rfl⟩
  | some key =>
    rw [Outcome.ofOption_some, Outcome.ok_bind]
    split_ifs with hpoint
    · cases hsig : Fixed.tryFrom 64 signature with
      | none => exact ⟨_, rfl⟩
      | some sig =>
        rw [Fixed.tryFrom, Option.dite_none_right_eq_some] at hsig
        exact absurd ⟨⟨key, hkey, hpoint⟩, hsig.1⟩ h
    · exact ⟨_, rfl⟩

theorem ecdsaP256Verify_of_malformed {C : Sign.Curves} {publicKey signature : Bytes}
    (h : ¬WellFormed C "p256" publicKey signature) (message : Bytes) :
    ∃ m, Sign.ecdsaP256Verify C publicKey message signature = .err (.format m) := by
  unfold Sign.ecdsaP256Verify
  by_cases hpoint : C.p256Point publicKey
  · by_cases hform : C.p256Signature signature
    · exact absurd ⟨hpoint, hform⟩ h
    · rw [if_neg (not_not.mpr hpoint), if_pos hform]
      exact ⟨_, rfl⟩
  · rw [if_pos hpoint]
    exact ⟨_, rfl⟩

theorem prompt_verify (hl : Silent l) (hle : s.stdin.length ≤ MAX_STDIN)
    (hformed : ∀ alg publicKey signature, args.need "--alg" = .ok alg →
      hexArg args "--public" = .ok publicKey → hexArg args "--signature" = .ok signature →
      WellFormed T.curves alg publicKey signature) : Prompt E (verify T args) (l, s) := by
  unfold verify
  refine prompt_lift_bind hl fun alg halg => ?_
  have hchecked (check : Bytes → Bytes → Bytes → Outcome Error Unit)
      (hcheck : ∀ publicKey signature, WellFormed T.curves alg publicKey signature → ∀ message,
        check publicKey message signature = .ok () ∨ check publicKey message signature = .err .auth) :
      Prompt E (do
        let publicKey ← lift (hexArg args "--public")
        let signature ← lift (hexArg args "--signature")
        let message ← readStdin
        mapErr .fromArgs (Krypto.lift (check publicKey message signature))
        line "the signature holds".toList) (l, s) := by
    refine prompt_lift_bind hl fun publicKey hpublic => ?_
    refine prompt_lift_bind hl fun signature hsignature => ?_
    apply prompt_readStdin hle
    intro message
    have hcheck := hcheck publicKey signature
      (hformed alg publicKey signature halg hpublic hsignature) message
    exact (late_check hcheck).bind fun _ => late_out _
  dsimp only
  split
  · exact hchecked _ fun _ _ => ed25519Verify_of_wellFormed
  · exact hchecked _ fun _ _ => ecdsaP256Verify_of_wellFormed
  · exact fun _ => hl

theorem deaf_now : Deaf now := ⟨fun h => h, fun _ _ => trivial⟩

theorem deaf_presetLines (pw : SecretString) (presets : List (String × Password.Preset)) (report : Str) :
    Deaf (presetLines T pw presets report) := by
  induction presets generalizing report with
  | nil => exact deaf_lift _
  | cons preset presets ih =>
    exact deaf_now.bind fun _ => (deaf_mapErr _ _).bind fun _ => deaf_now.bind fun _ => ih _

theorem deaf_sealRounds (key : DerivedKey) (id : Fixed 16) (plaintext : SecretBuf) (rounds : Nat)
    (blob : Bytes) : Deaf (sealRounds T key id plaintext rounds blob) := by
  induction rounds generalizing blob with
  | zero => exact deaf_lift _
  | succ rounds ih => exact (deaf_mapErr _ _).bind ih

theorem deaf_openRounds (key : DerivedKey) (blob : Bytes) (rounds : Nat) :
    Deaf (openRounds T key blob rounds) := by
  induction rounds with
  | zero => exact deaf_lift _
  | succ rounds ih => exact (deaf_mapErr _ _).bind fun _ => ih

theorem deaf_bench : Deaf (bench T) := by
  refine (deaf_mapErr _ _).bind fun pw => (deaf_presetLines pw _ _).bind fun report => ?_
  refine (deaf_mapErr _ _).bind fun random => (deaf_mapErr _ _).bind fun master => ?_
  refine (deaf_mapErr _ _).bind fun key => (deaf_mapErr _ _).bind fun id => ?_
  refine (deaf_mapErr _ _).bind fun plaintext => deaf_now.bind fun start => ?_
  refine (deaf_sealRounds key id plaintext _ _).bind fun blob => deaf_now.bind fun _ => ?_
  exact deaf_now.bind fun _ => (deaf_openRounds key blob _).bind fun _ => deaf_now.bind fun _ => deaf_out _

theorem prompt_command (hl : Silent l) (hle : s.stdin.length ≤ MAX_STDIN)
    (hformed : args.command = "verify" → ∀ alg publicKey signature, args.need "--alg" = .ok alg →
      hexArg args "--public" = .ok publicKey → hexArg args "--signature" = .ok signature →
      WellFormed T.curves alg publicKey signature) : Prompt E (command T args) (l, s) := by
  unfold command
  split
  · exact deaf_prompt (deaf_out _) hl
  · apply prompt_readStdin hle
    intro input
    refine (late_out _).bind fun _ => ?_
    split_ifs
    · exact late_krypto _
    · exact late_pure ()
  · refine deaf_prompt ?_ hl
    exact (deaf_master args).bind fun _ => (deaf_mapErr _ _).bind fun _ => deaf_out _
  · exact prompt_aead hl hle
  · exact prompt_aead hl hle
  · exact prompt_aead hl hle
  · exact prompt_readStdin hle fun input => late_out _
  next hverify => exact prompt_verify hl hle (hformed hverify)
  · exact deaf_prompt deaf_bench hl
  · exact fun _ => hl

theorem prompt_run {argv : List String} (hl : Silent l)
    (hle : s.stdin.length ≤ MAX_STDIN) (hformed : ¬Unchecked T.curves argv) :
    Prompt E (run T argv) (l, s) := by
  unfold run
  refine prompt_lift_bind hl fun args hparse => ?_
  cases hhelp : args.help with
  | true =>
    rw [if_pos rfl]
    split_ifs
    · exact deaf_prompt (deaf_out _) hl
    · exact deaf_prompt ((deaf_lift _).bind fun _ => deaf_out _) hl
  | false =>
    apply prompt_command hl hle
    intro hverify alg publicKey signature halg hpublic hsignature
    by_contra hmalformed
    exact hformed ⟨args, alg, publicKey, signature, hparse, hhelp, hverify, halg, hpublic,
      hsignature, hmalformed⟩

theorem step_of_deaf {op : Syscall} (h : ¬ReadsStdin op) (c : op.Choice) (s : Shell) (stdin : Bytes) :
    Shell.step op c { s with stdin } =
      ((Shell.step op c s).1, { (Shell.step op c s).2 with stdin }) := by
  cases op with
  | sys op => rfl
  | readToEnd n => exact absurd trivial h
  | readChunk n => exact absurd trivial h
  | now => rfl
  | write data =>
    rcases c with - | ⟨e, n⟩
    · rfl
    · rfl

/-- A run that read nothing is a run of every stdin. -/
theorem steps_of_silent {α : Type} {x y : Step α × List (Event Syscall.Reply) × Shell}
    (h : Steps shell.logged E x y) (hl : Silent y.2.1) (stdin : Bytes) :
    Steps shell E (x.1, { x.2.2 with stdin }) (y.1, { y.2.2 with stdin }) := by
  induction h with
  | refl => exact .refl _
  | @step op next s y c hc rest ih =>
    have hop : ¬ReadsStdin op :=
      hl _ (rest.log_subset (List.mem_append_right _ (List.mem_singleton.mpr rfl)))
    have hstep : Shell.step op c { s.2 with stdin } = _ := step_of_deaf hop c s.2 stdin
    have hrest : Steps shell E (next (Shell.step op c { s.2 with stdin }).1,
        (Shell.step op c { s.2 with stdin }).2) (y.1, { y.2.2 with stdin }) := by
      rw [hstep]
      exact ih hl
    exact .step (M := shell) c hc hrest

/-- A check that calls what it got malformed does so after the message is read. -/
theorem checked_ends {check : Bytes → Bytes → Bytes → Outcome Error Unit}
    {publicKey signature : Bytes} (hE : ∀ op c, smooth op c → E op c)
    (hle : s.stdin.length ≤ MAX_STDIN)
    (hwrong : ∀ message, ∃ m, check publicKey message signature = .err (.format m)) :
    ∃ r l s', Ends shell.logged E (do
      let message ← readStdin
      mapErr .fromArgs (Krypto.lift (check publicKey message signature))
      line "the signature holds".toList) ([], s) r (l, s') ∧ exitCode r = some 2 ∧ ¬Silent l := by
  obtain ⟨m, hm⟩ := hwrong (s.stdin.take (MAX_STDIN + 1))
  have hfits : ¬MAX_STDIN < (s.stdin.take (MAX_STDIN + 1)).length := by
    rw [List.length_take]
    omega
  have hread : smooth (.readToEnd (MAX_STDIN + 1)) (none : Option IoError) := rfl
  refine ⟨.err (.fromArgs (.format m)), [⟨.readToEnd (MAX_STDIN + 1), .ok (s.stdin.take (MAX_STDIN + 1))⟩],
    { s with stdin := s.stdin.drop (MAX_STDIN + 1) }, ?_, rfl, ?_⟩
  · refine .step (M := shell.logged) (none : Option IoError) (hE _ _ hread) ?_
    show Steps shell.logged E ((if MAX_STDIN < (s.stdin.take (MAX_STDIN + 1)).length
      then Prog.throw tooMuch else pure (s.stdin.take (MAX_STDIN + 1))) >>= _, _) _
    rw [if_neg hfits]
    show Steps shell.logged E (mapErr .fromArgs (Krypto.lift (check publicKey _ signature)) >>= _, _) _
    rw [hm]
    exact .refl _
  · exact fun hsilent => hsilent _ (List.mem_singleton.mpr rfl) trivial

/-- A malformed key or signature is told only after stdin was read. -/
theorem unchecked_ends {argv : List String} (hE : ∀ op c, smooth op c → E op c)
    (hle : s.stdin.length ≤ MAX_STDIN) (h : Unchecked T.curves argv) :
    ∃ r l s', Ends shell.logged E (run T argv) ([], s) r (l, s') ∧ exitCode r = some 2 ∧
      ¬Silent l := by
  obtain ⟨args, alg, publicKey, signature, hparse, hhelp, hverify, halg, hpublic, hsignature,
    hmalformed⟩ := h
  have hcommand : run T argv = verify T args := by
    rw [run_of_command T hparse hhelp, command, hverify]
    rfl
  rw [hcommand, verify, halg, hpublic, hsignature]
  unfold WellFormed at hmalformed
  split at hmalformed
  · exact checked_ends hE hle (ed25519Verify_of_malformed hmalformed)
  · exact checked_ends hE hle (ecdsaP256Verify_of_malformed hmalformed)
  · exact absurd trivial hmalformed

end Commands

/-- A wrong call is told before stdin is read, exactly when it is not one of `verify` in which a
key or a signature is malformed. -/
theorem told_first_iff (T : Tools) (E : shell.Env)
    (hE : ∀ op c, smooth op c → E op c) (argv : List String) (s : Shell)
    (hle : s.stdin.length ≤ MAX_STDIN) : ToldFirst E T argv s ↔ ¬Unchecked T.curves argv := by
  constructor
  · intro htold hunchecked
    obtain ⟨r, l, s', hends, hcode, hsilent⟩ := unchecked_ends hE hle hunchecked
    exact hsilent (htold r l s' hends hcode).1
  · intro hchecked r l s' hends hcode
    have hwrong : WrongCall r := by
      cases r with
      | ok u =>
        have hcode : some (0 : UInt8) = some 2 := hcode
        exact absurd hcode (by decide)
      | panic => cases hcode
      | err fail => exact ⟨fail, rfl, Option.some.inj hcode⟩
    have hsilent : Silent l :=
      (prompt_run (fun _ he => absurd he List.not_mem_nil) hle hchecked).ends hends hwrong
    exact ⟨hsilent, steps_of_silent hends hsilent⟩

def shortKey : List String := ["verify", "--alg", "ed25519", "--public", "00", "--signature", "00"]

theorem unchecked_shortKey (C : Sign.Curves) : Unchecked C shortKey := by
  have hmalformed : ¬WellFormed C "ed25519" [0] [0] := by
    rintro ⟨⟨key, hkey, -⟩, -⟩
    cases hkey
  exact ⟨⟨"verify", [("--alg", "ed25519"), ("--public", "00"), ("--signature", "00")], false⟩,
    "ed25519", [0], [0], by decide +kernel, rfl, rfl, by decide +kernel, by decide +kernel,
    by decide +kernel, hmalformed⟩

theorem told_first_sample :
    ToldFirst smooth sampleTools ["sha256", "hunter2"] (sampleShell [1, 2, 3]) := by
  have hfits : (sampleShell [1, 2, 3]).stdin.length ≤ MAX_STDIN := by decide
  apply (told_first_iff sampleTools smooth (fun _ _ h => h) _ _ hfits).mpr
  rintro ⟨args, alg, publicKey, signature, hparse, -⟩
  have hfails : ∃ fail, parse ["sha256", "hunter2"] = .err fail := ⟨_, rfl⟩
  obtain ⟨fail, hfail⟩ := hfails
  rw [hfail] at hparse
  cases hparse

/-- The short key is told after stdin is read, whatever the crates are. -/
theorem verify_reads_first : ¬∃ T, ∀ argv s, s.stdin.length ≤ MAX_STDIN → ToldFirst smooth T argv s := by
  rintro ⟨T, htold⟩
  have hfits : (sampleShell []).stdin.length ≤ MAX_STDIN := Nat.zero_le _
  obtain ⟨r, l, s', hends, hcode, hsilent⟩ := unchecked_ends (T := T) (E := smooth) (fun _ _ h => h) hfits
    (unchecked_shortKey T.curves)
  exact hsilent (htold shortKey _ hfits r l s' hends hcode).1

end Krypto.Cli
