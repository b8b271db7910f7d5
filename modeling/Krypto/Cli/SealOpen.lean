import Krypto.Aead.Reseal
import Krypto.Cli.Stdout

/-! `krypto-cli open` gives back what `krypto-cli seal` was given. -/

namespace Krypto.Cli
open Effect

variable {T : Tools} {E : shell.Env} {args : Args} {argv : List String} {s s' : Shell}
  {master master' : MasterKey} {key key' : DerivedKey} {r : Outcome Fail Unit}

/-! ### One call -/

theorem HoldsKey.unique {p : Process String Unit} {path : String} (h : HoldsKey p path master)
    (h' : HoldsKey p path master') : master = master' := by
  obtain ⟨i, hdir, hcontent⟩ := h
  obtain ⟨i', hdir', hcontent'⟩ := h'
  rw [hdir, Option.some.injEq] at hdir'
  rw [← hdir', hcontent] at hcontent'
  cases master
  cases master'
  cases hcontent'
  rfl

theorem Keyed.unique (h : Keyed T s args master key) (h' : Keyed T s args master' key') :
    master = master' ∧ key = key' := by
  obtain ⟨⟨path, hpath, hfile⟩, context, salt, hcontext, hsalt, hkey⟩ := h
  obtain ⟨⟨path', hpath', hfile'⟩, context', salt', hcontext', hsalt', hkey'⟩ := h'
  rw [hpath, Option.some.injEq] at hpath'
  rw [hcontext, Option.some.injEq] at hcontext'
  rw [hsalt, Option.some.injEq] at hsalt'
  subst hpath' hcontext' hsalt'
  obtain rfl := hfile.unique hfile'
  exact ⟨rfl, hkey.trans hkey'.symm⟩

theorem ended_of_parse (hparse : parse argv = .ok args) (h : Ends shell E (run T argv) s r s') :
    ∃ written, s'.stdout = s.stdout ++ written ∧ Ended T s args r written := by
  obtain ⟨-, written, hwritten, ⟨fail, hfail, -⟩ | ⟨args', hparse', hended⟩⟩ := stdout_is_the_answer T h
  · rw [hparse] at hfail
    cases hfail
  · rw [hparse, Outcome.ok.injEq] at hparse'
    rw [← hparse'] at hended
    exact ⟨written, hwritten, hended⟩

theorem Answer.prints {text : Bytes} (h : Answer T s args text) (hhelp : args.help = false) :
    Prints T s args args.command text := by
  cases h with
  | overview htrue _ =>
    rw [hhelp] at htrue
    cases htrue
  | usage htrue _ =>
    rw [hhelp] at htrue
    cases htrue
  | command _ h => exact h

theorem Prints.of_seal {command : String} {text : Bytes} (h : Prints T s args command text)
    (hcommand : command = "seal") :
    ∃ master key alg, ∃ nonce : Fixed alg.nonceLen, Keyed T s args master key ∧ algOf args = .ok alg ∧
      Aead.sealWith T.primitives nonce.toList key (keyIdOf T master) s.stdin alg = .ok text := by
  cases h with
  | sealed hkey halg hblob => exact ⟨_, _, _, _, hkey, halg, hblob⟩
  | _ => exact absurd hcommand (by decide)

theorem Prints.of_open {command : String} {text : Bytes} (h : Prints T s args command text)
    (hcommand : command = "open") :
    ∃ master key, Keyed T s args master key ∧ Aead.openBody T.primitives key s.stdin = .ok text := by
  cases h with
  | opened hkey _ hopen => exact ⟨_, _, hkey, hopen⟩
  | _ => exact absurd hcommand (by decide)

/-- A call that ends well has a context and a salt that are long enough and not too long. -/
theorem checkInputs_of_ends {context salt : String} (hparse : parse argv = .ok args)
    (hcommand : args.command = "seal") (hhelp : args.help = false)
    (hcontext : args.get "--context" = some context) (hsalt : args.get "--salt" = some salt)
    (h : Ends shell E (run T argv) s (.ok ()) s') :
    MasterKey.checkInputs (Str.asBytes context.toList) (Str.asBytes salt.toList) = .ok () := by
  rcases checkInputs_cases (Str.asBytes context.toList) (Str.asBytes salt.toList) with hin | ⟨m, hin⟩
  · exact hin
  have hrun : run T argv = aead T args := by
    rw [run_of_command T hparse hhelp, command, hcommand]
    rfl
  have hnever : Yields (fun _ => False) (run T argv) := by
    rw [hrun, aead, Args.need_of_get hcontext, Args.need_of_get hsalt]
    refine yields_bind fun alg => yields_bind fun master => ?_
    show Yields _ (mapErr .fromArgs (master.derive T.primitives _ _) >>= _)
    rw [MasterKey.derive, hin]
    exact yields_throw _
  exact (quiet_ends hnever h () rfl).elim

theorem printed_by_seal (hparse : parse argv = .ok args) (hcommand : args.command = "seal")
    (hhelp : args.help = false) (h : Ends shell E (run T argv) s (.ok ()) s') :
    ∃ master key alg, ∃ nonce : Fixed alg.nonceLen, ∃ blob, Keyed T s args master key ∧ algOf args = .ok alg ∧
      Aead.sealWith T.primitives nonce.toList key (keyIdOf T master) s.stdin alg = .ok blob ∧
      s'.stdout = s.stdout ++ blob := by
  obtain ⟨written, hwritten, hended⟩ := ended_of_parse hparse h
  cases hended with
  | answered hanswer =>
    obtain ⟨master, key, alg, nonce, hkey, halg, hblob⟩ := (hanswer.prints hhelp).of_seal hcommand
    exact ⟨master, key, alg, nonce, written, hkey, halg, hblob, hwritten⟩

theorem printed_by_open (hparse : parse argv = .ok args) (hcommand : args.command = "open")
    (hhelp : args.help = false) (hkey : Keyed T s args master key) {plaintext : Bytes}
    (hopen : Aead.openBody T.primitives key s.stdin = .ok plaintext) (h : Ends shell E (run T argv) s r s') :
    ∃ written, s'.stdout = s.stdout ++ written ∧ written <+: plaintext ∧ (r = .ok () → written = plaintext) ∧
      (∀ m, r = .err (.usage m) → written = []) := by
  obtain ⟨written, hwritten, hended⟩ := ended_of_parse hparse h
  have hwhole {text : Bytes} (hanswer : Answer T s args text) : text = plaintext := by
    obtain ⟨master', key', hkey', hopen'⟩ := (hanswer.prints hhelp).of_open hcommand
    rw [← (hkey.unique hkey').2, hopen] at hopen'
    exact (Outcome.ok.inj hopen').symm
  refine ⟨written, hwritten, ?_⟩
  cases hended with
  | silent _ => exact ⟨List.nil_prefix, fun hr => (by cases hr), fun _ _ => rfl⟩
  | answered hanswer =>
    obtain rfl := hwhole hanswer
    exact ⟨List.prefix_refl _, fun _ => rfl, fun m hr => by cases hr⟩
  | changed _ hinspect _ =>
    rw [hcommand] at hinspect
    exact absurd hinspect (by decide)
  | cut hanswer =>
    obtain rfl := hwhole hanswer
    exact ⟨List.take_prefix _ _, fun hr => (by cases hr), fun m hr => by cases hr⟩

/-! ### Both -/

/-- A call of `open` with the context and the salt of another call, whose key file holds what
that of the other one did. -/
structure Reopens (s : Shell) (args : Args) (t : Shell) (argv' : List String) (args' : Args) : Prop where
  parsed : parse argv' = .ok args'
  command : args'.command = "open"
  help : args'.help = false
  context : args'.get "--context" = args.get "--context"
  salt : args'.get "--salt" = args.get "--salt"
  file : ∀ path master, args.get "--key-file" = some path → HoldsKey s.process path master →
    ∃ path', args'.get "--key-file" = some path' ∧ HoldsKey t.process path' master

theorem wp_run_open_long (hcall : CallsOpen T argv master key s) (hlong : MAX_STDIN < s.stdin.length) :
    Wp (run T argv) (fun r _ => r = .err tooMuch) s := by
  apply wp_run_open_key hcall
  intro s1 hs1 c hc
  have hc : c = none := hc
  subst hc
  refine ⟨trivial, ?_⟩
  have hread : MAX_STDIN < (s1.stdin.take (MAX_STDIN + 1)).length := by
    rw [hs1, List.length_take]
    omega
  show Wp ((if MAX_STDIN < (s1.stdin.take (MAX_STDIN + 1)).length then Prog.throw tooMuch
    else pure (s1.stdin.take (MAX_STDIN + 1))) >>= openInput T master key) _ _
  rw [if_pos hread]
  rfl

/-- What a call of `seal` that ended well has written, a call of `open` with the same key, context
and salt opens: it writes the plaintext or a part of it, in any environment, and all of it where
nothing fails, unless the blob is more than `open` reads. -/
theorem open_undoes_seal (hP : Aead.Correct T.primitives) (hU : Aead.Uniform T.primitives)
    (hparse : parse argv = .ok args) (hcommand : args.command = "seal") (hhelp : args.help = false)
    (h : Ends shell E (run T argv) s (.ok ()) s') :
    ∃ alg blob, algOf args = .ok alg ∧ s'.stdout = s.stdout ++ blob ∧
      blob.length = Aead.HEADER_LEN + s.stdin.length + Aead.tagLen alg ∧
      ∀ t argv' args', t.stdin = blob → Reopens s args t argv' args' →
        (∀ (E' : shell.Env) r t', Ends shell E' (run T argv') t r t' →
          ∃ written, t'.stdout = t.stdout ++ written ∧ written <+: s.stdin ∧ (r = .ok () → written = s.stdin)) ∧
        (∃ r t', Ends shell smooth (run T argv') t r t') ∧
        ∀ r t', Ends shell smooth (run T argv') t r t' →
          if blob.length ≤ MAX_STDIN then r = .ok () ∧ t'.stdout = t.stdout ++ s.stdin
          else r = .err tooMuch ∧ t'.stdout = t.stdout := by
  obtain ⟨master, key, alg, nonce, blob, hkey, halg, hblob, hout⟩ := printed_by_seal hparse hcommand hhelp h
  refine ⟨alg, blob, halg, hout, hU.length nonce.length_eq hblob, fun t argv' args' hstdin hre => ?_⟩
  have hopen : Aead.openBody T.primitives key t.stdin = .ok s.stdin := by
    rw [hstdin]
    exact Aead.openBody_sealWith hP nonce.length_eq hblob
  obtain ⟨⟨path, hpath, hfile⟩, context, salt, hcontext, hsalt, hderived⟩ := hkey
  obtain ⟨path', hpath', hfile'⟩ := hre.file path master hpath hfile
  have hkey' : Keyed T t args' master key :=
    ⟨⟨path', hpath', hfile'⟩, context, salt, hre.context.trans hcontext, hre.salt.trans hsalt, hderived⟩
  have hcall : CallsOpen T argv' master key t :=
    ⟨args', path', context, salt, hre.parsed, hre.command, hre.help, hpath', hfile', hre.context.trans hcontext,
      hre.salt.trans hsalt, checkInputs_of_ends hparse hcommand hhelp hcontext hsalt h, hderived⟩
  have hprinted {E' : shell.Env} {r : Outcome Fail Unit} {t' : Shell} (hends : Ends shell E' (run T argv') t r t') :=
    printed_by_open hre.parsed hre.command hre.help hkey' hopen hends
  refine ⟨fun E' r t' hends => ?_, exists_ends smooth_total _ _, fun r t' hends => ?_⟩
  · obtain ⟨written, hwritten, hprefix, hok, -⟩ := hprinted hends
    exact ⟨written, hwritten, hprefix, hok⟩
  · obtain ⟨written, hwritten, -, hok, husage⟩ := hprinted hends
    split_ifs with hle
    · have hr := (wp_run_open hcall (hstdin ▸ hle)).ends hends
      have hid : Aead.blobKeyId t.stdin = .ok (keyIdOf T master).toList := by
        obtain ⟨ct, -, hct⟩ := (Aead.sealWith_eq_ok T.primitives).mp hblob
        rw [hstdin, hct]
        exact Aead.blobKeyId_headerBytes alg _ (nonce.length_eq.trans_le alg.nonceLen_le) ct
      have hopened : opened T master key t.stdin = .ok s.stdin := by
        rw [opened, hid]
        show (if _ then _ else _) = _
        rw [if_neg (not_not.mpr rfl), hopen]
        rfl
      rw [hopened] at hr
      exact ⟨hr, hok hr ▸ hwritten⟩
    · have hr := (wp_run_open_long hcall (hstdin ▸ Nat.lt_of_not_le hle)).ends hends
      rw [husage _ hr, List.append_nil] at hwritten
      exact ⟨hr, hwritten⟩

section Sample

def openTools : Tools := { sampleTools with primitives := Aead.transparent (fun _ _ _ => .zero 32) fun _ => true }

def sampleSealed : Outcome Fail Unit × Shell := shell.play (writing none) (run openTools sampleSealCall) (sampleShell [1, 2, 3])

theorem open_undoes_seal_sample :
    Ends shell (fun _ _ => True) (run openTools sampleSealCall) (sampleShell [1, 2, 3]) (.ok ()) sampleSealed.2 ∧
      ∃ t', Ends shell smooth (run openTools sampleOpen) (sampleShell sampleSealed.2.stdout) (.ok ()) t' ∧
        t'.stdout = [1, 2, 3] := by
  have hends : Ends shell (fun _ _ => True) (run openTools sampleSealCall) (sampleShell [1, 2, 3]) (.ok ())
      sampleSealed.2 := by
    have hok : sampleSealed.1 = .ok () := by decide +kernel
    rw [← hok]
    exact ends_play (M := shell) (E := fun _ _ => True) (writing none) (fun _ => trivial) _ _
  have hargs : parse sampleSealCall = .ok ⟨"seal", [("--key-file", "key"), ("--context", "c"), ("--salt", "s")], false⟩ := by
    decide +kernel
  obtain ⟨alg, blob, -, hout, -, hopens⟩ :=
    open_undoes_seal (T := openTools) (Aead.transparent_correct fun _ _ _ => .zero 32)
      (Aead.transparent_uniform (fun _ _ _ => .zero 32) fun _ => true) hargs rfl rfl hends
  have hout : sampleSealed.2.stdout = blob := hout
  have hre : Reopens (sampleShell [1, 2, 3])
      ⟨"seal", [("--key-file", "key"), ("--context", "c"), ("--salt", "s")], false⟩ (sampleShell blob) sampleOpen
      ⟨"open", [("--salt", "s"), ("--key-file", "key"), ("--context", "c")], false⟩ :=
    ⟨by decide +kernel, rfl, rfl, rfl, rfl, fun path master hpath hfile => ⟨path, hpath, hfile⟩⟩
  obtain ⟨-, ⟨r, t', ht'⟩, hall⟩ := hopens (sampleShell blob) sampleOpen _ rfl hre
  have hshort : blob.length ≤ MAX_STDIN := by
    rw [← hout]
    decide +kernel
  have hend := hall r t' ht'
  rw [if_pos hshort] at hend
  refine ⟨hends, t', ?_, hend.2⟩
  rw [hout, ← hend.1]
  exact ht'

end Sample
end Krypto.Cli
