import Krypto.Cli.Args
import Krypto.Effect.Embed
import Krypto.Inspect
import Krypto.Password
import Krypto.Sign

/-! `krypto-cli`: each command, from its arguments and stdin to stdout and an exit code. -/

namespace Krypto.Cli
open Effect

/-- What the tool asks of its surroundings: the calls of the crate, and its own streams. -/
inductive Syscall where
  | sys (op : Call String)
  /-- `stdin().take(limit).read_to_end` -/
  | readToEnd (limit : Nat)
  /-- `stdin.read` into a buffer of `size` bytes, again when it is interrupted -/
  | readChunk (size : Nat)
  /-- `stdout.write_all`, and `flush` -/
  | write (data : Bytes)
  /-- `Instant::now`, in nanoseconds -/
  | now

namespace Syscall

def Reply : Syscall → Type
  | sys op => op.Reply
  | readToEnd _ | readChunk _ => Except IoError Bytes
  | write _ => Except IoError Unit
  | now => Nat

/-- A read may fail, and one of a chunk may stop anywhere; a failing write may have written any
part of the data. -/
def Choice : Syscall → Type
  | sys op => op.Choice
  | readToEnd _ => Option IoError
  | readChunk _ => Except IoError Nat
  | write _ => Option (IoError × Nat)
  | now => Nat

end Syscall

structure Shell where
  process : Process String Unit
  stdin : Bytes
  stdout : Bytes

def Shell.step : (op : Syscall) → op.Choice → Shell → op.Reply × Shell
  | .sys op, c, s =>
    let (y, process) := (kernel String ()).step op c s.process
    (y, { s with process })
  | .readToEnd _, some e, s => (.error e, s)
  | .readToEnd limit, none, s =>
    (.ok (s.stdin.take limit), { s with stdin := s.stdin.drop limit })
  | .readChunk _, .error e, s => (.error e, s)
  | .readChunk size, .ok n, s =>
    -- at least a byte is read, until there is none
    let n := min size (n + 1)
    (.ok (s.stdin.take n), { s with stdin := s.stdin.drop n })
  | .write data, some (e, n), s => (.error e, { s with stdout := s.stdout ++ data.take n })
  | .write data, none, s => (.ok (), { s with stdout := s.stdout ++ data })
  | .now, nanos, s => (nanos, s)

def shell : Machine Syscall.Reply Shell where
  Choice := Syscall.Choice
  step := Shell.step

abbrev Step (α : Type) := Prog Syscall.Reply Fail α

variable {α : Type}

def ask (op : Syscall) : Step op.Reply := Prog.perform op

def lift (r : Outcome Fail α) : Step α := .done r

def now : Step Nat := ask .now

def crate : Into (Call.Reply (ν := String)) Syscall.Reply where
  op := .sys
  back _ y := y

def mapErr (f : Error → Fail) (p : Action String α) : Step α := p.embed crate f

def MAX_STDIN : Nat := 64 * 1024 * 1024

def tooMuch : Fail := .usage s!"stdin is more than {MAX_STDIN} bytes"

def readStdin : Step Bytes := do
  match ← ask (.readToEnd (MAX_STDIN + 1)) with
  | .error e => Prog.throw (.io ("reading stdin failed: " ++ e.message))
  | .ok input => if MAX_STDIN < input.length then Prog.throw tooMuch else pure input

structure Growing where
  buf : Bytes
  capacity : Nat

/-- One chunk more. A buffer it does not fit is wiped, after a bigger one has taken its bytes. -/
def Growing.extend (self : Growing) (chunk : Bytes) : Outcome Fail Growing :=
  let len := self.buf.length + chunk.length
  if MAX_STDIN < len then
    .err tooMuch
  else
    .ok ⟨self.buf ++ chunk, if self.capacity < len then max len (2 * self.capacity) else self.capacity⟩

theorem Growing.extend_ok {held : Growing} {chunk : Bytes}
    (h : held.buf.length + chunk.length ≤ MAX_STDIN) :
    ∃ capacity, held.extend chunk = .ok ⟨held.buf ++ chunk, capacity⟩ := by
  unfold Growing.extend
  rw [if_neg (Nat.not_lt.mpr h)]
  exact ⟨_, rfl⟩

/-- The loop of `read_stdin_secret`. Every chunk but the last holds a byte, so the fuel is more
than there are chunks. -/
def readChunks : Nat → Growing → Step Bytes
  | 0, _ => lift .panic
  | fuel + 1, held => do
    match ← ask (.readChunk (64 * 1024)) with
    | .error e => Prog.throw (.io ("reading stdin failed: " ++ e.message))
    | .ok [] => pure held.buf
    | .ok chunk => readChunks fuel (← lift (held.extend chunk))

def afterChunk (fuel : Nat) (held : Growing) : Except IoError Bytes → Step Bytes
  | .error e => Prog.throw (.io ("reading stdin failed: " ++ e.message))
  | .ok [] => pure held.buf
  | .ok chunk => lift (held.extend chunk) >>= readChunks fuel

def readStdinSecret : Step SecretBuf := do
  let buf ← readChunks (MAX_STDIN + 2) ⟨[], 0⟩
  mapErr .krypto (lockedPages buf.length)
  pure buf

def out (bytes : Bytes) : Step Unit := do
  match ← ask (.write bytes) with
  | .ok () => pure ()
  | .error e => Prog.throw (.io ("writing to stdout failed: " ++ e.message))

def line (text : Str) : Step Unit := out (Str.asBytes (text ++ ['\n']))

/-- What the commands take from other crates, and how two of the times of `bench` are shown. -/
structure Tools where
  primitives : Primitives
  hmacSha256 : (key : Fixed 32) → (data : Bytes) → Fixed 32
  inspector : Inspect.Lib
  curves : Sign.Curves
  argon2 : Password.Argon2
  /-- `{:>9.1}` of `as_secs_f64() * 1e3` -/
  millis : (nanos : Nat) → Str
  /-- `{:>9.1}` of `as_secs_f64() * 1e6 / f64::from(ROUNDS)` -/
  microsPerRound : (nanos : Nat) → Str

section Commands
variable (T : Tools)

def master (args : Args) : Step MasterKey := do
  let path ← lift (args.need "--key-file")
  mapErr .krypto (MasterKey.fromSecretFile path)

def algOf (args : Args) : Outcome Fail Alg :=
  match args.get "--alg" with
  | none | some "aegis256" => .ok .aegis256
  | some "xchacha20" => .ok .xchacha20Poly1305
  | some "aes256gcm" => .ok .aes256Gcm
  | some _ => .err (.usage "--alg is aegis256, xchacha20 or aes256gcm")

/-- The `open` arm: the blob's key id is compared with this key's before it is opened. -/
def openInput (master : MasterKey) (key : DerivedKey) (input : Bytes) : Step Unit := do
  let expected ← mapErr .krypto (master.keyId T.hmacSha256 T.primitives)
  let id ← mapErr .krypto (Krypto.lift (Aead.blobKeyId input))
  if id ≠ expected.toList then
    -- another key generation is routing, not tampering
    Prog.throw (.krypto .wrongKey)
  else
    let plaintext ← mapErr .krypto (Aead.openBlob T.primitives key input)
    out plaintext

def aead (args : Args) : Step Unit := do
  let alg ← lift (algOf args)
  let master ← master args
  let context ← lift (args.need "--context")
  let salt ← lift (args.need "--salt")
  let key ← mapErr .fromArgs
    (master.derive T.primitives (Str.asBytes context.toList) (Str.asBytes salt.toList))
  if args.command = "seal" then
    let id ← mapErr .krypto (master.keyId T.hmacSha256 T.primitives)
    let plaintext ← readStdinSecret
    out (← mapErr .krypto (Aead.sealBlob T.primitives key id plaintext alg))
  else
    let input ← readStdin
    if args.command = "open" then
      openInput T master key input
    else
      let mac ← mapErr .krypto (Krypto.lift (hmacSha256 T.hmacSha256 key input))
      line (Hex.encode mac.toList)

def hexArg (args : Args) (flag : String) : Outcome Fail Bytes := do
  let value ← args.need flag
  match Hex.decode value.toList with
  | .ok bytes => .ok bytes
  | .err e => .err (.usage (e.display.after (flag ++ " must be lowercase hex: ")))
  | .panic => .panic

def verify (args : Args) : Step Unit := do
  let alg ← lift (args.need "--alg")
  let check ← match alg with
    | "ed25519" => pure (Sign.ed25519Verify T.curves)
    | "p256" => pure (Sign.ecdsaP256Verify T.curves)
    | _ => Prog.throw (.usage "--alg for verify is ed25519 or p256")
  let publicKey ← lift (hexArg args "--public")
  let signature ← lift (hexArg args "--signature")
  let message ← readStdin
  mapErr .fromArgs (Krypto.lift (check publicKey message signature))
  line "the signature holds".toList

def inspect : Step Unit := do
  let found := Inspect.inspect T.inspector (← readStdin)
  line found.report
  if found.changed then Prog.throw (.krypto .auth) else pure ()

/-! ### `bench` -/

def PRESETS : List (String × Password.Preset) :=
  [("interactive", .interactive), ("balanced", .balanced), ("high", .high)]

def ROUNDS : Nat := 1000

def presetLine (name : String) (nanos : Nat) : Str :=
  "argon2id ".toList ++ name.toList ++ List.replicate (12 - name.length) ' ' ++ [' '] ++
    T.millis nanos ++ " ms\n".toList

def roundsLine (what : String) (nanos : Nat) : Str :=
  what.toList ++ " aegis256 1 KiB ".toList ++ T.microsPerRound nanos ++ " µs\n".toList

def presetLines (pw : SecretString) : List (String × Password.Preset) → (report : Str) → Step Str
  | [], report => pure report
  | (name, preset) :: presets, report => do
    let start ← now
    let _ ← mapErr .krypto (Password.deriveKey T.argon2 pw (List.replicate 16 0) preset)
    let stop ← now
    presetLines pw presets (report ++ presetLine T name (stop - start))

def sealRounds (key : DerivedKey) (id : Fixed 16) (plaintext : SecretBuf) : Nat → (blob : Bytes) → Step Bytes
  | 0, blob => pure blob
  | rounds + 1, _ => do
    let blob ← mapErr .krypto (Aead.sealBlob T.primitives key id plaintext .aegis256)
    sealRounds key id plaintext rounds blob

def openRounds (key : DerivedKey) (blob : Bytes) : Nat → Step Unit
  | 0 => pure ()
  | rounds + 1 => do
    let _ ← mapErr .krypto (Aead.openBlob T.primitives key blob)
    openRounds key blob rounds

def bench : Step Unit := do
  let pw ← mapErr .krypto (SecretString.fromString "krypto-cli bench")
  let report ← presetLines T pw PRESETS []
  let random ← mapErr .krypto (SecretBuf.random 32)
  let master ← mapErr .krypto (Krypto.lift (MasterKey.fromBytes random))
  let key ← mapErr .krypto (master.derive T.primitives (Str.asBytes "krypto-cli/bench".toList)
    (Str.asBytes "bench".toList))
  let id ← mapErr .krypto (master.keyId T.hmacSha256 T.primitives)
  let plaintext ← mapErr .krypto (SecretBuf.random 1024)
  let start ← now
  let blob ← sealRounds T key id plaintext ROUNDS []
  let sealed ← now
  let restart ← now
  openRounds T key blob ROUNDS
  let opened ← now
  let report := report ++ roundsLine T "seal" (sealed - start)
  let report := report ++ roundsLine T "open" (opened - restart)
  out (Str.asBytes report)

def command (args : Args) : Step Unit :=
  match args.command with
  | "version" => line VERSION.toList
  | "inspect" => inspect T
  | "keyid" => do
    let master ← master args
    let id ← mapErr .krypto (master.keyId T.hmacSha256 T.primitives)
    line (Hex.encode id.toList)
  | "seal" | "open" | "mac" => aead T args
  | "sha256" => do line (Hex.encode (T.inspector.sha256 (← readStdin)))
  | "verify" => verify T args
  | "bench" => bench T
  | _ => lift .panic

def run (argv : List String) : Step Unit := do
  let args ← lift (parse argv)
  if args.help then
    if isHelp args.command then line overview.toList
    else line (← lift (helpOf args.command)).toList
  else
    command T args

theorem run_of_parse {argv : List String} {args : Args} (h : parse argv = .ok args) :
    run T argv = if args.help then
      (if isHelp args.command then line overview.toList
        else do line (← lift (helpOf args.command)).toList)
      else command T args := by
  rw [run, h]
  rfl

theorem run_of_command {argv : List String} {args : Args} (h : parse argv = .ok args)
    (hhelp : args.help = false) : run T argv = command T args := by
  rw [run_of_parse T h, hhelp]
  rfl

def exitCode : Outcome Fail Unit → Option UInt8
  | .ok () => some 0
  | .err fail => some fail.code
  | .panic => none

end Commands
end Krypto.Cli
