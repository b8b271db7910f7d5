import Krypto.Error

/-! `krypto-cli`'s command line: the commands, the flags each takes, and how a call fails. -/

namespace Krypto

def VERSION : String := "0.8.0"

def Message.after (before : String) : Message → Message
  | .text s => .text (before ++ s)
  | .quoting b c a => .quoting (before ++ b) c a

def Error.display : Error → Message
  | .io e => .text ("i/o error: " ++ e.message)
  | .hardening m => m.after "hardening error: "
  | .format m => m.after "format error: "
  | .auth => "authentication failure (tampering or wrong key)"
  | .keyNotFound => "key name not found in store"
  | .wrongKey => "blob was sealed under a different key generation (not tampering)"

namespace Cli
open Effect

structure Fail where
  code : UInt8
  msg : Message
  deriving DecidableEq

namespace Fail

def usage (msg : Message) : Fail := ⟨2, msg⟩

def io (msg : Message) : Fail := ⟨1, msg⟩

def krypto (e : Error) : Fail :=
  let code := match e with
    | .auth => 3
    | .wrongKey => 4
    | _ => 1
  ⟨code, e.display⟩

def fromArgs (e : Error) : Fail :=
  let fail := krypto e
  if fail.code = 1 then { fail with code := 2 } else fail

@[simp] theorem krypto_format (m : Message) : (krypto (.format m)).code = 1 := rfl

@[simp] theorem krypto_auth : (krypto .auth).code = 3 := rfl

@[simp] theorem krypto_wrongKey : (krypto .wrongKey).code = 4 := rfl

end Fail

def COMMANDS : List String :=
  ["version", "inspect", "keyid", "seal", "open", "mac", "sha256", "verify", "bench"]

def flagsOf (command : String) : List String :=
  if command = "keyid" then ["--key-file"]
  else if command = "seal" then ["--key-file", "--context", "--salt", "--alg"]
  else if command = "open" ∨ command = "mac" then ["--key-file", "--context", "--salt"]
  else if command = "verify" then ["--alg", "--public", "--signature"]
  else []

def overview : String := String.intercalate "\n"
  ["krypto-cli " ++ VERSION ++ " — a small helper for those who use krypto",
    "",
    "usage: krypto-cli <command> [flags]",
    "       krypto-cli <command> --help    the flags of one command",
    "",
    "commands:",
    "  version   the krypto version",
    "  inspect   tell what a file or dump on stdin is, and how it was made",
    "  keyid     the key id of a master key",
    "  seal      encrypt stdin",
    "  open      decrypt a blob on stdin",
    "  mac       HMAC-SHA256 of stdin",
    "  sha256    SHA-256 of stdin",
    "  verify    check an Ed25519 or P-256 signature over stdin",
    "  bench     time Argon2 per preset, and seal and open, on this machine",
    "",
    "exit codes:",
    "  0  ok",
    "  1  I/O or internal error",
    "  2  the call is wrong",
    "  3  authentication failed: tampering, or the wrong key",
    "  4  the blob belongs to another key generation: find the right key",
    "",
    "A helper, not a product: in code, use the crate, or krypto-py from Python."]

def helpOf (command : String) : Outcome Fail String :=
  match command with
  | "version" => .ok "usage: krypto-cli version\n\nPrints the krypto version."
  | "inspect" => .ok <| String.intercalate "\n"
    ["usage: krypto-cli inspect < file",
      "",
      "Tells what a file or a dump is, and how it was made, without a key: the",
      "format and the algorithms used. It knows what krypto makes (blobs, store",
      "files, password hashes, keys and signatures) and the common formats from",
      "other tools: OpenPGP, X.509 and PKCS, SSH, encrypted files, tokens,",
      "password hashes and compressed data. PEM, hex and base64 are unwrapped. It",
      "never shows a key, a plaintext or a hash value. A krypto blob whose header",
      "was changed is exit 3, as for open. docs/Inspect.md lists what it knows."]
  | "keyid" => .ok <| String.intercalate "\n"
    ["usage: krypto-cli keyid --key-file <file>",
      "",
      "Prints the key id of a master key, which says what key generation it is.",
      "",
      "  --key-file <file>   the master key: a file of 32 to 4096 bytes"]
  | "seal" => .ok <| String.intercalate "\n"
    ["usage: krypto-cli seal --key-file <file> --context <text> --salt <text> " ++
        "[--alg <name>] < plaintext > blob",
      "",
      "Encrypts stdin under the key derived from the master key, the context and",
      "the salt, and writes the blob to stdout.",
      "",
      "  --key-file <file>   the master key",
      "  --context <text>    what the key is for, as given to derive (my-app/tokens/v1)",
      "  --salt <text>       the salt given to derive",
      "  --alg <name>        aegis256 (the default), xchacha20 or aes256gcm"]
  | "open" => .ok <| String.intercalate "\n"
    ["usage: krypto-cli open --key-file <file> --context <text> --salt <text> < blob",
      "",
      "Decrypts a blob and writes the plaintext to stdout. A blob from another key",
      "generation is exit 4; a changed blob, or the wrong key, context or salt, is",
      "exit 3.",
      "",
      "  --key-file <file>   the master key",
      "  --context <text>    the context the blob was sealed with",
      "  --salt <text>       the salt the blob was sealed with"]
  | "mac" => .ok <| String.intercalate "\n"
    ["usage: krypto-cli mac --key-file <file> --context <text> --salt <text> < data",
      "",
      "Prints the HMAC-SHA256 of stdin under the derived key, in hex.",
      "",
      "  --key-file <file>   the master key",
      "  --context <text>    what the key is for, as given to derive",
      "  --salt <text>       the salt given to derive"]
  | "sha256" => .ok "usage: krypto-cli sha256 < data\n\nPrints the SHA-256 of stdin, in hex."
  | "verify" => .ok <| String.intercalate "\n"
    ["usage: krypto-cli verify --alg <alg> --public <hex> --signature <hex> < message",
      "",
      "Checks a signature over stdin: exit 0 if it holds, 3 if it does not.",
      "",
      "  --alg <alg>          ed25519, or p256 (ECDSA P-256 over SHA-256)",
      "  --public <hex>       the public key: 32 bytes for ed25519, SEC1 for p256",
      "  --signature <hex>    64 bytes for ed25519, DER for p256"]
  | "bench" => .ok <| String.intercalate "\n"
    ["usage: krypto-cli bench",
      "",
      "Times Argon2id for each preset (interactive, balanced, high), and seal and",
      "open of 1 KiB, on this machine. It takes about a second; use it to choose a",
      "preset."]
  | _ => .panic

structure Args where
  command : String
  flags : List (String × String)
  /-- `--help` or `-h` follows the command. -/
  help : Bool
  deriving DecidableEq

namespace Args

def get (self : Args) (flag : String) : Option String :=
  (self.flags.find? fun e => e.1 = flag).map Prod.snd

def need (self : Args) (flag : String) : Outcome Fail String :=
  .ofOption (.usage s!"`{self.command}` needs {flag}") (self.get flag)

theorem need_of_get {self : Args} {flag value : String} (h : self.get flag = some value) :
    self.need flag = .ok value := by
  rw [need, h, Outcome.ofOption_some]

end Args

def isHelp (a : String) : Bool := a = "-h" || a = "--help"

def parseFlags (command : String) :
    Nat → List (String × String) → List String → Outcome Fail (List (String × String))
  | _, flags, [] => .ok flags
  | position, flags, flag :: rest =>
    if flag ∉ flagsOf command then
      let takes := if flagsOf command = [] then "no flags" else String.intercalate " " (flagsOf command)
      .err (.usage s!"argument {position + 1} is not a flag `{command}` takes; it takes {takes}")
    else
      match rest with
      | [] => .err (.usage s!"{flag} needs a value")
      | value :: rest =>
        if flags.any fun e => e.1 = flag then .err (.usage s!"{flag} is given twice")
        else parseFlags command (position + 2) (flags ++ [(flag, value)]) rest

/-- An unknown command or flag is told by its position, never repeated back. -/
def parse : List String → Outcome Fail Args
  | [] => .err (.usage overview)
  | command :: rest =>
    if isHelp command then
      .ok { command, flags := [], help := true }
    else if command ∉ COMMANDS then
      .err (.usage ("argument 1 is not a command; the commands are " ++
        String.intercalate ", " COMMANDS ++ " (see --help)"))
    else if rest.any isHelp then
      .ok { command, flags := [], help := true }
    else do
      let flags ← parseFlags command 1 [] rest
      .ok { command, flags, help := false }

theorem parseFlags_allowed {command : String} {position : Nat} {flags : List (String × String)}
    {rest : List String} {all : List (String × String)}
    (h : parseFlags command position flags rest = .ok all)
    (hflags : ∀ e ∈ flags, e.1 ∈ flagsOf command) : ∀ e ∈ all, e.1 ∈ flagsOf command := by
  induction position, flags, rest using parseFlags.induct command with
  | case1 position flags =>
    cases h
    exact hflags
  | case2 position flags flag rest hnot =>
    rw [parseFlags.eq_def] at h
    simp only [if_pos hnot] at h
    cases h
  | case3 position flags flag hin =>
    rw [parseFlags.eq_def] at h
    simp only [if_neg hin] at h
    cases h
  | case4 position flags flag hin value rest htwice =>
    rw [parseFlags.eq_def] at h
    simp only [if_neg hin, if_pos htwice] at h
    cases h
  | case5 position flags flag hin value rest htwice ih =>
    rw [parseFlags.eq_def] at h
    simp only [if_neg hin, if_neg htwice] at h
    refine ih h fun e he => ?_
    rcases List.mem_append.mp he with he | he
    · exact hflags e he
    · rw [List.mem_singleton.mp he]
      exact not_not.mp hin

theorem parse_get_none {argv : List String} {args : Args} {flag : String}
    (h : parse argv = .ok args) (hhelp : args.help = false) (hflag : flag ∉ flagsOf args.command) :
    args.get flag = none := by
  cases argv with
  | nil => cases h
  | cons command rest =>
    rw [parse] at h
    split_ifs at h
    · cases h
      cases hhelp
    · cases h
      cases hhelp
    · obtain ⟨flags, hflags, hargs⟩ := Outcome.bind_eq_ok.mp h
      cases hargs
      have hall := parseFlags_allowed hflags fun e he => absurd he List.not_mem_nil
      rw [Args.get, Option.map_eq_none_iff, List.find?_eq_none]
      intro e he heq
      exact hflag ((of_decide_eq_true heq) ▸ hall e he)

end Cli
end Krypto
