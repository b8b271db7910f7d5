import Krypto.Inspect.Printable.Formats
import Krypto.Inspect.Printable.Pgp
import Krypto.Inspect.Printable.Pkix

/-! The texts of an input that some recognizers copy into the report as they are, and what those
recognizers tell: it is printable exactly when the texts are. -/

namespace Krypto.Inspect
open Effect

/-! ## The texts that are copied -/

def phcCopies (text : Str) : List Str :=
  ((Str.stripPrefix "$argon2id$" text).bind fun rest =>
    (Str.split '$' rest)[0]?.bind (Str.stripPrefix "v=")).toList

namespace Ssh

def kindCopies (blob : Bytes) : List Str :=
  ((string blob).bind fun (kind, _) => Str.fromUtf8 kind).toList

def privateKeyCopies (body : Bytes) : Option (List Str) := do
  let rest ← stripMagic (ascii "openssh-key-v1\x00") body
  let (cipher, rest) ← string rest
  let (kdf, rest) ← string rest
  let (_, rest) ← string rest
  let (public', _) ← string (rest.drop 4)
  let encryption := if Str.fromUtf8Lossy cipher = "none".toList then []
    else [Str.fromUtf8Lossy cipher, Str.fromUtf8Lossy kdf]
  some (kindCopies public' ++ encryption)

def signatureCopies (body : Bytes) : Option (List Str) := do
  let rest ← stripMagic (ascii "SSHSIG") body
  let (public', rest) ← string (rest.drop 4)
  let (_, rest) ← string rest
  let (_, rest) ← string rest
  let (hash, _) ← string rest
  some (kindCopies public' ++ [Str.fromUtf8Lossy hash])

def rfc4716Copies (text : Str) : Option (List Str) :=
  (decoded (rfc4716Body false (Str.lines text).tail)).map kindCopies

def publicLineCopies (text : Str) : Option (List Str) :=
  ((Str.splitWhitespace text)[1]?.bind decoded).map kindCopies

end Ssh

def armored (text : Str) : Option Finding :=
  (Ssh.decoded (Str.trim (Pgp.armorBody text))).bind Pgp.fromBinary

def armorCopies (lib : Lib) (text : Str) : List Str :=
  let label := Str.firstPiece "-----" ((Str.stripPrefix "-----BEGIN PGP " text).getD [])
  if (armored text).isSome then [label] else [label, lib.toLowercase label]

section Nested
variable (lib : Lib) (inner : Bytes → ℕ → List Str)

def pemInnerCopies (label : Str) (depth : ℕ) (b : Bytes) : List Str :=
  if label = "OPENSSH PRIVATE KEY".toList then
    if (Ssh.privateKey b).isSome then (Ssh.privateKeyCopies b).getD [] else []
  else if label = "SSH SIGNATURE".toList then
    if (Ssh.signature b).isSome then (Ssh.signatureCopies b).getD [] else []
  else if label = "RSA PUBLIC KEY".toList then []
  else inner b (depth + 1)

def pemCopies (rest text : Str) (depth : ℕ) : List Str :=
  let label := Str.firstPiece "-----" rest
  if Str.startsWith "PGP " label then armorCopies lib text
  else ((Ssh.decoded (pemBody text)).map (pemInnerCopies inner label depth)).getD []

def unhexed (text : Str) : Option Bytes :=
  if 2 ≤ text.asBytes.length ∧ text.asBytes.all Str.isAsciiHexdigit then
    match Hex.decode (Str.toAsciiLowercase text) with
    | .ok bytes => some bytes
    | _ => none
  else
    none

def unwrappedCopies (text : Str) (depth : ℕ) : List Str :=
  let base64 := if 8 ≤ text.asBytes.length then Ssh.decoded text else none
  match (unhexed text).or base64 with
  | some bytes => inner bytes (depth + 1)
  | none => []

def stringCopies (text : Str) (depth : ℕ) : List Str :=
  if (phcArgon2id text).isSome then
    phcCopies text
  else
    match Str.stripPrefix "-----BEGIN " text with
    | some rest => pemCopies lib inner rest text depth
    | none =>
      if (Ssh.rfc4716 lib text).isSome then (Ssh.rfc4716Copies text).getD []
      else if (Ssh.putty text).isSome then []
      else if (Ssh.publicLine lib text).isSome then (Ssh.publicLineCopies text).getD []
      else if (Formats.fromText lib text).isSome then []
      else if depth < 2 then unwrappedCopies inner text depth
      else []

def copiesOne (input : Bytes) (depth : ℕ) : List Str :=
  if (recognizers.findSome? fun f => f input).isSome then
    []
  else
    match (Str.fromUtf8 input).map Str.trim with
    | some text => stringCopies lib inner text depth
    | none => []

end Nested

def copiesWith (lib : Lib) : ℕ → Bytes → ℕ → List Str
  | 0 => fun _ _ => []
  | fuel + 1 => copiesOne lib (copiesWith lib fuel)

/-- The texts of `input`, or of what it wraps, that the report shows as they are. -/
def copies (lib : Lib) (input : Bytes) : List Str := copiesWith lib (input.length + 1) input 0

/-! ## The reports follow them -/

/-- `f` is printable exactly when the texts are; what is not recognized copies nothing that is not. -/
structure Follows (f : Finding) (texts : List Str) : Prop where
  printed : Printed f ↔ AllShown texts
  unnamed : f.what = NOT_RECOGNIZED → AllShown texts

theorem Follows.of_printed {f : Finding} {texts : List Str} (h : Printed f) (ht : AllShown texts) :
    Follows f texts := ⟨iff_of_true h ht, fun _ => ht⟩

theorem Follows.of_head {f : Finding} {texts : List Str} (h : Printed f ↔ AllShown texts)
    (hwhat : f.what.head? ≠ some 'n') : Follows f texts := by
  refine ⟨h, fun he => absurd ?_ hwhat⟩
  rw [he]
  rfl

/-- One more layer, told of in a first fact. -/
theorem Follows.first {f : Finding} {texts : List Str} (h : Follows f texts) {name : String}
    {value : Str} (hname : Shown name.toList) (hvalue : Shown value) :
    Follows (f.first name value) texts :=
  ⟨by rw [printed_first hname, and_iff_left hvalue]; exact h.printed, h.unnamed⟩

theorem allShown_cons {s : Str} {out : List Str} : AllShown (s :: out) ↔ Shown s ∧ AllShown out :=
  List.forall_mem_cons

theorem allShown_append {out more : List Str} :
    AllShown (out ++ more) ↔ AllShown out ∧ AllShown more := List.forall_mem_append

theorem printed_fact {f : Finding} {name : String} {value : Str} (hname : Shown name.toList) :
    Printed (f.fact name value) ↔ Printed f ∧ Shown value := by
  refine ⟨fun h => ⟨⟨h.what, fun e he => h.facts e (List.mem_append_left _ he)⟩, ?_⟩,
    fun h => h.1.fact hname h.2⟩
  exact (h.facts (name.toList, value) (List.mem_append_right _ (List.mem_singleton.mpr rfl))).2

theorem phcArgon2id_follows {text : Str} {f : Finding} (h : phcArgon2id text = some f) :
    Follows f (phcCopies text) := by
  obtain ⟨rest, hrest, h⟩ := Option.bind_eq_some_iff.mp h
  obtain ⟨first, hfirst, h⟩ := Option.bind_eq_some_iff.mp h
  obtain ⟨version, hversion, h⟩ := Option.bind_eq_some_iff.mp h
  obtain ⟨params, -, h⟩ := Option.bind_eq_some_iff.mp h
  obtain ⟨costs, -, h⟩ := Option.bind_eq_some_iff.mp h
  obtain ⟨m, -, h⟩ := Option.bind_eq_some_iff.mp h
  obtain ⟨t, -, h⟩ := Option.bind_eq_some_iff.mp h
  obtain ⟨p, -, h⟩ := Option.bind_eq_some_iff.mp h
  cases h
  have hcopies : phcCopies text = [version] := by
    rw [phcCopies, hrest, Option.bind_some, hfirst, Option.bind_some, hversion]
    rfl
  have hmemory : Shown (Str.decimal (m / 1024) ++ " MiB (m=".toList ++ Str.decimal m ++ [')']) :=
    (((shown_decimal _).append (shown_literal rfl)).append (shown_decimal _)).append
      (shown_char (by decide))
  have hpreset : Shown (presetName m t p) := by
    unfold presetName
    split_ifs <;> exact shown_literal rfl
  have hnew : Printed (Finding.new "password hash (PHC string, Argon2id)") :=
    Printed.new (shown_literal rfl)
  apply Follows.of_head
  · rw [printed_fact (shown_literal rfl), and_iff_left hpreset, printed_fact (shown_literal rfl),
      and_iff_left (shown_decimal p), printed_fact (shown_literal rfl),
      and_iff_left (shown_decimal t), printed_fact (shown_literal rfl), and_iff_left hmemory,
      printed_fact (shown_literal rfl), and_iff_right hnew, hcopies, allShown_cons,
      and_iff_left allShown_nil]
  · exact (by decide +kernel : "password hash (PHC string, Argon2id)".toList.head? ≠ some 'n')

namespace Ssh

theorem keyType_shown {blob : Bytes} {kind : Str} (h : keyType blob = some kind) :
    Shown kind ↔ AllShown (kindCopies blob) := by
  obtain ⟨⟨name, rest⟩, hstring, h⟩ := Option.bind_eq_some_iff.mp h
  obtain ⟨text, htext, h⟩ := Option.bind_eq_some_iff.mp h
  have hcopies : kindCopies blob = [text] := by
    simp only [kindCopies, hstring, Option.bind_some, htext]
    rfl
  rw [hcopies, allShown_cons, and_iff_left allShown_nil]
  split at h
  next hrsa =>
    obtain ⟨e, -, h⟩ := Option.bind_eq_some_iff.mp h
    obtain ⟨n, -, h⟩ := Option.bind_eq_some_iff.mp h
    cases h
    rw [hrsa]
    exact iff_of_true (((shown_literal rfl).append (shown_decimal _)).append (shown_literal rfl))
      (shown_literal rfl)
  · cases h
    exact Iff.rfl

theorem publicKey_follows {lib : Lib} {what : String} {blob : Bytes} {f : Finding}
    (hwhat : Shown what.toList) (hhead : what.toList.head? ≠ some 'n')
    (h : publicKey lib what blob = some f) : Follows f (kindCopies blob) := by
  obtain ⟨kind, hkind, h⟩ := Option.bind_eq_some_iff.mp h
  cases h
  have hfingerprint : Shown (fingerprint lib blob) :=
    (shown_literal rfl).append (shown_encodeNopad _)
  apply Follows.of_head
  · rw [printed_fact (shown_literal rfl), and_iff_left hfingerprint, printed_fact (shown_literal rfl),
      and_iff_right (Printed.new hwhat), keyType_shown hkind]
  · exact hhead

theorem privateKey_follows {body : Bytes} {f : Finding} (h : privateKey body = some f) :
    Follows f ((privateKeyCopies body).getD []) := by
  obtain ⟨rest, hrest, h⟩ := Option.bind_eq_some_iff.mp h
  obtain ⟨⟨cipher, rest1⟩, hcipher, h⟩ := Option.bind_eq_some_iff.mp h
  obtain ⟨⟨kdf, rest2⟩, hkdf, h⟩ := Option.bind_eq_some_iff.mp h
  obtain ⟨⟨_, rest3⟩, hoptions, h⟩ := Option.bind_eq_some_iff.mp h
  obtain ⟨count, -, h⟩ := Option.bind_eq_some_iff.mp h
  obtain ⟨⟨key, _⟩, hkey, h⟩ := Option.bind_eq_some_iff.mp h
  obtain ⟨kind, hkind, h⟩ := Option.bind_eq_some_iff.mp h
  cases h
  have hencrypted : Shown (if Str.fromUtf8Lossy cipher = "none".toList then "no".toList else
      Str.fromUtf8Lossy cipher ++ ", key from ".toList ++ Str.fromUtf8Lossy kdf) ↔
        AllShown (if Str.fromUtf8Lossy cipher = "none".toList then [] else
          [Str.fromUtf8Lossy cipher, Str.fromUtf8Lossy kdf]) := by
    split_ifs
    · exact iff_of_true (shown_literal rfl) allShown_nil
    · rw [shown_append, shown_append, and_iff_left (shown_literal rfl : Shown ", key from ".toList),
        allShown_cons, allShown_cons, and_iff_left allShown_nil]
  have hcopies : privateKeyCopies body = some (kindCopies key ++
      if Str.fromUtf8Lossy cipher = "none".toList then [] else
        [Str.fromUtf8Lossy cipher, Str.fromUtf8Lossy kdf]) := by
    simp only [privateKeyCopies, hrest, hcipher, hkdf, hoptions, hkey, Option.bind_eq_bind,
      Option.bind_some]
  apply Follows.of_head
  · rw [hcopies, Option.getD_some, allShown_append, ← keyType_shown hkind, ← hencrypted,
      printed_fact (shown_literal rfl), and_iff_left (shown_literal rfl : Shown "not shown".toList),
      printed_fact (shown_literal rfl), printed_fact (shown_literal rfl),
      and_iff_left (shown_decimal count), printed_fact (shown_literal rfl),
      and_iff_right (Printed.new (shown_literal rfl))]
  · exact (by decide +kernel : "OpenSSH private key".toList.head? ≠ some 'n')

theorem signature_follows {body : Bytes} {f : Finding} (h : signature body = some f) :
    Follows f ((signatureCopies body).getD []) := by
  obtain ⟨rest, hrest, h⟩ := Option.bind_eq_some_iff.mp h
  obtain ⟨version, -, h⟩ := Option.bind_eq_some_iff.mp h
  obtain ⟨⟨key, rest1⟩, hkey, h⟩ := Option.bind_eq_some_iff.mp h
  obtain ⟨⟨name, rest2⟩, hname, h⟩ := Option.bind_eq_some_iff.mp h
  obtain ⟨⟨_, rest3⟩, hreserved, h⟩ := Option.bind_eq_some_iff.mp h
  obtain ⟨⟨hash, _⟩, hhash, h⟩ := Option.bind_eq_some_iff.mp h
  obtain ⟨kind, hkind, h⟩ := Option.bind_eq_some_iff.mp h
  cases h
  have hcopies : signatureCopies body = some (kindCopies key ++ [Str.fromUtf8Lossy hash]) := by
    simp only [signatureCopies, hrest, hkey, hname, hreserved, hhash, Option.bind_eq_bind,
      Option.bind_some]
  apply Follows.of_head
  · rw [hcopies, Option.getD_some, allShown_append, allShown_cons, and_iff_left allShown_nil,
      ← keyType_shown hkind, printed_fact (shown_literal rfl), and_iff_left (shown_printable name),
      printed_fact (shown_literal rfl), printed_fact (shown_literal rfl),
      printed_fact (shown_literal rfl), and_iff_left (shown_decimal version),
      and_iff_right (Printed.new (shown_literal rfl))]
  · exact (by decide +kernel : "SSH signature (ssh-keygen -Y sign)".toList.head? ≠ some 'n')

theorem rfc4716_follows {lib : Lib} {text : Str} {f : Finding} (h : rfc4716 lib text = some f) :
    Follows f ((rfc4716Copies text).getD []) := by
  unfold rfc4716 at h
  split at h
  · cases h
  · obtain ⟨blob, hblob, h⟩ := Option.bind_eq_some_iff.mp h
    rw [rfc4716Copies, hblob]
    exact publicKey_follows (shown_literal rfl) (by decide +kernel) h

theorem publicLine_follows {lib : Lib} {text : Str} {f : Finding} (h : publicLine lib text = some f) :
    Follows f ((publicLineCopies text).getD []) := by
  obtain ⟨kind, -, h⟩ := Option.bind_eq_some_iff.mp h
  split at h
  · cases h
  · obtain ⟨second, hsecond, h⟩ := Option.bind_eq_some_iff.mp h
    obtain ⟨blob, hblob, h⟩ := Option.bind_eq_some_iff.mp h
    rw [publicLineCopies, hsecond, Option.bind_some, hblob]
    exact publicKey_follows (shown_literal rfl) (by decide +kernel) h

theorem putty_told (text : Str) : Told (putty text) := by
  refine told_bind fun line _ => ?_
  refine told_bind fun pieces _ => ?_
  refine told_bind fun version _ => ?_
  have hnew := ((Printed.new (shown_literal rfl : Shown "PuTTY private key (.ppk)".toList)).fact
    (shown_literal rfl : Shown "version".toList) (shown_printable version.asBytes)).fact
      (shown_literal rfl : Shown "algorithm".toList) (shown_printable pieces.2.asBytes)
  apply told_some
  apply Printed.fact _ (shown_literal rfl) (shown_literal rfl)
  have hencrypted (enc : Str) :
      Shown (if enc = "none".toList then "no".toList else printable enc.asBytes) := by
    split_ifs
    · exact shown_literal rfl
    · exact shown_printable _
  split
  · apply Printed.fact _ (shown_literal rfl) (shown_printable _)
    split
    · exact hnew.fact (shown_literal rfl) (hencrypted _)
    · exact hnew
  · split
    · exact hnew.fact (shown_literal rfl) (hencrypted _)
    · exact hnew

end Ssh
end Krypto.Inspect
