import Krypto.Inspect.Nested

/-! Text that no recognizer claims for what it is, so that it is told by what it
wraps: it starts like nothing that is looked for, and has no separator in it. -/

namespace Krypto.Inspect
open Effect

/-! ### Recognizers of bytes -/

theorem subset_of_range {input bytes : Bytes} {i j : ℕ} (h : range input i j = some bytes) :
    bytes ⊆ input := by
  rw [range] at h
  split at h
  · obtain rfl := Option.some.inj h
    exact List.Subset.trans (List.take_subset _ _) (List.drop_subset _ _)
  · cases h

def magics : List Bytes :=
  [ascii "FAFN", ascii "FST1", OID_P256, [0xfe, 0xed, 0xfe, 0xed], [0xce, 0xce, 0xce, 0xce],
    [0x03, 0xd9, 0xa2, 0x9a, 0x67, 0xfb, 0x4b, 0xb5], ascii "kych", ascii "LUKS" ++ [0xba, 0xbe],
    ascii "-FVE-FS-", ascii "Salted__", [0] ++ ascii "GITCRYPT" ++ [0], [0] ++ ascii "GITCRYPTKEY",
    ascii "AES", ascii "PK" ++ [3, 4], ascii "7z" ++ [0xbc, 0xaf, 0x27, 0x1c], [0x1f, 0x8b],
    [0x28, 0xb5, 0x2f, 0xfd], [0xfd, 0x37, 0x7a, 0x58, 0x5a, 0x00], ascii "BZh", ascii "ustar"]

section Bytes
variable {input : Bytes} (h : ∀ pat ∈ magics, ¬pat <+: input)
include h

theorem blob_none : blob input = none := by
  rw [blob, if_pos (h _ (by simp [magics]))]

theorem store_none : store input = none := by
  rw [store, if_pos (h _ (by simp [magics]))]

theorem aesCrypt_none : Files.aesCrypt input = none := by
  rw [Files.aesCrypt]
  split
  · rw [if_neg fun hall => h _ (by simp [magics]) hall.1]
  · rfl

theorem bzip2_none : Files.bzip2 input = none := by
  rw [Files.bzip2]
  split
  · rw [if_neg fun hall => h _ (by simp [magics]) hall.1]
  · rfl

/-- Only the magics that stand elsewhere than at the start are left. -/
theorem fromMagic_eq (hbitlocker : Files.bitlocker input = none) :
    Files.fromMagic input = Files.tar input := by
  have hmagic {pat : Bytes} (hpat : pat ∈ magics) (found : Bytes → Finding) :
      Files.magic pat found input = none := if_neg (h pat hpat)
  have hbefore : ∀ f ∈ Files.formats.dropLast, f input = none := by
    simp only [Files.formats, List.dropLast, List.forall_mem_cons]
    exact ⟨hmagic (by simp [magics]) _, hmagic (by simp [magics]) _, hmagic (by simp [magics]) _,
      hmagic (by simp [magics]) _, hmagic (by simp [magics]) _, hbitlocker,
      hmagic (by simp [magics]) _, hmagic (by simp [magics]) _, hmagic (by simp [magics]) _,
      aesCrypt_none h, hmagic (by simp [magics]) _, hmagic (by simp [magics]) _,
      hmagic (by simp [magics]) _, hmagic (by simp [magics]) _, hmagic (by simp [magics]) _,
      bzip2_none h, by simp⟩
  have hformats : Files.formats = Files.formats.dropLast ++ [Files.tar] := rfl
  rw [Files.fromMagic, hformats, List.findSome?_append, List.findSome?_eq_none_iff.mpr hbefore,
    Option.none_or, List.findSome?_singleton]

end Bytes

/-! ### Recognizers of text -/

def schemes : List (String × String) :=
  [("$argon2i$", "PHC string, Argon2i"), ("$argon2d$", "PHC string, Argon2d")] ++ Formats.bcrypt ++
    Formats.crypt ++ Formats.django ++ Formats.ldap

def patterns : List String :=
  ["$argon2id$", "-----BEGIN ", "---- BEGIN SSH2 PUBLIC KEY ----", ": ", "$scrypt$", "$pbkdf2-", "*", "age-encryption.org/v1", "AGE-SECRET-KEY-1", "AGE-PLUGIN-", "age1",
    "untrusted comment: ", "$ANSIBLE_VAULT;", "ENC[AES256_GCM,data:", "\"mediaType\"", "\x7b",
    "gAAAAA", "SHA256:", "MD5:"] ++
  schemes.map Prod.fst ++ Ssh.KEY_TYPES

def separators : List Char := ['.', ':', '"', '\n']

/-- Text that is told by what it wraps, or not at all. -/
structure Plain (text : Str) : Prop where
  nonempty : text ≠ []
  starts : ∀ pat ∈ patterns, ¬pat.toList <+: text
  unbroken : ∀ c ∈ text, Str.isWhitespace c = false ∧ c ∉ separators

section Text
variable {text : Str} (h : Plain text)
include h

theorem stripPrefix_plain {pat : String} (hpat : pat ∈ patterns) :
    Str.stripPrefix pat text = none := by
  cases hstrip : Str.stripPrefix pat text with
  | none => rfl
  | some rest =>
    have hpre : pat.toList <+: text := ⟨rest, (Str.eq_append_of_stripPrefix hstrip).symm⟩
    exact absurd hpre (h.starts pat hpat)

theorem startsWith_plain {pat : String} (hpat : pat ∈ patterns) :
    Str.startsWith pat text = false := by
  rw [Str.startsWith, Bool.eq_false_iff]
  exact fun hpre => h.starts pat hpat (List.isPrefixOf_iff_prefix.mp hpre)

theorem splitOnce_plain {pat : String} (hpat : ∃ c ∈ pat.toList, c ∈ separators) :
    Str.splitOnce pat text = none := by
  obtain ⟨c, hc, hseparator⟩ := hpat
  cases hsplit : Str.splitOnce pat text with
  | none => rfl
  | some pieces =>
    have hmem : c ∈ text := by simp [Str.eq_append_of_splitOnce hsplit, hc]
    exact absurd hseparator (h.unbroken c hmem).2

theorem contains_plain {pat : String} (hpat : ∃ c ∈ pat.toList, c ∈ separators) :
    Str.contains pat text = false := by
  rw [Str.contains, splitOnce_plain h hpat]
  rfl

theorem split_plain {c : Char} (hc : c ∈ separators) : Str.split c text = [text] :=
  List.splitOn_eq_singleton fun hmem => (h.unbroken c hmem).2 hc

theorem spaces_plain : ∀ c ∈ text, Str.isWhitespace c = false := fun c hc => (h.unbroken c hc).1

theorem trim_plain : Str.trim text = text := by
  have hspaces := spaces_plain h
  have hstart : Str.trimStart text = text := by
    rw [Str.trimStart, List.dropWhile_eq_self_iff]
    intro hlen
    simp [hspaces _ (List.getElem_mem hlen)]
  rw [Str.trim, hstart, List.rdropWhile_eq_self_iff]
  intro hlast
  simp [hspaces _ (List.getLast_mem hlast)]

theorem named_plain {table : List (String × String)} (htable : ∀ e ∈ table, e ∈ schemes) :
    Formats.named table text = none := by
  rw [Formats.named, List.findSome?_eq_none_iff]
  intro e he
  have hmem : e.1 ∈ patterns := List.mem_append_left _
    (List.mem_append_right _ (List.mem_map_of_mem (htable e he)))
  rw [stripPrefix_plain h hmem]
  rfl

theorem phcArgon2id_plain : phcArgon2id text = none := by
  rw [phcArgon2id, stripPrefix_plain h (by simp [patterns])]
  rfl

theorem pem_plain (lib : Lib) (inner : Bytes → Nat → Finding) (depth : ℕ) :
    pem lib inner text depth = none := by
  rw [pem, stripPrefix_plain h (by simp [patterns])]
  rfl

theorem rfc4716_plain (lib : Lib) : Ssh.rfc4716 lib text = none := by
  have hstart := startsWith_plain h (by simp [patterns] : "---- BEGIN SSH2 PUBLIC KEY ----" ∈ patterns)
  simp [Ssh.rfc4716, hstart]

theorem passwordHashes_plain (lib : Lib) : Formats.passwordHashes lib text = none := by
  have hargon2 : Formats.named
      [("$argon2i$", "PHC string, Argon2i"), ("$argon2d$", "PHC string, Argon2d")] text = none :=
    named_plain h (by simp +contextual [schemes])
  have hscrypt := stripPrefix_plain h (by simp [patterns] : "$scrypt$" ∈ patterns)
  have hpbkdf2 := stripPrefix_plain h (by simp [patterns] : "$pbkdf2-" ∈ patterns)
  have hbcrypt : Formats.named Formats.bcrypt text = none := named_plain h (by simp +contextual [schemes])
  have hcrypt : Formats.named Formats.crypt text = none := named_plain h (by simp +contextual [schemes])
  have hdjango : Formats.named Formats.django text = none := named_plain h (by simp +contextual [schemes])
  have hldap : Formats.named Formats.ldap text = none := named_plain h (by simp +contextual [schemes])
  have hmysql : ¬Formats.isMysql text := by
    rw [Formats.isMysql, startsWith_plain h (by simp [patterns])]
    simp
  simp only [Formats.passwordHashes, hargon2, hscrypt, hpbkdf2, hbcrypt, hcrypt, hdjango, hldap,
    if_neg hmysql]

theorem age_plain : Formats.age text = none := by
  have hstart := startsWith_plain h (by simp [patterns] : "age-encryption.org/v1" ∈ patterns)
  simp [Formats.age, hstart]

theorem sops_plain : Formats.sops text = none := by
  have hvalue := contains_plain h (by decide : ∃ c ∈ "ENC[AES256_GCM,data:".toList, c ∈ separators)
  simp [Formats.sops, hvalue]

theorem sigstore_plain : Formats.sigstore text = none := by
  rw [Formats.sigstore, Formats.jsonString, splitOnce_plain h (by decide)]
  rfl

theorem jwk_plain : Formats.jwk text = none := by
  have hstart := startsWith_plain h (by simp [patterns] : "\x7b" ∈ patterns)
  simp [Formats.jwk, hstart]

theorem paseto_plain : Formats.paseto text = none := by
  rw [Formats.paseto, split_plain h (by decide)]
  rfl

theorem jose_plain : Formats.jose text = none := by
  rw [Formats.jose, split_plain h (by decide)]
  rfl

theorem fernet_plain : Formats.fernet text = none := by
  have hstart := startsWith_plain h (by simp [patterns] : "gAAAAA" ∈ patterns)
  simp [Formats.fernet, hstart]

theorem lines_plain : Str.lines text = [text] := by
  rw [Str.lines, split_plain h (by decide), Str.linesOf, if_neg h.nonempty]

theorem splitWhitespace_plain : Str.splitWhitespace text = [text] := by
  rw [Str.splitWhitespace, List.splitOnP_eq_singleton (spaces_plain h)]
  simp [h.nonempty]

theorem putty_plain : Ssh.putty text = none := by
  rw [Ssh.putty, lines_plain h, List.head?_cons, Option.bind_eq_bind, Option.bind_some,
    splitOnce_plain h (by decide)]
  rfl

theorem publicLine_plain (lib : Lib) : Ssh.publicLine lib text = none := by
  have hkind : text ∉ Ssh.KEY_TYPES.map String.toList := by
    intro hmem
    obtain ⟨kind, hkind, rfl⟩ := List.mem_map.mp hmem
    exact h.starts kind (by simp [patterns, hkind]) (List.prefix_refl _)
  rw [Ssh.publicLine, splitWhitespace_plain h]
  exact if_pos hkind

theorem ageKey_plain : Formats.ageKey text = none := by
  have hidentity := startsWith_plain h (by simp [patterns] : "AGE-SECRET-KEY-1" ∈ patterns)
  have hplugin := startsWith_plain h (by simp [patterns] : "AGE-PLUGIN-" ∈ patterns)
  have hrecipient := startsWith_plain h (by simp [patterns] : "age1" ∈ patterns)
  simp [Formats.ageKey, lines_plain h, hidentity, hplugin, hrecipient]

theorem minisign_plain : Formats.minisign text = none := by
  rw [Formats.minisign, lines_plain h, List.head?_cons, Option.bind_eq_bind, Option.bind_some,
    stripPrefix_plain h (by simp [patterns])]
  rfl

theorem ansibleVault_plain : Formats.ansibleVault text = none := by
  rw [Formats.ansibleVault, lines_plain h, List.head?_cons, Option.bind_eq_bind,
    Option.bind_some, stripPrefix_plain h (by simp [patterns])]
  rfl

theorem fingerprint_plain : Formats.fingerprint text = none := by
  have hssh : Formats.isSshFingerprint text = false := by
    rw [Formats.isSshFingerprint, stripPrefix_plain h (by simp [patterns])]
  have htrimmed : Formats.trimStartMatches "MD5:" text = text := by
    rw [Formats.trimStartMatches]
    cases hlen : text.length with
    | zero => rfl
    | succ n => rw [Formats.trimStartMatchesWith, stripPrefix_plain h (by simp [patterns])]
  have hpairs : Str.split ':' text = [text] := split_plain h (by decide)
  simp [Formats.fingerprint, hssh, htrimmed, hpairs, splitWhitespace_plain h]

theorem fromText_plain (lib : Lib) : Formats.fromText lib text = none := by
  rw [Formats.fromText, List.findSome?_eq_none_iff]
  simp only [Formats.formats, List.forall_mem_cons]
  exact ⟨passwordHashes_plain h lib, age_plain h, ageKey_plain h, minisign_plain h,
    ansibleVault_plain h, sops_plain h, sigstore_plain h, jwk_plain h, paseto_plain h, jose_plain h,
    fernet_plain h, fingerprint_plain h, by simp⟩

/-- None of the recognizers of text claims it, so it is unwrapped. -/
theorem fromString_plain (lib : Lib) (inner : Bytes → Nat → Finding) {depth : ℕ} (hdepth : depth < 2) :
    fromString lib inner text depth = unwrapped inner text depth := by
  rw [fromString, phcArgon2id_plain h, pem_plain h, rfc4716_plain h, putty_plain h,
    publicLine_plain h, fromText_plain h, if_pos hdepth]
  rfl

theorem inspectAt_plain (lib : Lib) (hbytes : recognizers.findSome? (fun f => f text.asBytes) = none)
    {depth : ℕ} (hdepth : depth < 2) {found : Finding}
    (hfound : unwrapped (inspectAt lib) text depth = some found) :
    inspectAt lib text.asBytes depth = found := by
  rw [inspectAt_eq, inspectOne, hbytes, Str.fromUtf8_asBytes, Option.map_some, trim_plain h,
    Option.bind_some, fromString_plain h lib _ hdepth, hfound]
  rfl

end Text

end Krypto.Inspect
