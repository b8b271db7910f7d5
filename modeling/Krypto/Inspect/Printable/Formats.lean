import Krypto.Inspect.Printable.Texts

/-! What the text formats and the files tell is printable: every text they take from the input
goes through `printable`. -/

namespace Krypto.Inspect
open Effect

namespace Formats

theorem shown_jsonString (json : Str) (key : String) : ShownIfAny (jsonString json key) := by
  refine shownIfAny_bind fun first _ => ?_
  refine shownIfAny_bind fun rest _ => ?_
  refine shownIfAny_bind fun rest _ => ?_
  refine shownIfAny_bind fun value _ => ?_
  exact shownIfAny_some (shown_printable _)

theorem shown_field (rest : Str) : Shown (field rest) := shown_printable _

theorem passwordHash_printed {what : Str} (h : Shown what) : Printed (passwordHash what) :=
  Printed.new (((shown_literal rfl).append h).append (shown_char (by decide)))

theorem shown_named {table : List (String × String)} (htable : ∀ e ∈ table, Shown e.2.toList)
    {text rest what : Str} (h : named table text = some (rest, what)) : Shown what := by
  obtain ⟨e, he, hsome⟩ := List.exists_of_findSome?_eq_some h
  obtain ⟨_, -, heq⟩ := Option.map_eq_some_iff.mp hsome
  cases heq
  exact htable e he

theorem pbkdf2_told (lib : Lib) (rest : Str) : Told (pbkdf2 lib rest) := by
  refine told_bind fun pieces _ => ?_
  exact told_some ((passwordHash_printed ((shown_literal rfl).append (shown_printable _))).fact
    (shown_literal rfl) (shown_field _))

theorem cryptFinding_printed (text : Str) {name : Str} (h : Shown name) :
    Printed (cryptFinding text name) := by
  unfold cryptFinding
  dsimp only
  split
  · exact (passwordHash_printed h).fact (shown_literal rfl) (shown_printable _)
  · exact passwordHash_printed h

theorem djangoFinding_printed (text rest : Str) {name : Str} (h : Shown name) :
    Printed (djangoFinding text rest name) := by
  unfold djangoFinding
  dsimp only
  split
  · exact (passwordHash_printed h).fact (shown_literal rfl) (shown_field _)
  · exact passwordHash_printed h

theorem passwordHashes_told (lib : Lib) (text : Str) : Told (passwordHashes lib text) := by
  unfold passwordHashes
  split
  next hnamed =>
    exact told_some ((passwordHash_printed (shown_named (by decide +kernel) hnamed)).fact
      (shown_literal rfl) (shown_printable _))
  split
  · exact told_some ((passwordHash_printed (shown_literal rfl)).fact (shown_literal rfl)
      (shown_field _))
  split
  · exact pbkdf2_told lib _
  split
  next hnamed =>
    exact told_some ((passwordHash_printed (shown_named (by decide +kernel) hnamed)).fact
      (shown_literal rfl) (shown_field _))
  split
  next hnamed => exact told_some (cryptFinding_printed text (shown_named (by decide +kernel) hnamed))
  split
  next hnamed => exact told_some (djangoFinding_printed text _ (shown_named (by decide +kernel) hnamed))
  split
  next hnamed => exact told_some (passwordHash_printed (shown_named (by decide +kernel) hnamed))
  split
  · exact told_some (passwordHash_printed (shown_literal rfl))
  · exact told_none

theorem age_told (text : Str) : Told (age text) := by
  unfold age
  refine told_ite (fun _ => told_none) fun _ => ?_
  refine told_some (((Printed.new (shown_literal rfl)).fact (shown_literal rfl) ?_).fact
    (shown_literal rfl) (shown_literal rfl))
  split
  · exact shown_literal rfl
  · apply shown_join (shown_literal rfl)
    intro s hs
    obtain ⟨l, -, rfl⟩ := List.mem_map.mp hs
    exact shown_printable _

theorem ageKey_told (text : Str) : Told (ageKey text) := by
  unfold ageKey
  split_ifs
  · exact told_some (((Printed.new (shown_literal rfl)).fact (shown_literal rfl)
      (shown_literal rfl)).fact (shown_literal rfl) (shown_literal rfl))
  · exact told_some ((Printed.new (shown_literal rfl)).fact (shown_literal rfl) (shown_literal rfl))
  · exact told_some ((Printed.new (shown_literal rfl)).fact (shown_literal rfl) (shown_literal rfl))
  · exact told_none

theorem minisign_told (text : Str) : Told (minisign text) := by
  refine told_bind fun first _ => ?_
  refine told_bind fun comment _ => ?_
  refine told_bind fun second _ => ?_
  have htool : Shown (if Str.contains "signify" comment then "signify" else "minisign").toList := by
    split_ifs <;> exact shown_literal rfl
  have halgorithm {head : Bytes} :
      Shown (if head = ascii "ED" then "Ed25519 over BLAKE2b-512" else "Ed25519").toList := by
    split_ifs <;> exact shown_literal rfl
  have hkinds (kind : String) {tool algorithm : String} (htool : Shown tool.toList) (hkind : Shown kind.toList)
      (halgorithm : Shown algorithm.toList) :
      Told (if kind = "secret key" then
        some (((Finding.new (tool.toList ++ [' '] ++ kind.toList)).fact "algorithm" algorithm).fact
          "key" "not shown")
      else some ((Finding.new (tool.toList ++ [' '] ++ kind.toList)).fact "algorithm" algorithm)) := by
    have hfound := (Printed.new ((htool.append (shown_char (by decide) : Shown [' '])).append hkind)).fact
      (shown_literal rfl : Shown "algorithm".toList) halgorithm
    exact told_ite (fun _ => told_some (hfound.fact (shown_literal rfl) (shown_literal rfl)))
      fun _ => told_some hfound
  dsimp only
  split
  · refine told_bind fun data _ => ?_
    refine told_bind fun head _ => ?_
    refine told_ite (fun _ => hkinds "public key" htool (shown_literal rfl) halgorithm) fun _ => ?_
    refine told_ite (fun _ => hkinds "signature" htool (shown_literal rfl) halgorithm) fun _ => ?_
    refine told_ite (fun _ => hkinds "secret key" htool (shown_literal rfl) halgorithm) fun _ => ?_
    exact told_bind fun kind h => (nomatch h)
  · exact told_bind fun data h => (nomatch h)

theorem ansibleVault_told (text : Str) : Told (ansibleVault text) := by
  refine told_bind fun first _ => ?_
  refine told_bind fun header _ => ?_
  refine told_bind fun version _ => ?_
  refine told_some (((Printed.new (shown_literal rfl)).fact (shown_literal rfl)
    (shown_printable _)).fact (shown_literal rfl) ?_)
  split
  · exact shown_literal rfl
  · exact shown_printable _

theorem sops_told (text : Str) : Told (sops text) := by
  unfold sops
  refine told_ite (fun _ => told_none) fun _ => ?_
  have hfound : Printed ((Finding.new "SOPS encrypted file").fact "cipher"
      "AES-256-GCM for each value") :=
    (Printed.new (shown_literal rfl)).fact (shown_literal rfl) (shown_literal rfl)
  have hkeys : ∀ k ∈ ["age", "pgp", "kms", "gcp_kms", "azure_kv", "hc_vault"], Shown k.toList := by
    decide +kernel
  refine told_ite (fun _ => told_some hfound) fun _ => ?_
  refine told_some (hfound.fact (shown_literal rfl) (shown_join (shown_literal rfl) ?_))
  intro s hs
  obtain ⟨k, hk, rfl⟩ := List.mem_map.mp hs
  exact hkeys k (List.mem_of_mem_filter hk)

theorem sigstore_told (text : Str) : Told (sigstore text) := by
  refine told_bind fun media hmedia => ?_
  refine told_ite (fun _ => ?_) fun _ => told_none
  exact told_some ((Printed.new (shown_literal rfl)).fact (shown_literal rfl)
    (shown_jsonString _ _ _ hmedia))

theorem member_printed {f : Finding} (h : Printed f) {name : String} {o : Option Str}
    (hname : Shown name.toList) (ho : ShownIfAny o) : Printed (member f name o) :=
  h.factIfAny hname ho

theorem jwk_told (text : Str) : Told (jwk text) := by
  unfold jwk
  refine told_ite (fun _ => told_none) fun _ => ?_
  refine told_bind fun kty hkty => ?_
  have hfound {what : Str} (hwhat : Shown what) := member_printed (member_printed
    ((Printed.new hwhat).fact (shown_literal rfl : Shown "key type".toList)
      (shown_jsonString _ _ _ hkty)) (shown_literal rfl : Shown "curve".toList)
        (shown_jsonString text "crv")) (shown_literal rfl : Shown "algorithm".toList)
          (shown_jsonString text "alg")
  have hwhat : Shown (if Str.contains "\"keys\"" text then "JSON Web Key Set" else "JSON Web Key").toList := by
    split_ifs <;> exact shown_literal rfl
  refine told_ite (fun _ => ?_) fun _ => told_some (hfound hwhat)
  exact told_some ((hfound hwhat).fact (shown_literal rfl) (shown_literal rfl))

theorem paseto_told (text : Str) : Told (paseto text) := by
  refine told_bind fun version _ => ?_
  refine told_bind fun purpose _ => ?_
  refine told_bind fun e he => ?_
  have htable : ∀ e ∈ pasetoAlgorithms,
      Shown e.1.1.toList ∧ Shown e.1.2.toList ∧ Shown e.2.toList := by decide +kernel
  obtain ⟨hversion, hpurpose, halgorithm⟩ := htable e (List.mem_of_find?_eq_some he)
  have hsame := List.find?_some he
  simp only [decide_eq_true_eq] at hsame
  obtain ⟨rfl, rfl⟩ := hsame
  exact told_some ((Printed.new (((((shown_literal rfl).append hversion).append
    (shown_char (by decide))).append hpurpose).append (shown_literal rfl))).fact (shown_literal rfl)
      halgorithm)

theorem jose_told (text : Str) : Told (jose text) := by
  unfold jose
  dsimp only
  refine told_ite (fun _ => told_none) fun _ => ?_
  refine told_bind fun first _ => ?_
  refine told_bind fun data _ => ?_
  refine told_bind fun header _ => ?_
  refine told_bind fun alg halg => ?_
  have hshown := shown_jsonString _ _ _ halg
  refine told_some (member_printed ?_ (shown_literal rfl) (shown_jsonString _ _))
  split_ifs
  · exact ((Printed.new (shown_literal rfl)).fact (shown_literal rfl) hshown).fact (shown_literal rfl)
      (shown_getD (shown_jsonString _ _) (shown_literal rfl))
  · exact (Printed.new (shown_literal rfl)).fact (shown_literal rfl) (shown_literal rfl)
  · exact (Printed.new (shown_literal rfl)).fact (shown_literal rfl) hshown

theorem shown_dateTime (seconds : ℕ) : Shown (dateTime seconds) := by
  have hdash : Shown ['-'] := shown_char (by decide)
  have hcolon : Shown [':'] := shown_char (by decide)
  have hdate (year month day : ℕ) :=
    ((((shown_padded 4 year).append hdash).append (shown_padded 2 month)).append hdash).append
      (shown_padded 2 day)
  exact (((((((hdate _ _ _).append (shown_char (by decide))).append (shown_padded 2 _)).append hcolon).append
    (shown_padded 2 _)).append hcolon).append (shown_padded 2 _)).append (shown_literal rfl)

theorem fernet_told (text : Str) : Told (fernet text) := by
  unfold fernet
  refine told_ite (fun _ => told_none) fun _ => ?_
  refine told_bind fun data _ => ?_
  refine told_ite (fun _ => told_none) fun _ => ?_
  refine told_bind fun seconds _ => ?_
  exact told_some (((Printed.new (shown_literal rfl)).fact (shown_literal rfl)
    (shown_literal rfl)).fact (shown_literal rfl) (shown_dateTime _))

theorem fingerprint_told (text : Str) : Told (fingerprint text) := by
  unfold fingerprint
  dsimp only
  split_ifs
  · exact told_some ((Printed.new (shown_literal rfl)).fact (shown_literal rfl) (shown_literal rfl))
  · exact told_some ((Printed.new (shown_literal rfl)).fact (shown_literal rfl) (shown_literal rfl))
  · exact told_some ((Printed.new (shown_literal rfl)).fact (shown_literal rfl) (shown_literal rfl))
  · exact told_none

theorem shown_hashByLength (len : ℕ) : ∀ hash, hashByLength len = some hash → Shown hash.toList := by
  intro hash h
  unfold hashByLength at h
  split_ifs at h <;> cases h <;> exact shown_literal rfl

theorem fromText_told (lib : Lib) (text : Str) : Told (fromText lib text) := by
  apply told_findSome
  simp only [formats, List.forall_mem_cons, List.not_mem_nil, false_imp_iff, implies_true, and_true]
  exact ⟨passwordHashes_told lib _, age_told _, ageKey_told _, minisign_told _, ansibleVault_told _,
    sops_told _, sigstore_told _, jwk_told _, paseto_told _, jose_told _, fernet_told _,
    fingerprint_told _⟩

end Formats

namespace Files

theorem compressed_printed {what : String} (h : Shown what.toList) : Printed (compressed what) :=
  (Printed.new (h.append (shown_literal rfl))).fact (shown_literal rfl) (shown_literal rfl)

theorem javaKeystore_printed (input : Bytes) {what protection : String} (hwhat : Shown what.toList)
    (hprotection : Shown protection.toList) : Printed (javaKeystore input what protection) := by
  refine Printed.fact ?_ (shown_literal rfl) hprotection
  split
  · exact ((Printed.new hwhat).fact (shown_literal rfl) (shown_decimal _)).fact (shown_literal rfl)
      (shown_decimal _)
  · exact Printed.new hwhat

def Kdbx.Shows (k : Kdbx) : Prop :=
  (∀ c, k.cipher = some c → Shown c.toList) ∧ ∀ c, k.kdf = some c → Shown c.toList

theorem Kdbx.Shows.add {k : Kdbx} (h : k.Shows) (wide : Bool) (id : UInt8) (data : Bytes) :
    (k.add wide id data).Shows := by
  unfold Kdbx.add
  split
  · refine ⟨?_, h.2⟩
    rintro c ⟨⟩
    split_ifs <;> exact shown_literal rfl
  split
  · refine ⟨h.1, ?_⟩
    rintro c ⟨⟩
    split_ifs <;> exact shown_literal rfl
  split
  · refine ⟨h.1, ?_⟩
    rintro c ⟨⟩
    exact shown_literal rfl
  · exact h

theorem keepassFields_shows (wide : Bool) (input : Bytes) (fuel pos : ℕ) {k : Kdbx} (h : k.Shows) :
    (keepassFields wide input fuel pos k).Shows := by
  induction fuel generalizing pos k with
  | zero => exact h
  | succ fuel ih =>
    rw [keepassFields]
    split
    · exact h
    · dsimp only
      split
      · exact h
      · split
        · exact h
        · exact ih _ (h.add _ _ _)

theorem versionFact_printed {f : Finding} (h : Printed f) (major minor : Option ℕ) :
    Printed (match major, minor with
      | some major, some minor => f.fact "version" (Str.decimal major ++ ['.'] ++ Str.decimal minor)
      | _, _ => f) := by
  split
  · exact h.fact (shown_literal rfl) (((shown_decimal _).append (shown_char (by decide))).append
      (shown_decimal _))
  · exact h

theorem keepass_printed (input : Bytes) : Printed (keepass input) := by
  have hfields (wide : Bool) :
      (keepassFields wide input input.length 12 { cipher := none, kdf := none }).Shows :=
    keepassFields_shows wide input _ _ ⟨fun _ h => (nomatch h), fun _ h => (nomatch h)⟩
  have hnew : Printed (Finding.new "KeePass database (KDBX)") := Printed.new (shown_literal rfl)
  have hversion := versionFact_printed hnew (leAt input 10 2) (leAt input 8 2)
  exact (hversion.factIfNamed (shown_literal rfl) (hfields _).1).factIfNamed (shown_literal rfl)
    (hfields _).2

theorem luks_printed (input : Bytes) : Printed (luks input) := by
  have hfield (i j : ℕ) : ShownIfAny (luksField input i j) := by
    intro s hs
    obtain ⟨b, -, rfl⟩ := Option.map_eq_some_iff.mp hs
    exact shown_printable _
  have hnew : Printed (Finding.new "LUKS encrypted disk") := Printed.new (shown_literal rfl)
  unfold luks
  dsimp only
  split
  · have hversion := hnew.fact (shown_literal rfl : Shown "version".toList)
      (shown_literal rfl : Shown "1".toList)
    refine Formats.member_printed ?_ (shown_literal rfl) (hfield 72 104)
    split
    next hname hmode =>
      exact hversion.fact (shown_literal rfl) (((hfield _ _ _ hname).append
        (shown_char (by decide))).append (hfield _ _ _ hmode))
    · exact hversion
  split
  · have hversion := hnew.fact (shown_literal rfl : Shown "version".toList)
      (shown_literal rfl : Shown "2".toList)
    refine Formats.member_printed (Formats.member_printed hversion (shown_literal rfl)
      (Formats.shown_jsonString _ _)) (shown_literal rfl) ?_
    exact shownIfAny_bind fun rest _ => Formats.shown_jsonString _ _
  · exact hnew

theorem zip_printed (input : Bytes) : Printed (zip input) := by
  have hnew : Printed (Finding.new "zip archive") := Printed.new (shown_literal rfl)
  unfold zip
  dsimp only
  split_ifs <;> exact hnew.fact (shown_literal rfl) (shown_literal rfl)

theorem magic_told {bytes : Bytes} {found : Bytes → Finding} (h : ∀ input, Printed (found input))
    (input : Bytes) : Told (magic bytes found input) :=
  told_ite (fun _ => told_some (h input)) fun _ => told_none

theorem bitlocker_told (input : Bytes) : Told (bitlocker input) :=
  told_ite (fun _ => told_some ((Printed.new (shown_literal rfl)).fact (shown_literal rfl)
    (shown_literal rfl))) fun _ => told_none

theorem aesCrypt_told (input : Bytes) : Told (aesCrypt input) := by
  unfold aesCrypt
  split
  · refine told_ite (fun _ => ?_) fun _ => told_none
    exact told_some (((Printed.new (shown_literal rfl)).fact (shown_literal rfl)
      (shown_decimal _)).fact (shown_literal rfl) (shown_literal rfl))
  · exact told_none

theorem bzip2_told (input : Bytes) : Told (bzip2 input) := by
  unfold bzip2
  split
  · exact told_ite (fun _ => told_some (compressed_printed (shown_literal rfl))) fun _ => told_none
  · exact told_none

theorem tar_told (input : Bytes) : Told (tar input) :=
  told_ite (fun _ => told_some ((Printed.new (shown_literal rfl)).fact (shown_literal rfl)
    (shown_literal rfl))) fun _ => told_none

theorem fromMagic_told (input : Bytes) : Told (fromMagic input) := by
  have hname {what : String} (h : Shown what.toList) : Printed (Finding.new what) := Printed.new h
  have hone {what name value : String} (hwhat : Shown what.toList) (hn : Shown name.toList)
      (hvalue : Shown value.toList) : Printed ((Finding.new what).fact name value) :=
    (Printed.new hwhat).fact hn hvalue
  apply told_findSome
  simp only [formats, List.forall_mem_cons, List.not_mem_nil, false_imp_iff, implies_true, and_true]
  refine ⟨magic_told (fun _ => javaKeystore_printed _ (shown_literal rfl) (shown_literal rfl)) _,
    magic_told (fun _ => javaKeystore_printed _ (shown_literal rfl) (shown_literal rfl)) _,
    magic_told keepass_printed _, magic_told (fun _ => hname (shown_literal rfl)) _,
    magic_told luks_printed _, bitlocker_told _, ?_, ?_, ?_, aesCrypt_told _,
    magic_told zip_printed _, ?_, magic_told (fun _ => compressed_printed (shown_literal rfl)) _,
    magic_told (fun _ => compressed_printed (shown_literal rfl)) _,
    magic_told (fun _ => compressed_printed (shown_literal rfl)) _, bzip2_told _, tar_told _⟩
  all_goals
    exact magic_told (fun _ => hone (shown_literal rfl) (shown_literal rfl) (shown_literal rfl)) _

end Files
end Krypto.Inspect
