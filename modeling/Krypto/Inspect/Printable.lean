import Krypto.Inspect.HexText
import Krypto.Inspect.Printable.Copies

/-! When the report on an input is safe to print: exactly when the texts that are copied into it as
they are are printable. -/

namespace Krypto.Inspect
open Effect

/-! ## What is told from the bytes -/

theorem shown_algName (id : UInt8) : Shown (algName id) := by
  unfold algName
  split_ifs <;> exact shown_literal rfl

theorem blob_told (input : Bytes) : Told (blob input) := by
  have hnew : Printed (Finding.new "krypto blob (krypto::seal)") := Printed.new (shown_literal rfl)
  unfold blob
  refine told_ite (fun _ => told_none) fun _ => ?_
  dsimp only
  split
  · exact told_some ((((hnew.fact (shown_literal rfl) (shown_decimal _)).fact (shown_literal rfl)
      (shown_algName _)).fact (shown_literal rfl) (shown_hex _)).fact (shown_literal rfl)
        (shown_decimal _))
  · have hheader := hnew.fact (shown_literal rfl : Shown "header".toList)
      (shown_literal rfl :
        Shown "changed: a format or an algorithm this krypto does not know".toList)
    exact told_some ⟨hheader.what, hheader.facts⟩
  · exact told_some (hnew.fact (shown_literal rfl) (shown_literal rfl))

theorem Walk.algs_shown_add {w : Walk} (h : AllShown w.algs) (name blob : Bytes) :
    AllShown (w.add name blob).algs := by
  have halg : Shown (if ascii "FAFN" <+: blob ∧ 5 < blob.length then algName (byteAt blob 5)
      else "not a krypto blob".toList) := by
    split_ifs
    · exact shown_algName _
    · exact shown_literal rfl
  unfold Walk.add
  dsimp only
  generalize (if ascii "FAFN" <+: blob ∧ 5 < blob.length then algName (byteAt blob 5)
    else "not a krypto blob".toList) = alg at halg ⊢
  by_cases hmem : alg ∈ w.algs
  · rw [if_pos hmem]
    exact h
  · rw [if_neg hmem]
    exact h.append (allShown_singleton halg)

theorem walkFrom_algs_shown (input : Bytes) (fuel pos : ℕ) {w : Walk} (h : AllShown w.algs) :
    AllShown (walkFrom input fuel pos w).algs := by
  induction fuel generalizing pos w with
  | zero => exact h
  | succ fuel ih =>
    rw [walkFrom]
    split
    · split
      · exact h
      · exact ih _ (Walk.algs_shown_add h _ _)
    · exact h

theorem shown_shownNames (names : List Bytes) : Shown (shownNames names) := by
  have hjoin : Shown (Str.join ", " ((names.map printable).take NAMES_SHOWN)) := by
    apply shown_join (shown_literal rfl)
    intro s hs
    obtain ⟨name, -, rfl⟩ := List.mem_map.mp (List.mem_of_mem_take hs)
    exact shown_printable name
  unfold shownNames
  dsimp only
  split
  · exact ((hjoin.append (shown_literal rfl)).append (shown_decimal _)).append (shown_literal rfl)
  · exact hjoin

theorem damaged_told {f : Finding} (h : Printed f) (damaged : Option ℕ) :
    Told (match damaged with
      | some pos => some (f.fact "damaged" ("at byte ".toList ++ Str.decimal pos))
      | none => some f) := by
  split
  · exact told_some (h.fact (shown_literal rfl) ((shown_literal rfl).append (shown_decimal _)))
  · exact told_some h

theorem store_told (input : Bytes) : Told (store input) := by
  have hnew : Printed (Finding.new "krypto store file (krypto::SecretStore)") :=
    Printed.new (shown_literal rfl)
  unfold store
  refine told_ite (fun _ => told_none) fun _ => ?_
  refine told_ite (fun _ => told_some (hnew.fact (shown_literal rfl) (shown_literal rfl))) fun _ => ?_
  have hhead := ((hnew.fact (shown_literal rfl : Shown "format".toList)
    (shown_decimal (byteAt input 4).toNat)).fact (shown_literal rfl : Shown "key id".toList)
      (shown_hex ((input.drop 21).take 16))).fact (shown_literal rfl : Shown "entries".toList)
        (shown_decimal (walkStore input).names.length)
  have halgs : Shown (Str.join ", " (walkStore input).algs) :=
    shown_join (shown_literal rfl) (walkFrom_algs_shown input _ _ allShown_nil)
  have hentries := hhead.fact (shown_literal rfl : Shown "names".toList)
    (shown_shownNames (walkStore input).names)
  refine damaged_told ?_ (walkStore input).damaged
  split
  · exact hhead
  · exact hentries.fact (shown_literal rfl) halgs

theorem pkcs8P256_told (input : Bytes) : Told (pkcs8P256 input) :=
  told_ite (fun _ => told_some ((Printed.new (shown_literal rfl)).fact (shown_literal rfl)
    (shown_literal rfl))) fun _ => told_none

theorem derEcdsaSignature_told (input : Bytes) : Told (derEcdsaSignature input) := by
  unfold derEcdsaSignature
  split
  · split
    · exact told_ite (fun _ => told_some ((Printed.new (shown_literal rfl)).fact (shown_literal rfl)
        (shown_literal rfl))) fun _ => told_none
    · exact told_none
  · exact told_none

theorem recognizers_told (input : Bytes) : Told (recognizers.findSome? fun f => f input) := by
  apply told_findSome
  simp only [recognizers, List.forall_mem_cons, List.not_mem_nil, false_imp_iff, implies_true, and_true]
  exact ⟨blob_told input, store_told input, pkcs8P256_told input, derEcdsaSignature_told input,
    Files.fromMagic_told input, Pkix.fromDer_told input, fun f hf => (Pgp.fromBinary_names input f hf).1⟩

theorem byLength_told (input : Bytes) : Told (byLength input) := by
  have hone {what value : Str} (hwhat : Shown what) (hvalue : Shown value) :
      Told (some ((Finding.new what).fact "could be" value)) :=
    told_some ((Printed.new hwhat).fact (shown_literal rfl) hvalue)
  unfold byLength
  refine told_ite (fun _ => hone (shown_literal rfl) ?_) fun _ => ?_
  · apply shown_join (shown_literal rfl)
    intro s hs
    simp only [List.mem_cons, List.not_mem_nil, or_false] at hs
    rcases hs with rfl | rfl
    · exact shown_literal rfl
    · exact shown_literal rfl
  refine told_ite (fun _ => hone (shown_literal rfl) (shown_literal rfl)) fun _ => ?_
  refine told_ite (fun _ => ?_) fun _ f hf => ?_
  · exact told_some ((Printed.new (shown_literal rfl)).fact (shown_literal rfl) (shown_literal rfl))
  · obtain ⟨hash, hhash, rfl⟩ := Option.map_eq_some_iff.mp hf
    obtain ⟨name, hname, ⟨⟩⟩ := Option.bind_eq_some_iff.mp hhash
    exact (Printed.new ((shown_decimal _).append (shown_literal rfl))).fact (shown_literal rfl)
      (Formats.shown_hashByLength _ name hname)

theorem unknown_printed (lib : Lib) (input : Bytes) : Printed (unknown lib input) := by
  refine ((Printed.new (shown_literal rfl)).fact (shown_literal rfl) (shown_decimal _)).fact
    (shown_literal rfl) ?_
  split_ifs <;> exact shown_literal rfl

/-! ## What is told from the text -/

theorem fromArmor_eq (lib : Lib) (text : Str) :
    Pgp.fromArmor lib text = (Str.stripPrefix "-----BEGIN PGP " text).bind fun rest =>
      let label := Str.firstPiece "-----" rest
      some (((armored text).getD (Finding.new ("OpenPGP ".toList ++ lib.toLowercase label))).first
        "wrapped in" ("ASCII armor (PGP ".toList ++ label ++ [')'])) := by
  unfold Pgp.fromArmor armored Ssh.decoded
  cases Base64.decode (Str.trim (Pgp.armorBody text)) <;> rfl

theorem fromArmor_follows {lib : Lib} {text : Str} {f : Finding}
    (h : Pgp.fromArmor lib text = some f) : Follows f (armorCopies lib text) := by
  rw [fromArmor_eq] at h
  obtain ⟨rest, hrest, h⟩ := Option.bind_eq_some_iff.mp h
  have hlabel {s : Str} : Shown ("ASCII armor (PGP ".toList ++ s ++ [')']) ↔ Shown s := by
    rw [shown_append, shown_append, and_iff_left (shown_char (by decide) : Shown [')']),
      and_iff_right (shown_literal rfl : Shown "ASCII armor (PGP ".toList)]
  have hnew {s : Str} : Printed (Finding.new ("OpenPGP ".toList ++ s)) ↔ Shown s :=
    ⟨fun h => (shown_append.mp h.what).2, fun h => Printed.new ((shown_literal rfl).append h)⟩
  cases h
  rw [armorCopies, hrest, Option.getD_some]
  cases harmored : armored text with
  | some found =>
    obtain ⟨blob, -, hfound⟩ := Option.bind_eq_some_iff.mp harmored
    obtain ⟨hprinted, hhead⟩ := Pgp.fromBinary_names blob found hfound
    have hcopies : Printed (found.first "wrapped in" ("ASCII armor (PGP ".toList ++
        Str.firstPiece "-----" rest ++ [')'])) ↔ AllShown [Str.firstPiece "-----" rest] := by
      rw [printed_first (shown_literal rfl), and_iff_right hprinted, hlabel, allShown_cons,
        and_iff_left allShown_nil]
    apply Follows.of_head hcopies
    change found.what.head? ≠ some 'n'
    rw [hhead]
    decide
  | none =>
    apply Follows.of_head
    · rw [Option.getD_none, printed_first (shown_literal rfl), hlabel, hnew,
        Option.isSome_none, if_neg Bool.false_ne_true, allShown_cons, allShown_cons,
        and_iff_left allShown_nil, and_comm]
    · exact (by decide +kernel : some 'O' ≠ some 'n')

/-- What is told follows the texts, and where nothing is told they are printable. -/
def Covers (r : Option Finding) (texts : List Str) : Prop :=
  (∀ f, r = some f → Follows f texts) ∧ (r = none → AllShown texts)

theorem Told.covers {r : Option Finding} (h : Told r) : Covers r [] :=
  ⟨fun f hf => .of_printed (h f hf) allShown_nil, fun _ => allShown_nil⟩

theorem Covers.or {r r' : Option Finding} {texts texts' : List Str}
    (h : ∀ f, r = some f → Follows f texts) (h' : Covers r' texts') :
    Covers (r.or r') (if r.isSome then texts else texts') := by
  cases r with
  | some f =>
    refine ⟨fun g hg => ?_, fun hnone => (nomatch hnone)⟩
    cases hg
    exact h f rfl
  | none => exact h'

section Nested
variable (lib : Lib) {inner : Bytes → ℕ → Finding} {texts : Bytes → ℕ → List Str}
  (hinner : ∀ b depth, Follows (inner b depth) (texts b depth))

theorem shown_pemLabelName {label shown : Str} (h : Shown shown) : Shown (pemLabelName label shown) := by
  have hlabels : ∀ e ∈ pemLabels, Shown e.2.toList := by decide +kernel
  unfold pemLabelName
  split
  next e he => exact hlabels e (List.mem_of_find?_eq_some he)
  · exact (shown_literal rfl).append h

theorem Follows.getD {r : Option Finding} {found : Finding} {out : List Str} (hfound : Printed found)
    (h : ∀ f, r = some f → Follows f out) :
    Follows (r.getD found) (if r.isSome then out else []) := by
  cases r with
  | some f => exact h f rfl
  | none => exact .of_printed hfound allShown_nil

include hinner in
theorem pemInner_follows (label : Str) (depth : ℕ) (b : Bytes) {found : Finding}
    (hfound : Printed found) :
    Follows ((pemInner inner label depth b).getD found) (pemInnerCopies texts label depth b) := by
  unfold pemInner pemInnerCopies
  split
  · exact .getD hfound fun f hf => Ssh.privateKey_follows hf
  split
  · exact .getD hfound fun f hf => Ssh.signature_follows hf
  split
  · have htold := Pkix.pkcs1Public_told b
    cases hkey : Pkix.pkcs1Public b with
    | some f => exact .of_printed (htold f hkey) allShown_nil
    | none => exact .of_printed hfound allShown_nil
  · have h := hinner b (depth + 1)
    by_cases hwhat : (inner b (depth + 1)).what = NOT_RECOGNIZED
    · rw [Option.filter_some_neg (by simp [hwhat])]
      exact .of_printed hfound (h.unnamed hwhat)
    · rw [Option.filter_some_pos (by simp [hwhat])]
      exact h

theorem Follows.member {f : Finding} {out : List Str} (h : Follows f out) {name : String}
    {o : Option Str} (hname : Shown name.toList) (ho : ShownIfAny o) :
    Follows (Formats.member f name o) out := by
  cases o with
  | none => exact h
  | some value =>
    refine ⟨?_, h.unnamed⟩
    rw [Formats.member, printed_fact hname, and_iff_left (ho value rfl)]
    exact h.printed

theorem fromArmor_of_label {text rest : Str} (hrest : Str.stripPrefix "-----BEGIN " text = some rest)
    (hlabel : Str.startsWith "PGP " (Str.firstPiece "-----" rest)) :
    ∃ f, Pgp.fromArmor lib text = some f := by
  have hstart : Str.startsWith "PGP " rest :=
    List.isPrefixOf_iff_prefix.mpr
      ((List.isPrefixOf_iff_prefix.mp hlabel).trans (Str.firstPiece_prefix _ _))
  have hboth : "-----BEGIN PGP ".toList = "-----BEGIN ".toList ++ "PGP ".toList := by decide +kernel
  obtain ⟨rest', hrest'⟩ := Str.stripPrefix_append hboth hrest hstart
  rw [fromArmor_eq, hrest']
  exact ⟨_, rfl⟩

include hinner in
theorem pem_follows {text rest : Str} (depth : ℕ)
    (hrest : Str.stripPrefix "-----BEGIN " text = some rest) :
    ∃ f, pem lib inner text depth = some f ∧ Follows f (pemCopies lib texts rest text depth) := by
  rw [pem, hrest, Option.bind_eq_bind, Option.bind_some]
  unfold pemCopies
  dsimp only
  by_cases hlabel : Str.startsWith "PGP " (Str.firstPiece "-----" rest)
  · rw [if_pos hlabel, if_pos hlabel]
    obtain ⟨f, hf⟩ := fromArmor_of_label lib hrest hlabel
    exact ⟨f, hf, fromArmor_follows hf⟩
  · rw [if_neg hlabel, if_neg hlabel]
    refine ⟨_, rfl, ?_⟩
    have hdek : ShownIfAny (dekInfo text) := by
      intro s hs
      obtain ⟨dek, -, rfl⟩ := Option.map_eq_some_iff.mp hs
      exact shown_printable _
    have hnew : Printed (Finding.new (pemLabelName (Str.firstPiece "-----" rest)
        (printable (Str.asBytes (Str.firstPiece "-----" rest))))) :=
      Printed.new (shown_pemLabelName (shown_printable _))
    apply Follows.member _ (shown_literal rfl) hdek
    apply Follows.first _ (shown_literal rfl)
    · exact ((shown_literal rfl).append (shown_printable _)).append (shown_char (by decide))
    · cases Ssh.decoded (pemBody text) with
      | none => exact .of_printed hnew allShown_nil
      | some b => exact pemInner_follows hinner _ depth b hnew

theorem unwrapped_eq (text : Str) (depth : ℕ) :
    unwrapped inner text depth =
      ((unhexed text).map fun bytes => wrapped (inner bytes (depth + 1)) "hex").or
        ((if 8 ≤ text.asBytes.length then Ssh.decoded text else none).bind fun bytes =>
          if (inner bytes (depth + 1)).what ≠ NOT_RECOGNIZED then
            some (wrapped (inner bytes (depth + 1)) "base64")
          else none) := by
  unfold unwrapped unhexed
  dsimp only
  congr 1
  · split
    · cases Hex.decode (Str.toAsciiLowercase text) <;> rfl
    · rfl
  · split <;> rfl

include hinner in
theorem unwrapped_covers (text : Str) (depth : ℕ) :
    Covers (unwrapped inner text depth) (unwrappedCopies texts text depth) := by
  have hwrapped (bytes : Bytes) {how : String} (h : Shown how.toList) :
      Follows (wrapped (inner bytes (depth + 1)) how) (texts bytes (depth + 1)) :=
    (hinner bytes (depth + 1)).first (shown_literal rfl) h
  rw [unwrapped_eq, unwrappedCopies]
  cases unhexed text with
  | some bytes =>
    refine ⟨fun f hf => ?_, fun hnone => (nomatch hnone)⟩
    cases hf
    exact hwrapped bytes (shown_literal rfl)
  | none =>
    rw [Option.map_none, Option.none_or, Option.none_or]
    cases (if 8 ≤ text.asBytes.length then Ssh.decoded text else none) with
    | none => exact told_none.covers
    | some bytes =>
      dsimp only [Option.bind_some]
      by_cases hwhat : (inner bytes (depth + 1)).what = NOT_RECOGNIZED
      · rw [if_neg (not_not.mpr hwhat)]
        exact ⟨fun f hf => (nomatch hf), fun _ => (hinner bytes (depth + 1)).unnamed hwhat⟩
      · rw [if_pos hwhat]
        refine ⟨fun f hf => ?_, fun hnone => (nomatch hnone)⟩
        cases hf
        exact hwrapped bytes (shown_literal rfl)

include hinner in
theorem fromString_covers (text : Str) (depth : ℕ) :
    Covers (fromString lib inner text depth) (stringCopies lib texts text depth) := by
  apply Covers.or fun f hf => phcArgon2id_follows hf
  cases hrest : Str.stripPrefix "-----BEGIN " text with
  | some rest =>
    obtain ⟨f, hf, hfollows⟩ := pem_follows lib hinner depth hrest
    rw [hf]
    refine ⟨fun g hg => ?_, fun hnone => (nomatch hnone)⟩
    cases hg
    exact hfollows
  | none =>
    have hpem : pem lib inner text depth = none := by
      rw [pem, hrest]
      rfl
    rw [hpem, Option.none_or]
    dsimp only
    apply Covers.or fun f hf => Ssh.rfc4716_follows hf
    apply Covers.or fun f hf => .of_printed (Ssh.putty_told text f hf) allShown_nil
    apply Covers.or fun f hf => Ssh.publicLine_follows hf
    apply Covers.or fun f hf => .of_printed (Formats.fromText_told lib text f hf) allShown_nil
    split
    · exact unwrapped_covers hinner text depth
    · exact told_none.covers

include hinner in
theorem inspectOne_follows (input : Bytes) (depth : ℕ) :
    Follows (inspectOne lib inner input depth) (copiesOne lib texts input depth) := by
  have hrest {out : List Str} (h : AllShown out) :
      Follows ((byLength input).getD (unknown lib input)) out := by
    cases hlength : byLength input with
    | some f => exact .of_printed (byLength_told input f hlength) h
    | none => exact .of_printed (unknown_printed lib input) h
  unfold inspectOne copiesOne
  dsimp only
  cases hbytes : recognizers.findSome? fun f => f input with
  | some f => exact .of_printed (recognizers_told input f hbytes) allShown_nil
  | none =>
    rw [Option.isSome_none, if_neg Bool.false_ne_true, Option.none_or]
    cases (Str.fromUtf8 input).map Str.trim with
    | none => exact hrest allShown_nil
    | some text =>
      obtain ⟨hsome, hnone⟩ := fromString_covers lib hinner text depth
      dsimp only [Option.bind_some]
      cases hstring : fromString lib inner text depth with
      | some f => exact hsome f hstring
      | none => exact hrest (hnone hstring)

end Nested

/-- What every layer tells follows what it and the layers in it copy. -/
theorem inspectWith_follows (lib : Lib) (fuel : ℕ) (input : Bytes) (depth : ℕ) :
    Follows (inspectWith lib fuel input depth) (copiesWith lib fuel input depth) := by
  induction fuel generalizing input depth with
  | zero => exact .of_printed (unknown_printed lib input) allShown_nil
  | succ fuel ih => exact inspectOne_follows lib ih input depth

/-! ## The report -/

/-- Printable ASCII and no newline but those before the facts. -/
structure SafeToPrint (f : Finding) : Prop where
  printed : Printed f
  report : ∀ c ∈ f.report, c = '\n' ∨ Str.Printable c
  newlines : f.report.count '\n' = f.facts.length

theorem safeToPrint_iff {f : Finding} : SafeToPrint f ↔ Printed f :=
  ⟨SafeToPrint.printed, fun h => ⟨h, h.report.1, h.report.2⟩⟩

/-- What no file should make a terminal do. -/
theorem inspect_safe_iff (lib : Lib) (input : Bytes) :
    SafeToPrint (inspect lib input) ↔ AllShown (copies lib input) := by
  have hfollows := inspectWith_follows lib (input.length + 1) input 0
  rw [safeToPrint_iff]
  exact hfollows.printed

def escapeHash : Bytes := ascii "$argon2id$v=\x1b[2J$m=65536,t=3,p=2$c2FsdA$aGFzaA"

theorem inspect_prints_escape :
    ¬∀ (lib : Lib) (input : Bytes), SafeToPrint (inspect lib input) := by
  intro hall
  have hreported : '\x1b' ∈ (inspect asciiLib escapeHash).report := by decide +kernel
  rcases (hall asciiLib escapeHash).report '\x1b' hreported with h | h
  · exact absurd h (by decide)
  · exact absurd h (by decide)

end Krypto.Inspect
