import Krypto.Inspect

/-! What `inspect` tells of a password hash: which of its segments the report is
made of, and that the salt and the hash are not among them, but for an Argon2i or
Argon2d string that does not state its version. -/

namespace Krypto.Inspect.Formats

/-! ## The formats -/

inductive Scheme where
  | argon2id
  | argon2i
  | argon2d
  | scrypt
  | pbkdf2
  | bcrypt (e : { e // e ∈ Formats.bcrypt })
  | crypt (e : { e // e ∈ Formats.crypt })
  | django (e : { e // e ∈ Formats.django })
  | ldap (e : { e // e ∈ Formats.ldap })

def Scheme.ident : Scheme → String
  | argon2id => "$argon2id$"
  | argon2i => "$argon2i$"
  | argon2d => "$argon2d$"
  | scrypt => "$scrypt$"
  | pbkdf2 => "$pbkdf2-"
  | bcrypt e | crypt e | django e | ldap e => e.1.1

def Scheme.write (scheme : Scheme) (segments : List Str) : Str :=
  scheme.ident.toList ++ Str.join "$" segments

/-- The segments before the salt: the version where it is stated, and the parameters. -/
def Scheme.Takes : Scheme → List Str → Prop
  | argon2id, known | argon2i, known | argon2d, known | scrypt, known =>
    ∃ params, Str.stripPrefix "v=" params = none ∧
      (known = [params] ∨ ∃ version, known = ["v=".toList ++ version, params])
  | pbkdf2, known => ∃ hash params, known = [hash, params]
  | bcrypt _, known => ∃ cost, known = [cost]
  | crypt _, known => known = [] ∨ ∃ params, known = [params]
  | django _, known => known ≠ []
  | ldap _, _ => True

def keywords : List String := ["v=", "m=", "t=", "p=", "ln=", "r=", "i=", "l=", "rounds="]

/-- A salt or a hash: text of a base64 alphabet that does not look like parameters. -/
structure Secret (s : Str) : Prop where
  base64 : ∀ c ∈ s, c.isAlphanum ∨ c ∈ "+/=._-".toList
  plain : ∀ k ∈ keywords, Str.stripPrefix k s = none

def Blind (lib : Lib) (scheme : Scheme) (known : List Str) : Prop :=
  ∀ secrets secrets' : List Str, secrets ≠ [] → secrets' ≠ [] → (∀ s ∈ secrets, Secret s) →
    (∀ s ∈ secrets', Secret s) →
    phcArgon2id (scheme.write (known ++ secrets)) = phcArgon2id (scheme.write (known ++ secrets')) ∧
      passwordHashes lib (scheme.write (known ++ secrets)) =
        passwordHashes lib (scheme.write (known ++ secrets'))

/-! ## Texts that start with an identifier -/

section Texts
variable {tail : Str}

def Differ (pat ident : String) : Prop := ¬pat.toList <+: ident.toList ∧ ¬ident.toList <+: pat.toList

instance (pat ident : String) : Decidable (Differ pat ident) := inferInstanceAs (Decidable (_ ∧ _))

theorem stripPrefix_self (ident : String) (tail : Str) :
    Str.stripPrefix ident (ident.toList ++ tail) = some tail :=
  List.isPrefixOf?_eq_some_iff_append_eq.mpr rfl

theorem stripPrefix_other {pat ident : String} (h : Differ pat ident) :
    Str.stripPrefix pat (ident.toList ++ tail) = none := by
  rw [Option.eq_none_iff_forall_ne_some]
  intro rest hrest
  have heq := Str.eq_append_of_stripPrefix hrest
  rcases List.prefix_or_prefix_of_prefix (List.prefix_append pat.toList rest)
    (heq ▸ List.prefix_append ident.toList tail) with hpat | hident
  · exact h.1 hpat
  · exact h.2 hident

theorem named_other {table : List (String × String)} {ident : String}
    (h : ∀ e ∈ table, Differ e.1 ident) : named table (ident.toList ++ tail) = none := by
  rw [named, List.findSome?_eq_none_iff]
  intro e he
  rw [stripPrefix_other (h e he)]
  rfl

theorem named_self {table : List (String × String)} {e : String × String} (he : e ∈ table)
    (h : ∀ d ∈ table, d = e ∨ Differ d.1 e.1) :
    named table (e.1.toList ++ tail) = some (tail, e.2.toList) := by
  unfold named
  induction table with
  | nil => cases he
  | cons d table ih =>
    rw [List.findSome?_cons]
    rcases h d (List.mem_cons_self ..) with rfl | hdiffer
    · rw [stripPrefix_self]
      rfl
    · rw [stripPrefix_other hdiffer]
      refine ih ?_ fun d hd => h d (List.mem_cons_of_mem _ hd)
      rcases List.mem_cons.mp he with rfl | he
      · exact absurd (List.prefix_refl _) hdiffer.1
      · exact he

theorem not_isMysql {ident : String} (h : Differ "*" ident) : isMysql (ident.toList ++ tail) = false := by
  have hstart : Str.startsWith "*" (ident.toList ++ tail) = false := by
    rw [Bool.eq_false_iff]
    intro hstart
    obtain ⟨rest, hrest⟩ := List.isPrefixOf_iff_prefix.mp hstart
    have hstrip : Str.stripPrefix "*" (ident.toList ++ tail) = some rest :=
      List.isPrefixOf?_eq_some_iff_append_eq.mpr hrest
    rw [stripPrefix_other h] at hstrip
    cases hstrip
  rw [isMysql, hstart]
  simp

theorem split_join {segments : List Str} (hne : segments ≠ []) (h : ∀ s ∈ segments, '$' ∉ s) :
    Str.split '$' (Str.join "$" segments) = segments := Str.splitOn_join hne h

end Texts

/-! ## The reports -/

section Reports
variable {lib : Lib} (tail : Str)

def argon2 : List (String × String) :=
  [("$argon2i$", "PHC string, Argon2i"), ("$argon2d$", "PHC string, Argon2d")]

theorem passwordHashes_argon2 {e : String × String} (he : e ∈ argon2) :
    passwordHashes lib (e.1.toList ++ tail) = some ((passwordHash e.2.toList).fact "parameters"
      (printable (Str.asBytes ((Str.split '$' tail)[1]?.getD [])))) := by
  have hself : ∀ e ∈ argon2, ∀ d ∈ argon2, d = e ∨ Differ d.1 e.1 := by simp [argon2, Differ]
  have hnamed : named argon2 (e.1.toList ++ tail) = some (tail, e.2.toList) :=
    named_self he (hself e he)
  unfold argon2 at hnamed
  rw [passwordHashes, hnamed]

theorem passwordHashes_later {ident : String} (h : ∀ e ∈ argon2, Differ e.1 ident) :
    passwordHashes lib (ident.toList ++ tail) =
      match Str.stripPrefix "$scrypt$" (ident.toList ++ tail) with
      | some rest => some ((passwordHash "PHC string, scrypt").fact "parameters" (field rest))
      | none =>
      match Str.stripPrefix "$pbkdf2-" (ident.toList ++ tail) with
      | some rest => pbkdf2 lib rest
      | none =>
      match named bcrypt (ident.toList ++ tail) with
      | some (rest, name) => some ((passwordHash name).fact "cost" (field rest))
      | none =>
      match named crypt (ident.toList ++ tail) with
      | some (_, name) => some (cryptFinding (ident.toList ++ tail) name)
      | none =>
      match named django (ident.toList ++ tail) with
      | some (rest, name) => some (djangoFinding (ident.toList ++ tail) rest name)
      | none =>
      match named ldap (ident.toList ++ tail) with
      | some (_, name) => some (passwordHash name)
      | none =>
      if isMysql (ident.toList ++ tail) then some (passwordHash "MySQL, SHA-1 of SHA-1, unsalted")
      else none := by
  have hnamed : named argon2 (ident.toList ++ tail) = none := named_other h
  unfold argon2 at hnamed
  unfold passwordHashes
  split
  next hsome => exact absurd (hnamed.symm.trans hsome) (Option.some_ne_none _).symm
  next => rfl

theorem passwordHashes_argon2id : passwordHashes lib ("$argon2id$".toList ++ tail) = none := by
  rw [passwordHashes_later tail (by simp [argon2, Differ]), stripPrefix_other (by simp [Differ]),
    stripPrefix_other (by simp [Differ]), named_other (by simp [bcrypt, Differ]),
    named_other (by simp [crypt, Differ]), named_other (by simp [django, Differ]),
    named_other (by simp [ldap, Differ]),
    not_isMysql (by simp [Differ])]
  rfl

theorem passwordHashes_scrypt : passwordHashes lib ("$scrypt$".toList ++ tail) =
    some ((passwordHash "PHC string, scrypt").fact "parameters" (field tail)) := by
  rw [passwordHashes_later tail (by simp [argon2, Differ]), stripPrefix_self]

theorem passwordHashes_pbkdf2 : passwordHashes lib ("$pbkdf2-".toList ++ tail) = pbkdf2 lib tail := by
  rw [passwordHashes_later tail (by simp [argon2, Differ]), stripPrefix_other (by simp [Differ]),
    stripPrefix_self]

theorem passwordHashes_bcrypt {e : String × String} (he : e ∈ bcrypt) :
    passwordHashes lib (e.1.toList ++ tail) =
      some ((passwordHash e.2.toList).fact "cost" (field tail)) := by
  have hdiffer : ∀ e ∈ bcrypt, (∀ d ∈ argon2, Differ d.1 e.1) ∧ Differ "$scrypt$" e.1 ∧
      Differ "$pbkdf2-" e.1 ∧ ∀ d ∈ bcrypt, d = e ∨ Differ d.1 e.1 := by
    simp [bcrypt, argon2, Differ]
  obtain ⟨hargon2, hscrypt, hpbkdf2, hself⟩ := hdiffer e he
  rw [passwordHashes_later tail hargon2, stripPrefix_other hscrypt, stripPrefix_other hpbkdf2,
    named_self he hself]

theorem passwordHashes_crypt {e : String × String} (he : e ∈ crypt) :
    passwordHashes lib (e.1.toList ++ tail) = some (cryptFinding (e.1.toList ++ tail) e.2.toList) := by
  have hdiffer : ∀ e ∈ crypt, (∀ d ∈ argon2, Differ d.1 e.1) ∧ Differ "$scrypt$" e.1 ∧
      Differ "$pbkdf2-" e.1 ∧ (∀ d ∈ bcrypt, Differ d.1 e.1) ∧ ∀ d ∈ crypt, d = e ∨ Differ d.1 e.1 := by
    simp [crypt, bcrypt, argon2, Differ]
  obtain ⟨hargon2, hscrypt, hpbkdf2, hbcrypt, hself⟩ := hdiffer e he
  rw [passwordHashes_later tail hargon2, stripPrefix_other hscrypt, stripPrefix_other hpbkdf2,
    named_other hbcrypt, named_self he hself]

theorem passwordHashes_django {e : String × String} (he : e ∈ django) :
    passwordHashes lib (e.1.toList ++ tail) =
      some (djangoFinding (e.1.toList ++ tail) tail e.2.toList) := by
  have hdiffer : ∀ e ∈ django, (∀ d ∈ argon2, Differ d.1 e.1) ∧ Differ "$scrypt$" e.1 ∧
      Differ "$pbkdf2-" e.1 ∧ (∀ d ∈ bcrypt, Differ d.1 e.1) ∧ (∀ d ∈ crypt, Differ d.1 e.1) ∧
        ∀ d ∈ django, d = e ∨ Differ d.1 e.1 := by
    simp [django, crypt, bcrypt, argon2, Differ]
  obtain ⟨hargon2, hscrypt, hpbkdf2, hbcrypt, hcrypt, hself⟩ := hdiffer e he
  rw [passwordHashes_later tail hargon2, stripPrefix_other hscrypt, stripPrefix_other hpbkdf2,
    named_other hbcrypt, named_other hcrypt, named_self he hself]

theorem passwordHashes_ldap {e : String × String} (he : e ∈ ldap) :
    passwordHashes lib (e.1.toList ++ tail) = some (passwordHash e.2.toList) := by
  have hdiffer : ∀ e ∈ ldap, (∀ d ∈ argon2, Differ d.1 e.1) ∧ Differ "$scrypt$" e.1 ∧
      Differ "$pbkdf2-" e.1 ∧ (∀ d ∈ bcrypt, Differ d.1 e.1) ∧ (∀ d ∈ crypt, Differ d.1 e.1) ∧
        (∀ d ∈ django, Differ d.1 e.1) ∧ ∀ d ∈ ldap, d = e ∨ Differ d.1 e.1 := by
    simp [ldap, django, crypt, bcrypt, argon2, Differ]
  obtain ⟨hargon2, hscrypt, hpbkdf2, hbcrypt, hcrypt, hdjango, hself⟩ := hdiffer e he
  rw [passwordHashes_later tail hargon2, stripPrefix_other hscrypt, stripPrefix_other hpbkdf2,
    named_other hbcrypt, named_other hcrypt, named_other hdjango, named_self he hself]

theorem phcArgon2id_other {ident : String} (h : Differ "$argon2id$" ident) :
    phcArgon2id (ident.toList ++ tail) = none := by
  rw [phcArgon2id, stripPrefix_other h]
  rfl

end Reports

/-! ## Two strings that differ in their secrets -/

section Secrets
variable {lib : Lib} {scheme : Scheme} {known secrets secrets' : List Str}

theorem Secret.no_separator {s : Str} (h : Secret s) : '$' ∉ s := by
  intro hmem
  have hchar := h.base64 '$' hmem
  revert hchar
  decide

theorem segments_split (hknown : ∀ s ∈ known, '$' ∉ s) (hne : secrets ≠ [])
    (hsecrets : ∀ s ∈ secrets, Secret s) : known ++ secrets ≠ [] ∧ ∀ s ∈ known ++ secrets, '$' ∉ s := by
  refine ⟨List.append_ne_nil_of_right_ne_nil known hne, fun s hs => ?_⟩
  rcases List.mem_append.mp hs with hs | hs
  · exact hknown s hs
  · exact (hsecrets s hs).no_separator

theorem split_known (hknown : ∀ s ∈ known, '$' ∉ s) (hne : secrets ≠ [])
    (hsecrets : ∀ s ∈ secrets, Secret s) :
    Str.split '$' (Str.join "$" (known ++ secrets)) = known ++ secrets := by
  obtain ⟨hall, hsplit⟩ := segments_split hknown hne hsecrets
  exact split_join hall hsplit

theorem field_known {first : Str} {more : List Str} (hknown : ∀ s ∈ first :: more, '$' ∉ s)
    (hne : secrets ≠ []) (hsecrets : ∀ s ∈ secrets, Secret s) :
    field (Str.join "$" (first :: more ++ secrets)) = printable (Str.asBytes first) := by
  rw [field, split_known hknown hne hsecrets]
  rfl

theorem splitOnce_append {a b : Str} (h : '$' ∉ a) : Str.splitOnce "$" (a ++ '$' :: b) = some (a, b) := by
  induction a with
  | nil => rfl
  | cons c a ih =>
    obtain ⟨hc, ha⟩ := not_or.mp (mt List.mem_cons.mpr h)
    have hnone : Str.stripPrefix "$" (c :: (a ++ '$' :: b)) = none := by
      rw [Option.eq_none_iff_forall_ne_some]
      intro rest hrest
      have heq : c :: (a ++ '$' :: b) = '$' :: rest := Str.eq_append_of_stripPrefix hrest
      exact hc (List.cons.inj heq).1.symm
    rw [List.cons_append, Str.splitOnce, hnone, ih ha]
    rfl

theorem pbkdf2_known {hash rounds : Str} (hknown : ∀ s ∈ [hash, rounds], '$' ∉ s) (hne : secrets ≠ [])
    (hsecrets : ∀ s ∈ secrets, Secret s) :
    pbkdf2 lib (Str.join "$" ([hash, rounds] ++ secrets)) =
      some ((passwordHash ("PBKDF2-".toList ++ printable (lib.toUppercase hash).asBytes)).fact
        "iterations" (printable (Str.asBytes rounds))) := by
  have hjoin : Str.join "$" ([hash, rounds] ++ secrets) =
      hash ++ '$' :: Str.join "$" ([rounds] ++ secrets) := by
    show List.intercalate "$".toList (hash :: rounds :: secrets) = _
    rw [List.intercalate_cons_cons, List.append_assoc]
    rfl
  have hrounds : ∀ s ∈ [rounds], '$' ∉ s := fun s hs => hknown s (List.mem_cons_of_mem _ hs)
  rw [pbkdf2, hjoin, splitOnce_append (hknown hash (List.mem_cons_self ..))]
  show some ((passwordHash _).fact "iterations" (field (Str.join "$" ([rounds] ++ secrets)))) = _
  rw [field_known hrounds hne hsecrets]

theorem split_crypt {e : String × String} (he : e ∈ crypt) (tail : Str) :
    (Str.split '$' (e.1.toList ++ tail))[2]? = (Str.split '$' tail).head? := by
  have hident : ∀ e ∈ crypt, e.1.toList = '$' :: (e.1.toList.tail.dropLast ++ ['$']) ∧
      '$' ∉ e.1.toList.tail.dropLast := by simp [crypt]
  obtain ⟨heq, hname⟩ := hident e he
  rw [heq]
  generalize e.1.toList.tail.dropLast = name at hname
  have hsplit : Str.split '$' ('$' :: (name ++ ['$']) ++ tail) = [] :: name :: Str.split '$' tail := by
    have hfirst : Str.split '$' ([] ++ '$' :: (name ++ '$' :: tail)) =
        Str.split '$' [] ++ Str.split '$' (name ++ '$' :: tail) := List.splitOn_append_cons_self _ _
    have hsecond : Str.split '$' (name ++ '$' :: tail) = Str.split '$' name ++ Str.split '$' tail :=
      List.splitOn_append_cons_self _ _
    have hone : Str.split '$' name = [name] := List.splitOn_eq_singleton hname
    rw [hsecond, hone] at hfirst
    rw [List.cons_append, List.append_assoc]
    exact hfirst
  rw [hsplit, List.head?_eq_getElem?]
  rfl

theorem Secret.no_rounds {s : Str} (h : Secret s) : Str.stripPrefix "rounds=" s = none :=
  h.plain "rounds=" (by decide)

theorem cryptFinding_known {e : String × String} (he : e ∈ crypt) (name : Str)
    (htakes : known = [] ∨ ∃ params, known = [params]) (hknown : ∀ s ∈ known, '$' ∉ s)
    (hne : secrets ≠ []) (hsecrets : ∀ s ∈ secrets, Secret s) :
    cryptFinding (e.1.toList ++ Str.join "$" (known ++ secrets)) name =
      match known.head?.bind (Str.stripPrefix "rounds=") with
      | some r => (passwordHash name).fact "rounds" (printable r.asBytes)
      | none => passwordHash name := by
  rw [cryptFinding, split_crypt he, split_known hknown hne hsecrets]
  rcases htakes with rfl | ⟨params, rfl⟩
  · obtain ⟨secret, more, rfl⟩ := List.exists_cons_of_ne_nil hne
    show (match Str.stripPrefix "rounds=" secret with | some r => _ | none => _) = _
    rw [(hsecrets secret (List.mem_cons_self ..)).no_rounds]
    rfl
  · rfl

theorem startsWith_of_lt {pat : String} {ident tail : Str} (h : pat.toList.length ≤ ident.length) :
    Str.startsWith pat (ident ++ tail) = Str.startsWith pat ident := by
  rw [Bool.eq_iff_iff]
  unfold Str.startsWith
  rw [List.isPrefixOf_iff_prefix, List.isPrefixOf_iff_prefix]
  exact ⟨fun hp => List.prefix_of_prefix_length_le hp (List.prefix_append ident tail) h,
    fun hp => hp.trans (List.prefix_append ident tail)⟩

theorem djangoFinding_known {e : String × String} (he : e ∈ django) (name : Str) {first : Str}
    {more : List Str} (hknown : ∀ s ∈ first :: more, '$' ∉ s) (hne : secrets ≠ [])
    (hsecrets : ∀ s ∈ secrets, Secret s) :
    djangoFinding (e.1.toList ++ Str.join "$" (first :: more ++ secrets))
        (Str.join "$" (first :: more ++ secrets)) name =
      if Str.startsWith "pbkdf2" e.1.toList then
        (passwordHash name).fact "iterations" (printable (Str.asBytes first))
      else passwordHash name := by
  have hlong : ∀ e ∈ django, "pbkdf2".toList.length ≤ e.1.toList.length := by simp [django]
  rw [djangoFinding, startsWith_of_lt (hlong e he), field_known hknown hne hsecrets]

theorem phcArgon2id_known {params : Str} (hparams : Str.stripPrefix "v=" params = none)
    (htakes : known = [params] ∨ ∃ version, known = ["v=".toList ++ version, params])
    (hknown : ∀ s ∈ known, '$' ∉ s) (hne : secrets ≠ []) (hne' : secrets' ≠ [])
    (hsecrets : ∀ s ∈ secrets, Secret s) (hsecrets' : ∀ s ∈ secrets', Secret s) :
    phcArgon2id ("$argon2id$".toList ++ Str.join "$" (known ++ secrets)) =
      phcArgon2id ("$argon2id$".toList ++ Str.join "$" (known ++ secrets')) := by
  have hparts (secrets : List Str) (hne : secrets ≠ []) (hsecrets : ∀ s ∈ secrets, Secret s) :
      phcArgon2id ("$argon2id$".toList ++ Str.join "$" (known ++ secrets)) = (do
        let version ← Str.stripPrefix "v=" (← (known ++ secrets)[0]?)
        let costs ← (Str.split ',' (← (known ++ secrets)[1]?)).foldlM Costs.add
          { m := none, t := none, p := none }
        let m ← costs.m
        let t ← costs.t
        let p ← costs.p
        some ((((((Finding.new "password hash (PHC string, Argon2id)").fact "version" version).fact
          "memory" (Str.decimal (m / 1024) ++ " MiB (m=".toList ++ Str.decimal m ++ [')'])).fact
          "iterations" (Str.decimal t)).fact "lanes" (Str.decimal p)).fact "preset"
            (presetName m t p))) := by
    simp only [phcArgon2id, stripPrefix_self, Option.bind_eq_bind, Option.bind_some,
      split_known hknown hne hsecrets]
  rw [hparts secrets hne hsecrets, hparts secrets' hne' hsecrets']
  rcases htakes with rfl | ⟨version, rfl⟩
  · simp only [List.singleton_append, List.getElem?_cons_zero, Option.bind_eq_bind, Option.bind_some,
      hparams, Option.bind_none]
  · rfl

def StatesVersion (known : List Str) : Prop := known.length = 2

theorem argon2_known {version params : Str} {e : String × String} (he : e ∈ argon2)
    (hknown : ∀ s ∈ [version, params], '$' ∉ s) (hne : secrets ≠ [])
    (hsecrets : ∀ s ∈ secrets, Secret s) :
    passwordHashes lib (e.1.toList ++ Str.join "$" ([version, params] ++ secrets)) =
      some ((passwordHash e.2.toList).fact "parameters" (printable (Str.asBytes params))) := by
  rw [passwordHashes_argon2 _ he, split_known hknown hne hsecrets]
  rfl

/-- Without a version the salt is told as the parameters. -/
theorem argon2_unversioned {params secret : Str} {more : List Str} {e : String × String}
    (he : e ∈ argon2) (hknown : ∀ s ∈ [params], '$' ∉ s) (hsecrets : ∀ s ∈ secret :: more, Secret s) :
    passwordHashes lib (e.1.toList ++ Str.join "$" ([params] ++ secret :: more)) =
      some ((passwordHash e.2.toList).fact "parameters" (printable (Str.asBytes secret))) := by
  rw [passwordHashes_argon2 _ he, split_known hknown (List.cons_ne_nil _ _) hsecrets]
  rfl

variable (lib) in
/-- Two salts that are told apart where they are told at all. -/
theorem argon2_sees {params : Str} {e : String × String} (he : e ∈ argon2)
    (hknown : ∀ s ∈ [params], '$' ∉ s) : ∃ secrets secrets' : List Str, secrets ≠ [] ∧ secrets' ≠ [] ∧
      (∀ s ∈ secrets, Secret s) ∧ (∀ s ∈ secrets', Secret s) ∧
      passwordHashes lib (e.1.toList ++ Str.join "$" ([params] ++ secrets)) ≠
        passwordHashes lib (e.1.toList ++ Str.join "$" ([params] ++ secrets')) := by
  have hone : ∀ s ∈ [['A']], Secret s := by
    intro s hs
    rw [List.mem_singleton.mp hs]
    exact ⟨by decide, by decide⟩
  have hother : ∀ s ∈ [['B']], Secret s := by
    intro s hs
    rw [List.mem_singleton.mp hs]
    exact ⟨by decide, by decide⟩
  refine ⟨[['A']], [['B']], List.cons_ne_nil _ _, List.cons_ne_nil _ _, hone, hother, ?_⟩
  rw [argon2_unversioned he hknown hone, argon2_unversioned he hknown hother]
  intro heq
  have hfacts := congrArg Finding.facts (Option.some.inj heq)
  exact absurd (List.append_cancel_left hfacts) (by decide +kernel)

/-- The report on a password hash does not depend on its salt and its hash, exactly when it is not an
Argon2i or Argon2d string without its version. -/
theorem passwordHash_blind_iff (lib : Lib) (scheme : Scheme) (known : List Str)
    (hknown : ∀ s ∈ known, '$' ∉ s) (htakes : scheme.Takes known) :
    Blind lib scheme known ↔ (scheme = .argon2i ∨ scheme = .argon2d → StatesVersion known) := by
  constructor
  · rintro hblind hscheme
    -- without its version, two salts that are told apart give two reports
    have hsees {e : String × String} (he : e ∈ argon2) (hident : scheme.ident = e.1) : StatesVersion known := by
      have htakes : ∃ params, Str.stripPrefix "v=" params = none ∧
          (known = [params] ∨ ∃ version, known = ["v=".toList ++ version, params]) := by
        rcases hscheme with rfl | rfl
        · exact htakes
        · exact htakes
      obtain ⟨params, -, rfl | ⟨version, rfl⟩⟩ := htakes
      · obtain ⟨secrets, secrets', hne, hne', hsecrets, hsecrets', hdiffer⟩ :=
          argon2_sees lib he hknown
        have hsame := (hblind secrets secrets' hne hne' hsecrets hsecrets').2
        unfold Scheme.write at hsame
        rw [hident] at hsame
        exact absurd hsame hdiffer
      · rfl
    rcases hscheme with rfl | rfl
    · exact hsees (e := ("$argon2i$", "PHC string, Argon2i")) (by decide) rfl
    · exact hsees (e := ("$argon2d$", "PHC string, Argon2d")) (by decide) rfl
  · intro hversion secrets secrets' hne hne' hsecrets hsecrets'
    -- no scheme but `$argon2id$` is looked at by the krypto recognizer
    have hother {ident : String} (h : Differ "$argon2id$" ident) (tail tail' : Str) :
        phcArgon2id (ident.toList ++ tail) = phcArgon2id (ident.toList ++ tail') :=
      (phcArgon2id_other tail h).trans (phcArgon2id_other tail' h).symm
    have hargon2 {e : String × String} (he : e ∈ argon2) (hlength : known.length = 2) :
        passwordHashes lib (e.1.toList ++ Str.join "$" (known ++ secrets)) =
          passwordHashes lib (e.1.toList ++ Str.join "$" (known ++ secrets')) := by
      obtain ⟨version, params, rfl⟩ := List.length_eq_two.mp hlength
      rw [argon2_known he hknown hne hsecrets, argon2_known he hknown hne' hsecrets']
    -- what is reported lies before the salt in every scheme that is left
    cases scheme with
    | argon2id =>
      obtain ⟨params, hparams, htakes⟩ := htakes
      refine ⟨phcArgon2id_known hparams htakes hknown hne hne' hsecrets hsecrets', ?_⟩
      exact (passwordHashes_argon2id _).trans (passwordHashes_argon2id _).symm
    | argon2i =>
      refine ⟨hother (by simp [Differ, Scheme.ident]) _ _, ?_⟩
      exact hargon2 (e := ("$argon2i$", "PHC string, Argon2i")) (by decide) (hversion (.inl rfl))
    | argon2d =>
      refine ⟨hother (by simp [Differ, Scheme.ident]) _ _, ?_⟩
      exact hargon2 (e := ("$argon2d$", "PHC string, Argon2d")) (by decide) (hversion (.inr rfl))
    | scrypt =>
      refine ⟨hother (by simp [Differ, Scheme.ident]) _ _, ?_⟩
      obtain ⟨first, more, rfl⟩ : ∃ first more, known = first :: more := by
        obtain ⟨params, -, rfl | ⟨version, rfl⟩⟩ := htakes
        · exact ⟨_, _, rfl⟩
        · exact ⟨_, _, rfl⟩
      show passwordHashes lib ("$scrypt$".toList ++ _) = passwordHashes lib ("$scrypt$".toList ++ _)
      rw [passwordHashes_scrypt, passwordHashes_scrypt, field_known hknown hne hsecrets,
        field_known hknown hne' hsecrets']
    | pbkdf2 =>
      refine ⟨hother (by simp [Differ, Scheme.ident]) _ _, ?_⟩
      obtain ⟨hash, params, rfl⟩ := htakes
      show passwordHashes lib ("$pbkdf2-".toList ++ _) = passwordHashes lib ("$pbkdf2-".toList ++ _)
      rw [passwordHashes_pbkdf2, passwordHashes_pbkdf2, pbkdf2_known hknown hne hsecrets,
        pbkdf2_known hknown hne' hsecrets']
    | bcrypt e =>
      have hdiffer : ∀ e ∈ bcrypt, Differ "$argon2id$" e.1 := by simp [bcrypt, Differ]
      refine ⟨hother (hdiffer e.1 e.2) _ _, ?_⟩
      obtain ⟨cost, rfl⟩ := htakes
      show passwordHashes lib (e.1.1.toList ++ _) = passwordHashes lib (e.1.1.toList ++ _)
      rw [passwordHashes_bcrypt _ e.2, passwordHashes_bcrypt _ e.2, field_known hknown hne hsecrets,
        field_known hknown hne' hsecrets']
    | crypt e =>
      have hdiffer : ∀ e ∈ crypt, Differ "$argon2id$" e.1 := by simp [crypt, Differ]
      refine ⟨hother (hdiffer e.1 e.2) _ _, ?_⟩
      show passwordHashes lib (e.1.1.toList ++ _) = passwordHashes lib (e.1.1.toList ++ _)
      rw [passwordHashes_crypt _ e.2, passwordHashes_crypt _ e.2,
        cryptFinding_known e.2 _ htakes hknown hne hsecrets,
        cryptFinding_known e.2 _ htakes hknown hne' hsecrets']
    | django e =>
      have hdiffer : ∀ e ∈ django, Differ "$argon2id$" e.1 := by simp [django, Differ]
      refine ⟨hother (hdiffer e.1 e.2) _ _, ?_⟩
      obtain ⟨first, more, rfl⟩ := List.exists_cons_of_ne_nil htakes
      show passwordHashes lib (e.1.1.toList ++ _) = passwordHashes lib (e.1.1.toList ++ _)
      rw [passwordHashes_django _ e.2, passwordHashes_django _ e.2,
        djangoFinding_known e.2 _ hknown hne hsecrets, djangoFinding_known e.2 _ hknown hne' hsecrets']
    | ldap e =>
      have hdiffer : ∀ e ∈ ldap, Differ "$argon2id$" e.1 := by simp [ldap, Differ]
      refine ⟨hother (hdiffer e.1 e.2) _ _, ?_⟩
      show passwordHashes lib (e.1.1.toList ++ _) = passwordHashes lib (e.1.1.toList ++ _)
      rw [passwordHashes_ldap _ e.2, passwordHashes_ldap _ e.2]

end Secrets

section Sample

theorem passwordHash_blind_iff_sample :
    Blind asciiLib .argon2i ["v=19".toList, "m=65536,t=3,p=4".toList] :=
  (passwordHash_blind_iff asciiLib .argon2i _ (by decide)
    ⟨"m=65536,t=3,p=4".toList, by decide, .inr ⟨"19".toList, rfl⟩⟩).mpr fun _ => rfl

/-- The salt of such a string is told as its parameters. -/
theorem passwordHashes_tells_salt :
    passwordHashes asciiLib "$argon2i$m=65536,t=3,p=4$c2FsdHNhbHQ$aGFzaA".toList =
      some ((passwordHash "PHC string, Argon2i").fact "parameters" "c2FsdHNhbHQ".toList) ∧
    ¬∀ (scheme : Scheme) (known : List Str), (∀ s ∈ known, '$' ∉ s) → scheme.Takes known →
      Blind asciiLib scheme known := by
  refine ⟨by decide +kernel, fun hall => ?_⟩
  have hknown : ∀ s ∈ ["m=65536,t=3,p=4".toList], '$' ∉ s := by decide
  have hblind := hall .argon2i ["m=65536,t=3,p=4".toList] hknown
    ⟨"m=65536,t=3,p=4".toList, by decide, .inl rfl⟩
  obtain ⟨secrets, secrets', hne, hne', hsecrets, hsecrets', hdiffer⟩ :=
    argon2_sees asciiLib (e := ("$argon2i$", "PHC string, Argon2i")) (by decide) hknown
  exact hdiffer (hblind secrets secrets' hne hne' hsecrets hsecrets').2

end Sample
end Krypto.Inspect.Formats
