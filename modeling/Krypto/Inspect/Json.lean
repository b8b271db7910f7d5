import Krypto.Base64.Canonical
import Krypto.Inspect.Quoted

/-! `json_string` on flat objects: it finds the first piece between two quotes
that is the key, a member's name or not. -/

namespace Krypto.Inspect.Json
open Effect Formats

/-! ### Flat objects -/

section Objects

def Blank (s : Str) : Prop := ∀ c ∈ s, c ∈ [' ', '\t', '\n', '\r']

def Plain (s : Str) : Prop := '"' ∉ s ∧ '\\' ∉ s

structure Gap where
  before : Str
  after : Str
  before_blank : Blank before
  after_blank : Blank after

def Gap.text (g : Gap) (mark : Char) : Str := g.before ++ mark :: g.after

/-- A member, and what stands around its colon and around the comma behind it. -/
structure Member where
  key : Str
  value : Str
  colon : Gap
  comma : Gap
  key_plain : Plain key
  value_plain : Plain value

def Member.text (m : Member) : Str :=
  '"' :: (m.key ++ '"' :: (m.colon.text ':' ++ '"' :: (m.value ++ ['"'])))

def written (closing : Gap) : List Member → Str
  | [] => closing.text '}'
  | [m] => m.text ++ closing.text '}'
  | m :: n :: ms => m.text ++ (m.comma.text ',' ++ written closing (n :: ms))

structure Flat where
  opening : Gap
  members : List Member
  closing : Gap
  distinct : (members.map Member.key).Nodup

def Flat.text (o : Flat) : Str := o.opening.text '\x7b' ++ written o.closing o.members

def lookup (key : Str) (ms : List Member) : Option Str :=
  (ms.find? fun m => m.key = key).map fun m => printable m.value.asBytes

end Objects

/-! ### The pieces of an object -/

section Pieces

def Member.next (m : Member) (closing : Gap) (ms : List Member) : Str :=
  if ms = [] then closing.text '}' else m.comma.text ','

def pieces (closing : Gap) : List Member → List Str
  | [] => []
  | m :: ms => m.key :: m.colon.text ':' :: m.value :: m.next closing ms :: pieces closing ms

theorem Blank.isWhitespace {s : Str} (h : Blank s) : ∀ c ∈ s, Str.isWhitespace c := by
  have hall : ∀ c ∈ [' ', '\t', '\n', '\r'], Str.isWhitespace c := by decide
  exact fun c hc => hall c (h c hc)

theorem Blank.not_mem {s : Str} (h : Blank s) : '"' ∉ s := fun hin => absurd (h _ hin) (by decide)

theorem trim_text {g : Gap} {mark : Char} (h : ¬Str.isWhitespace mark) :
    Str.trim (g.text mark) = [mark] := by
  have hstart : Str.trimStart (g.text mark) = mark :: g.after := by
    unfold Str.trimStart Gap.text
    rw [List.dropWhile_append_of_pos g.before_blank.isWhitespace, List.dropWhile_cons_of_neg h]
  unfold Str.trim
  rw [hstart, rdropWhile_cons h, List.rdropWhile_eq_nil_iff.mpr g.after_blank.isWhitespace]

theorem not_mem_text {g : Gap} {mark : Char} (h : mark ≠ '"') : '"' ∉ g.text mark := by
  intro hin
  obtain hbefore | hin := List.mem_append.mp hin
  · exact g.before_blank.not_mem hbefore
  · obtain heq | hafter := List.mem_cons.mp hin
    · exact h heq.symm
    · exact g.after_blank.not_mem hafter

theorem split_append {piece : Str} (h : '"' ∉ piece) (rest : Str) :
    Str.split '"' (piece ++ '"' :: rest) = piece :: Str.split '"' rest :=
  List.splitOn_append_cons_self_of_not_mem h rest

theorem split_member {front : Str} (hfront : '"' ∉ front) (m : Member) (rest : Str) :
    Str.split '"' (front ++ (m.text ++ rest)) =
      front :: m.key :: m.colon.text ':' :: m.value :: Str.split '"' rest := by
  have htext : front ++ (m.text ++ rest) = front ++ '"' :: (m.key ++ '"' :: (m.colon.text ':' ++
      '"' :: (m.value ++ '"' :: rest))) := by
    simp [Member.text]
  rw [htext, split_append hfront, split_append m.key_plain.1, split_append (not_mem_text (by decide)),
    split_append m.value_plain.1]

theorem split_written {front : Str} (hfront : '"' ∉ front) (closing : Gap) (m : Member)
    (ms : List Member) :
    Str.split '"' (front ++ written closing (m :: ms)) = front :: pieces closing (m :: ms) := by
  induction ms generalizing front m with
  | nil =>
    have hclosing : Str.split '"' (closing.text '}') = [closing.text '}'] :=
      List.splitOn_eq_singleton (not_mem_text (by decide))
    rw [written, split_member hfront, hclosing]
    rfl
  | cons n ms ih =>
    rw [written, split_member hfront, ih (not_mem_text (by decide))]
    rfl

end Pieces

/-! ### A name among them -/

section Name

/-- A key that stands between no two strings: it has no quote, and is no colon or comma with
whitespace around it. -/
structure Name (key : Str) : Prop where
  quote : '"' ∉ key
  colon : Str.trim key ≠ [':']
  comma : Str.trim key ≠ [',']

/-- No value before the member with this key is the key itself. -/
def Undisturbed (key : Str) (ms : List Member) : Prop :=
  (∃ m ∈ ms, m.key = key) → ∀ e ∈ ms.takeWhile fun m => m.key ≠ key, e.value ≠ key

theorem undisturbed_cons {key : Str} {m : Member} {ms : List Member} (h : m.key ≠ key) :
    Undisturbed key (m :: ms) ↔
      ((∃ n ∈ ms, n.key = key) → m.value ≠ key) ∧ Undisturbed key ms := by
  have hmem : (∃ n ∈ m :: ms, n.key = key) ↔ ∃ n ∈ ms, n.key = key := by simp [h]
  unfold Undisturbed
  rw [hmem, List.takeWhile_cons, if_pos (decide_eq_true h), List.forall_mem_cons]
  exact imp_and

theorem lookup_eq_none {key : Str} {ms : List Member} :
    lookup key ms = none ↔ ¬∃ m ∈ ms, m.key = key := by
  unfold lookup
  rw [Option.map_eq_none_iff, List.find?_eq_none]
  simp

theorem lookup_cons (key : Str) (m : Member) (ms : List Member) : lookup key (m :: ms) =
    if m.key = key then some (printable m.value.asBytes) else lookup key ms := by
  unfold lookup
  rw [List.find?_cons]
  by_cases h : m.key = key
  · simp [h]
  · simp [h]

theorem seek_one (key p q : Str) (ps : List Str) : seek [key] (p :: q :: ps) =
    if q = key ∧ ps ≠ [] then some ps else seek [key] (q :: ps) := by
  have hhere : ([key] <+: q :: ps ∧ [key].length < (q :: ps).length) ↔ q = key ∧ ps ≠ [] := by
    rw [List.cons_prefix_cons, List.length_singleton, List.length_cons, Nat.lt_add_left_iff_pos,
      List.length_pos_iff]
    simp [eq_comm]
  rw [seek]
  simp only [hhere]
  rfl

/-- Behind a value stands no colon. -/
theorem valueOf_next (m : Member) (closing : Gap) (ms : List Member) :
    valueOf (m.next closing ms :: pieces closing ms) = none := by
  cases ms with
  | nil => rfl
  | cons n ms =>
    have hcomma : ¬IsColon (m.comma.text ',') := by
      unfold IsColon
      rw [trim_text (by decide)]
      decide
    exact if_neg hcomma

/-- What stands between two members is no name. -/
theorem seek_next {key : Str} (h : Name key) (m : Member) (closing : Gap) (p : Str) (ms : List Member) :
    seek [key] (p :: m.next closing ms :: pieces closing ms) =
      seek [key] (m.next closing ms :: pieces closing ms) := by
  rw [seek_one, if_neg]
  intro hnext
  cases ms with
  | nil => exact hnext.2 rfl
  | cons n ms =>
    apply h.comma
    rw [← hnext.1]
    exact trim_text (by decide)

theorem seek_name {key : Str} (h : Name key) (closing : Gap) (p : Str) (ms : List Member) :
    ((seek [key] (p :: pieces closing ms)).bind valueOf = lookup key ms ∧ Undisturbed key ms) ∨
    ((seek [key] (p :: pieces closing ms)).bind valueOf = none ∧ lookup key ms ≠ none ∧
      ¬Undisturbed key ms) := by
  induction ms generalizing p with
  | nil =>
    apply Or.inl
    exact ⟨rfl, fun hin => absurd hin (by simp)⟩
  | cons m ms ih =>
    rw [pieces, seek_one, lookup_cons]
    by_cases hkey : m.key = key
    · rw [if_pos ⟨hkey, List.cons_ne_nil _ _⟩, if_pos hkey]
      apply Or.inl
      have hcolon : IsColon (m.colon.text ':') := trim_text (by decide)
      apply And.intro
      · exact if_pos hcolon
      · unfold Undisturbed
        rw [List.takeWhile_cons, if_neg (by simp [hkey])]
        simp
    -- the text between name and value is a piece too, and no name
    · have hcolon : m.colon.text ':' ≠ key := by
        intro heq
        apply h.colon
        rw [← heq]
        exact trim_text (by decide)
      rw [if_neg fun hhit => hkey hhit.1, if_neg hkey, seek_one, if_neg fun hhit => hcolon hhit.1,
        seek_one, undisturbed_cons hkey]
      by_cases hvalue : m.value = key
      · rw [if_pos ⟨hvalue, List.cons_ne_nil _ _⟩, Option.bind_some, valueOf_next]
        -- a value that equals the name stops the search: its follower is no colon
        by_cases hmem : ∃ n ∈ ms, n.key = key
        · apply Or.inr
          exact ⟨rfl, fun hnone => lookup_eq_none.mp hnone hmem, fun hclear => hclear.1 hmem hvalue⟩
        · apply Or.inl
          exact ⟨(lookup_eq_none.mpr hmem).symm, fun hin => absurd hin hmem, fun hin => absurd hin hmem⟩
      · rw [if_neg fun hhit => hvalue hhit.1, seek_next h]
        have hfree : ((∃ n ∈ ms, n.key = key) → m.value ≠ key) ∧ Undisturbed key ms ↔
            Undisturbed key ms := and_iff_right fun _ => hvalue
        rw [hfree]
        exact ih (m.next closing ms)

end Name

/-! ### The lookup -/

section Lookup

theorem split_text (o : Flat) : o.members = [] ∨
    Str.split '"' o.text = o.opening.text '\x7b' :: pieces o.closing o.members := by
  cases hms : o.members with
  | nil => exact Or.inl rfl
  | cons m ms =>
    apply Or.inr
    unfold Flat.text
    rw [hms]
    exact split_written (not_mem_text (by decide)) o.closing m ms

theorem jsonString_name (o : Flat) {key : String} (h : Name key) :
    (jsonString o.text key = lookup key o.members ∧ Undisturbed key o.members) ∨
    (jsonString o.text key = none ∧ lookup key o.members ≠ none ∧ ¬Undisturbed key o.members) := by
  have hkey : Str.split '"' key = [key.toList] := List.splitOn_eq_singleton h.quote
  rw [jsonString_eq, hkey]
  obtain hnil | hsplit := split_text o
  · have hsplit : Str.split '"' o.text = [o.text] := by
      apply List.splitOn_eq_singleton
      unfold Flat.text
      rw [hnil]
      intro hin
      exact (List.mem_append.mp hin).elim (not_mem_text (by decide)) (not_mem_text (by decide))
    rw [hsplit, hnil]
    exact seek_name h o.closing o.text []
  · rw [hsplit]
    exact seek_name h o.closing _ o.members

/-- The pieces behind the place where `"key"` first stands. -/
def Stands (o : Flat) (key : Str) (behind : List Str) : Prop :=
  seek (Str.split '"' key) (Str.split '"' o.text) = some behind

theorem valueOf_eq_some {behind : List Str} {v : Str} : valueOf behind = some v ↔
    ∃ gap value next more, behind = gap :: value :: next :: more ∧ IsColon gap ∧
      printable value.asBytes = v := by
  match behind with
  | [] => simp [valueOf]
  | [_] => simp [valueOf]
  | [_, _] => simp [valueOf]
  | gap :: value :: next :: more => simp [valueOf]

/-- What `json_string` returns for any key, of a member or not. -/
theorem jsonString_eq_some {o : Flat} {key : String} {v : Str} : jsonString o.text key = some v ↔
    ∃ gap value next more, Stands o key (gap :: value :: next :: more) ∧ IsColon gap ∧
      printable value.asBytes = v := by
  rw [jsonString_eq, Option.bind_eq_some_iff]
  constructor
  · intro h
    obtain ⟨behind, hstands, hvalue⟩ := h
    obtain ⟨gap, value, next, more, rfl, hread⟩ := valueOf_eq_some.mp hvalue
    exact ⟨gap, value, next, more, hstands, hread⟩
  · intro h
    obtain ⟨gap, value, next, more, hstands, hread⟩ := h
    exact ⟨_, hstands, valueOf_eq_some.mpr ⟨gap, value, next, more, rfl, hread⟩⟩

end Lookup

/-! ### Compact tokens -/

section Tokens

def base64urlOf (bytes : Bytes) : Str :=
  (Base64.encodeNopad bytes).map fun c => if c = '+' then '-' else if c = '/' then '_' else c

theorem letters_told : ∀ d : Fin 64,
    (let c := if Base64.letterOf d = '+' then '-' else if Base64.letterOf d = '/' then '_'
      else Base64.letterOf d
    c ≠ '.' ∧ (if c = '-' then '+' else if c = '_' then '/' else c) = Base64.letterOf d) := by
  decide +kernel

theorem base64url_of (bytes : Bytes) : base64url (base64urlOf bytes) = some bytes := by
  have hback : ((base64urlOf bytes).map fun c => if c = '-' then '+' else if c = '_' then '/' else c) =
      Base64.encodeNopad bytes := by
    unfold base64urlOf
    rw [List.map_map, Base64.encodeNopad_eq, List.map_map]
    apply List.map_congr_left
    intro d hd
    exact (letters_told ⟨d, Base64.digits_lt bytes d hd⟩).2
  have hunpadded : (Base64.encodeNopad bytes).rdropWhile (· = '=') = Base64.encodeNopad bytes :=
    List.rdropWhile_idempotent _ _
  unfold base64url
  dsimp only
  rw [hback, hunpadded, Base64.canonical_nopad.round]

theorem dot_not_mem (bytes : Bytes) : '.' ∉ base64urlOf bytes := by
  unfold base64urlOf
  rw [Base64.encodeNopad_eq, List.map_map]
  intro hin
  obtain ⟨d, hd, heq⟩ := List.mem_map.mp hin
  exact (letters_told ⟨d, Base64.digits_lt bytes d hd⟩).1 heq

structure Token where
  header : Flat
  parts : List Str
  count : parts.length = 2 ∨ parts.length = 4
  dotless : ∀ p ∈ parts, '.' ∉ p

def Token.text (t : Token) : Str := Str.join "." (base64urlOf t.header.text.asBytes :: t.parts)

def reported (parts : ℕ) (alg : Str) (enc kid : Option Str) : Finding :=
  let found :=
    if parts = 5 then
      ((Finding.new "JWE (JSON Web Encryption)").fact "key management" alg).fact "content"
        (enc.getD "unknown".toList)
    else if alg = "none".toList then
      (Finding.new "JWT/JWS").fact "algorithm" "none: not signed"
    else
      (Finding.new "JWT/JWS").fact "algorithm" alg
  Formats.member found "key id" kid

theorem jose_token (t : Token) : jose t.text =
    (jsonString t.header.text "alg").map fun alg => reported (t.parts.length + 1) alg
      (jsonString t.header.text "enc") (jsonString t.header.text "kid") := by
  have hsplit : Str.split '.' t.text = base64urlOf t.header.text.asBytes :: t.parts := by
    apply Str.splitOn_join (List.cons_ne_nil _ _)
    intro p hp
    obtain rfl | hp := List.mem_cons.mp hp
    · exact dot_not_mem _
    · exact t.dotless p hp
  have hcount : ¬(t.parts.length + 1 ≠ 3 ∧ t.parts.length + 1 ≠ 5) := by
    have htwo := t.count
    omega
  unfold jose
  rw [hsplit]
  dsimp only
  rw [List.length_cons, if_neg hcount]
  simp only [List.getElem?_cons_zero, Option.bind_eq_bind, Option.bind_some, base64url_of,
    Str.fromUtf8_asBytes]
  cases jsonString t.header.text "alg" <;> rfl

theorem reported_iff {parts : ℕ} {alg : Str} {enc enc' kid kid' : Option Str} :
    reported parts alg enc kid = reported parts alg enc' kid' ↔
      kid = kid' ∧ (parts = 5 → enc.getD "unknown".toList = enc'.getD "unknown".toList) := by
  constructor
  · intro h
    have hfacts := congrArg Finding.facts h
    unfold reported at hfacts
    by_cases hfive : parts = 5
    · simp only [if_pos hfive] at hfacts
      cases kid <;> cases kid' <;> simp_all [Formats.member, Finding.fact, Finding.new]
    · simp only [if_neg hfive] at hfacts
      apply And.intro _ fun hyes => absurd hyes hfive
      split_ifs at hfacts <;> cases kid <;> cases kid' <;>
        simp_all [Formats.member, Finding.fact, Finding.new]
  · intro h
    obtain ⟨rfl, henc⟩ := h
    unfold reported
    by_cases hfive : parts = 5
    · simp only [if_pos hfive, henc hfive]
    · simp only [if_neg hfive]

theorem name_alg : Name "alg" := ⟨by decide, by decide, by decide⟩

theorem name_enc : Name "enc" := ⟨by decide, by decide, by decide⟩

theorem name_kid : Name "kid" := ⟨by decide, by decide, by decide⟩

theorem jsonString_iff (o : Flat) {key : String} (h : Name key) :
    jsonString o.text key = lookup key o.members ↔ Undisturbed key o.members := by
  obtain ⟨hread, hclear⟩ | ⟨hnone, hsome, hhidden⟩ := jsonString_name o h
  · exact iff_of_true hread hclear
  · rw [hnone]
    exact iff_of_false (Ne.symm hsome) hhidden

theorem enc_iff (o : Flat) : (jsonString o.text "enc").getD "unknown".toList =
      (lookup "enc".toList o.members).getD "unknown".toList ↔
    Undisturbed "enc" o.members ∨ lookup "enc" o.members = some "unknown".toList := by
  obtain ⟨hread, hclear⟩ | ⟨hnone, hsome, hhidden⟩ := jsonString_name o name_enc
  · rw [hread]
    exact iff_of_true rfl (Or.inl hclear)
  · obtain ⟨enc, henc⟩ := Option.ne_none_iff_exists'.mp hsome
    rw [hnone, henc, Option.getD_none, Option.getD_some, Option.some_inj]
    constructor
    · intro h
      exact Or.inr h.symm
    · intro h
      exact (h.resolve_left hhidden).symm

theorem jose_iff (t : Token) {alg : Str} (h : lookup "alg" t.header.members = some alg) :
    jose t.text = some (reported (t.parts.length + 1) alg (lookup "enc" t.header.members)
        (lookup "kid" t.header.members)) ↔
      Undisturbed "alg" t.header.members ∧ Undisturbed "kid" t.header.members ∧
        (t.parts.length + 1 = 5 →
          Undisturbed "enc" t.header.members ∨ lookup "enc" t.header.members = some "unknown".toList) := by
  rw [jose_token]
  obtain ⟨hread, hclear⟩ | ⟨hnone, -, hhidden⟩ := jsonString_name t.header name_alg
  · rw [hread, h, Option.map_some, Option.some_inj, reported_iff, jsonString_iff t.header name_kid,
      enc_iff]
    exact (and_iff_right hclear).symm
  · rw [hnone, Option.map_none]
    exact iff_of_false (Option.some_ne_none _).symm fun hall => hhidden hall.1

/-- The lookups of a flat object. A name is read right if and only if no value before its member is
the name itself; any key, if and only if what first stands between the quotes as the key does is
followed by a colon and the value, or by neither where the key is no member; and a token is reported
with what its header has if and only if its three names are read right, or an unread `enc` is
`unknown`. -/
theorem json_string_reads (o : Flat) (key : String) :
    (Name key → (jsonString o.text key = lookup key o.members ↔ Undisturbed key o.members)) ∧
    (∀ v, lookup key o.members = some v → (jsonString o.text key = some v ↔
      ∃ gap value next more, Stands o key (gap :: value :: next :: more) ∧ IsColon gap ∧
        printable value.asBytes = v)) ∧
    (lookup key o.members = none → (jsonString o.text key = none ↔
      ∀ gap value next more, Stands o key (gap :: value :: next :: more) → ¬IsColon gap)) ∧
    ∀ (t : Token) (alg : Str), lookup "alg" t.header.members = some alg →
      (jose t.text = some (reported (t.parts.length + 1) alg (lookup "enc" t.header.members)
          (lookup "kid" t.header.members)) ↔
        Undisturbed "alg" t.header.members ∧ Undisturbed "kid" t.header.members ∧
          (t.parts.length + 1 = 5 →
            Undisturbed "enc" t.header.members ∨
              lookup "enc" t.header.members = some "unknown".toList)) := by
  apply And.intro (jsonString_iff o)
  apply And.intro
  · intro v _
    exact jsonString_eq_some
  apply And.intro
  · intro _
    rw [Option.eq_none_iff_forall_ne_some]
    constructor
    · intro hnone gap value next more hstands hcolon
      exact hnone _ (jsonString_eq_some.mpr ⟨gap, value, next, more, hstands, hcolon, rfl⟩)
    · intro hsilent v hsome
      obtain ⟨gap, value, next, more, hstands, hcolon, -⟩ := jsonString_eq_some.mp hsome
      exact hsilent gap value next more hstands hcolon
  · intro t alg halg
    exact jose_iff t halg

def tight : Gap := ⟨[], [], List.forall_mem_nil _, List.forall_mem_nil _⟩

def shadowed : Flat where
  opening := tight
  members := [
    ⟨"typ".toList, "alg".toList, tight, tight, by unfold Plain; decide, by unfold Plain; decide⟩,
    ⟨"alg".toList, "HS256".toList, tight, tight, by unfold Plain; decide, by unfold Plain; decide⟩]
  closing := tight
  distinct := by decide

def shadowedToken : Token where
  header := shadowed
  parts := ["e30".toList, "c2ln".toList]
  count := Or.inl rfl
  dotless := by decide

theorem shadowed_alg : lookup "alg" shadowed.members = some "HS256".toList ∧
    jsonString shadowed.text "alg" = none ∧ jose shadowedToken.text = none := by
  have hnone : jsonString shadowed.text "alg" = none := by decide
  apply And.intro (by decide)
  apply And.intro hnone
  rw [jose_token]
  exact congrArg (Option.map _) hnone

end Tokens

end Krypto.Inspect.Json
