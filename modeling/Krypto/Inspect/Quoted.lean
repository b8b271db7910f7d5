import Krypto.Inspect.Formats

/-! `json_string` by the pieces a text has between its quotes: where `"key"`
first stands, and what is then read as its value. -/

namespace Krypto.Inspect.Formats
open Effect

/-! ### Reading behind the key -/

section Behind

theorem stripPrefix_nil {pat : String} (h : pat.toList ≠ []) : Str.stripPrefix pat [] = none := by
  unfold Str.stripPrefix
  obtain ⟨a, rest, hpat⟩ := List.exists_cons_of_ne_nil h
  rw [hpat]
  rfl

theorem stripPrefix_one {pat : String} {a : Char} (h : pat.toList = [a]) (c : Char) (rest : Str) :
    Str.stripPrefix pat (c :: rest) = if c = a then some rest else none := by
  unfold Str.stripPrefix
  rw [h, List.isPrefixOf?]
  by_cases hc : c = a
  · rw [if_pos hc, if_pos (beq_iff_eq.mpr hc.symm)]
    rfl
  · rw [if_neg hc, if_neg fun heq => hc (beq_iff_eq.mp heq).symm]

theorem rdropWhile_cons {α : Type} {p : α → Bool} {a : α} (h : ¬p a) (l : List α) :
    (a :: l).rdropWhile p = a :: l.rdropWhile p := by
  induction l using List.reverseRecOn with
  | nil => rw [List.rdropWhile_singleton, if_neg h, List.rdropWhile_nil]
  | append_singleton l b ih =>
    rw [← List.cons_append, List.rdropWhile_concat, List.rdropWhile_concat, ih]
    split_ifs <;> rfl

def IsColon (gap : Str) : Prop := Str.trim gap = [':']

instance (gap : Str) : Decidable (IsColon gap) := inferInstanceAs (Decidable (_ = _))

theorem isColon_iff {gap : Str} : IsColon gap ↔
    ∃ more, Str.stripPrefix ":" (Str.trimStart gap) = some more ∧ Str.trimStart more = [] := by
  unfold IsColon Str.trim
  cases hgap : Str.trimStart gap with
  | nil =>
    rw [List.rdropWhile_nil, stripPrefix_nil (by decide)]
    exact iff_of_false (by decide) (by simp)
  | cons c rest =>
    have hblack : ¬Str.isWhitespace c := by
      have hhead := List.head?_dropWhile_not Str.isWhitespace gap
      unfold Str.trimStart at hgap
      rw [hgap] at hhead
      simpa using hhead
    rw [rdropWhile_cons hblack, stripPrefix_one (a := ':') rfl, List.cons.injEq,
      List.rdropWhile_eq_nil_iff]
    constructor
    · intro h
      rw [if_pos h.1]
      exact ⟨rest, rfl, List.dropWhile_eq_nil_iff.mpr h.2⟩
    · intro h
      obtain ⟨more, hmore, hblank⟩ := h
      split_ifs at hmore with hc
      obtain rfl := Option.some.inj hmore
      exact ⟨hc, List.dropWhile_eq_nil_iff.mp hblank⟩

def quoted (pieces : List Str) : Str := Str.join "\"" pieces

theorem quoted_cons (p : Str) {pieces : List Str} (h : pieces ≠ []) :
    quoted (p :: pieces) = p ++ '"' :: quoted pieces := by
  unfold quoted Str.join
  rw [List.intercalate_cons_of_ne_nil h]
  simp

theorem quoted_singleton (p : Str) : quoted [p] = p := by
  simp [quoted, Str.join]

theorem trimStart_quote (gap rest : Str) :
    Str.trimStart (gap ++ '"' :: rest) = Str.trimStart gap ++ '"' :: rest := by
  unfold Str.trimStart
  induction gap with
  | nil => rfl
  | cons c gap ih =>
    rw [List.cons_append, List.dropWhile_cons, List.dropWhile_cons, ih]
    split_ifs <;> rfl

theorem splitOnce_quote {piece : Str} (h : '"' ∉ piece) (rest : Str) :
    Str.splitOnce "\"" (piece ++ '"' :: rest) = some (piece, rest) ∧
      Str.splitOnce "\"" piece = none := by
  induction piece with
  | nil => exact ⟨rfl, rfl⟩
  | cons c piece ih =>
    obtain ⟨hc, hpiece⟩ := not_or.mp fun hin => h (List.mem_cons.mpr hin)
    obtain ⟨hmore, hnone⟩ := ih hpiece
    rw [List.cons_append, Str.splitOnce, Str.splitOnce, stripPrefix_one (a := '"') rfl,
      stripPrefix_one (a := '"') rfl, if_neg (Ne.symm hc), if_neg (Ne.symm hc), hmore, hnone]
    exact ⟨rfl, rfl⟩

theorem stripPrefix_quote {s : Str} (h : '"' ∉ s) : Str.stripPrefix "\"" s = none := by
  cases s with
  | nil => exact stripPrefix_nil (by decide)
  | cons c s =>
    obtain ⟨hc, -⟩ := not_or.mp fun hin => h (List.mem_cons.mpr hin)
    rw [stripPrefix_one (a := '"') rfl, if_neg (Ne.symm hc)]

def valueOf : List Str → Option Str
  | gap :: value :: _ :: _ => if IsColon gap then some (printable value.asBytes) else none
  | _ => none

def readValue (rest : Str) : Option Str := do
  let rest := Str.trimStart (← Str.stripPrefix ":" (Str.trimStart rest))
  let (value, _) ← Str.splitOnce "\"" (← Str.stripPrefix "\"" rest)
  some (printable value.asBytes)

theorem not_mem_trimStart {s : Str} (h : '"' ∉ s) : '"' ∉ Str.trimStart s :=
  fun hin => h ((List.dropWhile_sublist _).subset hin)

/-- Between the quotes, a colon is all that lets the reader on. -/
theorem readValue_gap {gap : Str} (h : '"' ∉ gap) (rest : Str) :
    readValue (gap ++ '"' :: rest) =
      if IsColon gap then (Str.splitOnce "\"" rest).map fun (value, _) => printable value.asBytes
      else none := by
  unfold readValue
  rw [trimStart_quote]
  have hcolon : IsColon gap ↔ _ := isColon_iff
  have hfree := not_mem_trimStart h
  cases hgap : Str.trimStart gap with
  | nil =>
    rw [hgap, stripPrefix_nil (by decide)] at hcolon
    rw [List.nil_append, stripPrefix_one (a := ':') rfl, if_neg (by decide), if_neg (by simp [hcolon])]
    rfl
  | cons c more =>
    rw [hgap, stripPrefix_one (a := ':') rfl] at hcolon
    rw [hgap] at hfree
    rw [List.cons_append, stripPrefix_one (a := ':') rfl]
    by_cases hc : c = ':'
    · rw [if_pos hc] at hcolon ⊢
      rw [Option.bind_eq_bind, Option.bind_some]
      dsimp only
      rw [trimStart_quote]
      -- a colon: only blanks may stand between it and the quote
      cases hmore : Str.trimStart more with
      | nil =>
        have hyes : IsColon gap := hcolon.mpr ⟨more, rfl, hmore⟩
        rw [List.nil_append, stripPrefix_one (a := '"') rfl, if_pos rfl, if_pos hyes,
          Option.bind_eq_bind, Option.bind_some, Option.map_eq_bind]
        rfl
      | cons d more' =>
        have hno : ¬IsColon gap := by
          intro hyes
          obtain ⟨_, hsome, hblank⟩ := hcolon.mp hyes
          obtain rfl := Option.some.inj hsome
          exact List.cons_ne_nil d more' (hmore.symm.trans hblank)
        have hd : d ≠ '"' := by
          intro heq
          have hin : '"' ∈ Str.trimStart more := by
            rw [hmore, heq]
            exact List.mem_cons_self ..
          exact not_mem_trimStart (fun h => hfree (List.mem_cons_of_mem c h)) hin
        rw [List.cons_append, stripPrefix_one (a := '"') rfl, if_neg hd, if_neg hno]
        rfl
    · rw [if_neg hc] at hcolon ⊢
      rw [if_neg (by simp [hcolon])]
      rfl

theorem readValue_end {gap : Str} (h : '"' ∉ gap) : readValue gap = none := by
  unfold readValue
  cases hstrip : Str.stripPrefix ":" (Str.trimStart gap) with
  | none => rfl
  | some more =>
    have hmore : '"' ∉ more := by
      intro hin
      apply not_mem_trimStart h
      rw [Str.eq_append_of_stripPrefix hstrip]
      exact List.mem_append_right _ hin
    rw [Option.bind_eq_bind, Option.bind_some]
    dsimp only
    rw [stripPrefix_quote (not_mem_trimStart hmore)]
    rfl

theorem readValue_quoted {pieces : List Str} (hne : pieces ≠ []) (h : ∀ p ∈ pieces, '"' ∉ p) :
    readValue (quoted pieces) = valueOf pieces := by
  match pieces, hne with
  | [gap], _ =>
    rw [quoted_singleton, readValue_end (h gap (List.mem_singleton_self gap))]
    rfl
  | [gap, value], _ =>
    have hvalue : '"' ∉ value := h value (by simp)
    rw [quoted_cons gap (by simp), readValue_gap (h gap (by simp)), quoted_singleton,
      (splitOnce_quote hvalue []).2]
    split_ifs <;> rfl
  | gap :: value :: behind :: more, _ =>
    have hvalue : '"' ∉ value := h value (by simp)
    rw [quoted_cons gap (by simp), readValue_gap (h gap (by simp)), quoted_cons value (by simp),
      (splitOnce_quote hvalue _).1]
    rfl

end Behind

/-! ### Where the key stands -/

section Place

/-- The pieces behind the first place where these stand, each ended by a quote. -/
def seek (ks : List Str) : List Str → Option (List Str)
  | [] => none
  | _ :: ps => if ks <+: ps ∧ ks.length < ps.length then some (ps.drop ks.length) else seek ks ps

theorem quoted_append {front behind : List Str} (hfront : front ≠ []) (hbehind : behind ≠ []) :
    quoted (front ++ behind) = quoted front ++ '"' :: quoted behind := by
  induction front with
  | nil => exact absurd rfl hfront
  | cons p front ih =>
    by_cases hnil : front = []
    · rw [hnil, List.cons_append, List.nil_append, quoted_cons p hbehind, quoted_singleton]
    · have hne : front ++ behind ≠ [] := List.append_ne_nil_of_left_ne_nil hnil behind
      rw [List.cons_append, quoted_cons p hne, quoted_cons p hnil, ih hnil, List.append_assoc]
      rfl

theorem split_ne_nil (s : Str) : Str.split '"' s ≠ [] := List.splitOn_ne_nil _ _

theorem split_cons (c : Char) (s : Str) : Str.split '"' (c :: s) =
    if c = '"' then [] :: Str.split '"' s else (Str.split '"' s).modifyHead (List.cons c) := by
  unfold Str.split
  rw [List.splitOn_cons_eq_if_modifyHead]
  simp only [beq_iff_eq]

theorem not_mem_split {s p : Str} (h : p ∈ Str.split '"' s) : '"' ∉ p := by
  induction s generalizing p with
  | nil =>
    obtain rfl : p = [] := List.mem_singleton.mp h
    exact List.not_mem_nil
  | cons c s ih =>
    rw [split_cons] at h
    split_ifs at h with hc
    · obtain rfl | h := List.mem_cons.mp h
      · exact List.not_mem_nil
      · exact ih h
    · obtain ⟨q, qs, hqs⟩ := List.exists_cons_of_ne_nil (split_ne_nil s)
      rw [hqs, List.modifyHead_cons] at h
      rw [hqs] at ih
      obtain rfl | h := List.mem_cons.mp h
      · intro hin
        obtain heq | hin := List.mem_cons.mp hin
        · exact hc heq.symm
        · exact ih (List.mem_cons_self ..) hin
      · exact ih (List.mem_cons_of_mem q h)

theorem quoted_split (s : Str) : quoted (Str.split '"' s) = s := List.intercalate_splitOn '"'

/-- Behind a quote, the key stands exactly when its pieces come next and a quote ends the last. -/
theorem isPrefixOf_key {key s rest : Str} : (key ++ ['"']).isPrefixOf? s = some rest ↔
    Str.split '"' s = Str.split '"' key ++ Str.split '"' rest := by
  rw [List.isPrefixOf?_eq_some_iff_append_eq]
  constructor
  · intro h
    rw [← h, List.append_assoc]
    exact List.splitOn_append_cons_self key rest
  · intro h
    rw [← quoted_split s, h, quoted_append (split_ne_nil key) (split_ne_nil rest),
      quoted_split, quoted_split, List.append_assoc]
    rfl

theorem seek_here {key s rest : Str} (h : (key ++ ['"']).isPrefixOf? s = some rest) (p : Str) :
    seek (Str.split '"' key) (p :: Str.split '"' s) = some (Str.split '"' rest) := by
  have hrest : 0 < (Str.split '"' rest).length := List.length_pos_iff.mpr (split_ne_nil rest)
  rw [seek, isPrefixOf_key.mp h, List.length_append, List.drop_left,
    if_pos ⟨List.prefix_append _ _, Nat.lt_add_of_pos_right hrest⟩]

theorem seek_further {key s : Str} (h : (key ++ ['"']).isPrefixOf? s = none) (p : Str) :
    seek (Str.split '"' key) (p :: Str.split '"' s) = seek (Str.split '"' key) (Str.split '"' s) := by
  rw [seek, if_neg]
  intro hhere
  obtain ⟨⟨behind, hbehind⟩, hlt⟩ := hhere
  have hne : behind ≠ [] := by
    intro hnil
    rw [← hbehind, hnil, List.append_nil] at hlt
    exact Nat.lt_irrefl _ hlt
  have htext : s = key ++ '"' :: quoted behind := by
    rw [← quoted_split s, ← hbehind, quoted_append (split_ne_nil key) hne, quoted_split]
  have hsome : (key ++ ['"']).isPrefixOf? s = some (quoted behind) :=
    isPrefixOf_key.mpr (htext ▸ List.splitOn_append_cons_self key (quoted behind))
  exact Option.some_ne_none _ (hsome.symm.trans h)

theorem seek_modifyHead (ks ps : List Str) (f : Str → Str) :
    seek ks (ps.modifyHead f) = seek ks ps := by
  cases ps <;> rfl

theorem splitOnce_seek (key : String) (text : Str) :
    (Str.splitOnce ("\"" ++ key ++ "\"") text).map (fun found => Str.split '"' found.2) =
      seek (Str.split '"' key) (Str.split '"' text) := by
  have hpattern : ("\"" ++ key ++ "\"").toList = '"' :: (key.toList ++ ['"']) := by simp
  induction text with
  | nil =>
    rw [Str.splitOnce, stripPrefix_nil (by simp [hpattern])]
    have hkey : ¬Str.split '"' key <+: [] :=
      fun h => split_ne_nil key (List.prefix_nil.mp h)
    have hsplit : Str.split '"' [] = [[]] := rfl
    rw [hsplit, seek, if_neg fun h => hkey h.1]
    rfl
  | cons c s ih =>
    have hstrip : Str.stripPrefix ("\"" ++ key ++ "\"") (c :: s) =
        if c = '"' then (key.toList ++ ['"']).isPrefixOf? s else none := by
      unfold Str.stripPrefix
      rw [hpattern, List.isPrefixOf?]
      simp only [beq_iff_eq, eq_comm (a := c)]
    rw [Str.splitOnce, hstrip, split_cons]
    by_cases hc : c = '"'
    · rw [if_pos hc, if_pos hc]
      cases hhere : (key.toList ++ ['"']).isPrefixOf? s with
      | some rest => exact (seek_here hhere []).symm
      | none =>
        rw [seek_further hhere, ← ih]
        dsimp only
        rw [Option.map_map]
        rfl
    · rw [if_neg hc, if_neg hc, seek_modifyHead, ← ih]
      dsimp only
      rw [Option.map_map]
      rfl

/-- `json_string` finds the key among the pieces, and reads what stands behind. -/
theorem jsonString_eq (text : Str) (key : String) : jsonString text key =
    (seek (Str.split '"' key) (Str.split '"' text)).bind valueOf := by
  have hread : ∀ rest, readValue rest = valueOf (Str.split '"' rest) := by
    intro rest
    have hvalue := readValue_quoted (split_ne_nil rest) fun p hp => not_mem_split hp
    rwa [quoted_split] at hvalue
  rw [← splitOnce_seek]
  unfold jsonString
  cases Str.splitOnce ("\"" ++ key ++ "\"") text with
  | none => rfl
  | some found => exact hread found.2

end Place

end Krypto.Inspect.Formats
