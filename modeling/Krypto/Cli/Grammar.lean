import Krypto.Cli

/-! The language of the command line, and what a refusal shows of the arguments. -/

namespace Krypto.Cli
open Effect

def spell (flags : List (String × String)) : List String := flags.flatMap fun e => [e.1, e.2]

@[simp] theorem spell_nil : spell [] = [] := rfl

@[simp] theorem spell_cons (e : String × String) (flags : List (String × String)) :
    spell (e :: flags) = e.1 :: e.2 :: spell flags := rfl

structure Calls (argv : List String) (args : Args) : Prop where
  command : args.command ∈ COMMANDS
  whole : argv = args.command :: spell args.flags
  distinct : (args.flags.map Prod.fst).Nodup
  allowed : ∀ e ∈ args.flags, e.1 ∈ flagsOf args.command
  noHelp : ∀ a ∈ argv, isHelp a = false
  help : args.help = false

def AsksHelp : List String → Prop
  | [] => False
  | command :: rest => isHelp command ∨ command ∈ COMMANDS ∧ ∃ a ∈ rest, isHelp a

/-- An argument that is none of the words a call of `command` is made of. -/
structure Stray (command a : String) : Prop where
  notCommand : a ∉ COMMANDS
  flag : a ∉ flagsOf command
  help : isHelp a = false

/-- The arguments of `argv'` are those of `argv`, but for strays in the place of strays. -/
def Retyped (argv argv' : List String) : Prop :=
  List.Forall₂ (fun a b => a = b ∨ Stray (argv.headD "") a ∧ Stray (argv.headD "") b) argv argv'

/-! ## What is accepted -/

/-- The loop takes pairs of flags that are new and the command's. -/
theorem parseFlags_eq_ok {command : String} {position : Nat} {flags all : List (String × String)}
    {rest : List String} (hnodup : (flags.map Prod.fst).Nodup) :
    parseFlags command position flags rest = .ok all ↔
      ∃ pairs, all = flags ++ pairs ∧ rest = spell pairs ∧ (∀ e ∈ pairs, e.1 ∈ flagsOf command) ∧
        (all.map Prod.fst).Nodup := by
  -- along the loop: a turn takes two arguments, and `flags` grows by the pair
  induction position, flags, rest using parseFlags.induct command with
  | case1 position flags =>
    rw [parseFlags, Outcome.ok.injEq]
    constructor
    · rintro rfl
      exact ⟨[], (List.append_nil _).symm, rfl, fun e he => absurd he List.not_mem_nil, hnodup⟩
    · rintro ⟨pairs, rfl, hrest, -⟩
      cases pairs with
      | nil => exact (List.append_nil _).symm
      | cons e pairs => cases hrest
  | case2 position flags flag rest hnot =>
    rw [parseFlags.eq_def]
    simp only [if_pos hnot]
    constructor
    · intro h
      cases h
    · rintro ⟨pairs, -, hrest, hallowed, -⟩
      cases pairs with
      | nil => cases hrest
      | cons e pairs =>
        rw [spell_cons, List.cons.injEq] at hrest
        exact absurd (hrest.1 ▸ hallowed e (List.mem_cons_self ..)) hnot
  | case3 position flags flag hin =>
    rw [parseFlags.eq_def]
    simp only [if_neg hin]
    constructor
    · intro h
      cases h
    · rintro ⟨pairs, -, hrest, -⟩
      cases pairs with
      | nil => cases hrest
      | cons e pairs => cases hrest
  | case4 position flags flag hin value rest htwice =>
    rw [parseFlags.eq_def]
    simp only [if_neg hin, if_pos htwice]
    constructor
    · intro h
      cases h
    · rintro ⟨pairs, rfl, hrest, -, hall⟩
      cases pairs with
      | nil => cases hrest
      | cons e pairs =>
        rw [spell_cons, List.cons.injEq] at hrest
        obtain ⟨d, hd, heq⟩ := List.any_eq_true.mp htwice
        rw [List.map_append, List.nodup_append] at hall
        have hsame : d.1 = e.1 := (of_decide_eq_true heq).trans hrest.1
        exact absurd hsame (hall.2.2 d.1 (List.mem_map_of_mem hd) e.1 (List.mem_cons_self ..))
  | case5 position flags flag hin value rest htwice ih =>
    rw [parseFlags.eq_def]
    simp only [if_neg hin, if_neg htwice]
    -- the pair is new, so the names stay different
    have hnew : ((flags ++ [(flag, value)]).map Prod.fst).Nodup := by
      rw [List.map_append, List.nodup_append]
      refine ⟨hnodup, List.nodup_singleton _, fun a ha b hb hab => ?_⟩
      obtain ⟨d, hd, rfl⟩ := List.mem_map.mp ha
      rw [List.mem_singleton.mp hb] at hab
      exact htwice (List.any_eq_true.mpr ⟨d, hd, decide_eq_true hab⟩)
    rw [ih hnew]
    constructor
    · rintro ⟨pairs, rfl, rfl, hallowed, hall⟩
      refine ⟨(flag, value) :: pairs, List.append_assoc .., rfl, fun e he => ?_, hall⟩
      rcases List.mem_cons.mp he with rfl | he
      · exact not_not.mp hin
      · exact hallowed e he
    · rintro ⟨pairs, rfl, hrest, hallowed, hall⟩
      cases pairs with
      | nil => cases hrest
      | cons e pairs =>
        rw [spell_cons, List.cons.injEq, List.cons.injEq] at hrest
        obtain ⟨rfl, rfl, rfl⟩ := hrest
        exact ⟨pairs, (List.append_assoc flags [e] pairs).symm, rfl,
          fun d hd => hallowed d (List.mem_cons_of_mem _ hd), hall⟩

theorem parseFlags_whole {command : String} {rest : List String} {flags : List (String × String)} :
    parseFlags command 1 [] rest = .ok flags ↔ rest = spell flags ∧
      (∀ e ∈ flags, e.1 ∈ flagsOf command) ∧ (flags.map Prod.fst).Nodup := by
  have hnil : (([] : List (String × String)).map Prod.fst).Nodup := List.nodup_nil
  rw [parseFlags_eq_ok hnil]
  constructor
  · rintro ⟨pairs, rfl, h⟩
    exact h
  · exact fun h => ⟨flags, rfl, h⟩

theorem parseFlags_ends (command : String) (position : Nat) (flags : List (String × String))
    (rest : List String) : (∃ all, parseFlags command position flags rest = .ok all) ∨
      ∃ fail, parseFlags command position flags rest = .err fail ∧ fail.code = 2 := by
  induction position, flags, rest using parseFlags.induct command with
  | case1 position flags => exact .inl ⟨flags, rfl⟩
  | case2 position flags flag rest hnot =>
    rw [parseFlags.eq_def]
    simp only [if_pos hnot]
    exact .inr ⟨_, rfl, rfl⟩
  | case3 position flags flag hin =>
    rw [parseFlags.eq_def]
    simp only [if_neg hin]
    exact .inr ⟨_, rfl, rfl⟩
  | case4 position flags flag hin value rest htwice =>
    rw [parseFlags.eq_def]
    simp only [if_neg hin, if_pos htwice]
    exact .inr ⟨_, rfl, rfl⟩
  | case5 position flags flag hin value rest htwice ih =>
    rw [parseFlags.eq_def]
    simp only [if_neg hin, if_neg htwice]
    exact ih

theorem isHelp_of_command {command : String} (h : command ∈ COMMANDS) : isHelp command = false := by
  have hall : ∀ c ∈ COMMANDS, isHelp c = false := by decide
  exact hall command h

theorem parse_command {command : String} {rest : List String} (hcommand : command ∈ COMMANDS)
    (hrest : ∀ a ∈ rest, isHelp a = false) : parse (command :: rest) = (do
      let flags ← parseFlags command 1 [] rest
      .ok { command, flags, help := false }) := by
  have hany : ¬rest.any isHelp := by
    rw [List.any_eq_true]
    rintro ⟨a, ha, hhelp⟩
    rw [hrest a ha] at hhelp
    cases hhelp
  have hfirst : ¬isHelp command := by
    rw [isHelp_of_command hcommand]
    decide
  rw [parse, if_neg hfirst, if_neg (not_not.mpr hcommand), if_neg hany]

theorem parse_calls {argv : List String} {args : Args} :
    (parse argv = .ok args ∧ args.help = false) ↔ Calls argv args := by
  constructor
  · rintro ⟨hparse, hhelp⟩
    cases argv with
    | nil => cases hparse
    | cons command rest =>
      rw [parse] at hparse
      split_ifs at hparse with hfirst hcommand hany
      · cases hparse
        cases hhelp
      · cases hparse
        cases hhelp
      · obtain ⟨flags, hflags, hargs⟩ := Outcome.bind_eq_ok.mp hparse
        cases hargs
        obtain ⟨rfl, hallowed, hall⟩ := parseFlags_whole.mp hflags
        refine ⟨hcommand, rfl, hall, hallowed, fun a ha => Bool.eq_false_iff.mpr fun h => ?_, rfl⟩
        rcases List.mem_cons.mp ha with rfl | ha
        · exact hfirst h
        · exact hany (List.any_eq_true.mpr ⟨a, ha, h⟩)
  · intro h
    obtain ⟨command, flags, help⟩ := args
    obtain rfl := h.whole
    obtain rfl : help = false := h.help
    refine ⟨?_, rfl⟩
    rw [parse_command h.command fun a ha => h.noHelp a (List.mem_cons_of_mem _ ha)]
    have hflags : parseFlags command 1 [] (spell flags) = .ok flags :=
      parseFlags_whole.mpr ⟨rfl, h.allowed, h.distinct⟩
    rw [hflags]
    rfl

theorem parse_help {argv : List String} :
    (∃ args, parse argv = .ok args ∧ args.help = true) ↔ AsksHelp argv := by
  cases argv with
  | nil =>
    constructor
    · rintro ⟨args, hparse, -⟩
      cases hparse
    · exact fun h => h.elim
  | cons command rest =>
    rw [parse, AsksHelp, ← List.any_eq_true]
    split_ifs with hfirst hcommand hany
    · exact ⟨fun _ => .inl hfirst, fun _ => ⟨_, rfl, rfl⟩⟩
    · exact ⟨fun _ => .inr ⟨hcommand, hany⟩, fun _ => ⟨_, rfl, rfl⟩⟩
    · constructor
      · rintro ⟨args, hparse, hhelp⟩
        obtain ⟨flags, -, hargs⟩ := Outcome.bind_eq_ok.mp hparse
        cases hargs
        cases hhelp
      · rintro (h | ⟨-, h⟩)
        · exact absurd h hfirst
        · exact absurd h hany
    · constructor
      · rintro ⟨args, hparse, -⟩
        cases hparse
      · rintro (h | ⟨h, -⟩)
        · exact absurd h hfirst
        · exact absurd h hcommand

theorem command_of_help {argv : List String} {args : Args} (h : parse argv = .ok args)
    (hfirst : ¬isHelp args.command) : args.command ∈ COMMANDS := by
  cases argv with
  | nil => cases h
  | cons command rest =>
    rw [parse] at h
    split_ifs at h with hhelp hcommand hany
    · cases h
      exact absurd hhelp hfirst
    · cases h
      exact hcommand
    · obtain ⟨flags, -, hargs⟩ := Outcome.bind_eq_ok.mp h
      cases hargs
      exact hcommand

theorem parse_ends (argv : List String) :
    (∃ args, parse argv = .ok args) ∨ ∃ fail, parse argv = .err fail ∧ fail.code = 2 := by
  cases argv with
  | nil => exact .inr ⟨_, rfl, rfl⟩
  | cons command rest =>
    rw [parse]
    split_ifs
    · exact .inl ⟨_, rfl⟩
    · exact .inl ⟨_, rfl⟩
    · rcases parseFlags_ends command 1 [] rest with ⟨all, h⟩ | ⟨fail, h, hcode⟩
      · rw [h]
        exact .inl ⟨_, rfl⟩
      · rw [h]
        exact .inr ⟨fail, rfl, hcode⟩
    · exact .inr ⟨_, rfl, rfl⟩

/-! ## What a refusal shows -/

theorem any_isHelp_retyped {command : String} {rest rest' : List String}
    (h : List.Forall₂ (fun a b => a = b ∨ Stray command a ∧ Stray command b) rest rest') :
    rest.any isHelp = rest'.any isHelp := by
  induction h with
  | nil => rfl
  | cons hab _ ih =>
    rw [List.any_cons, List.any_cons, ih]
    rcases hab with rfl | ⟨ha, hb⟩
    · rfl
    · rw [ha.help, hb.help]

/-- The loop sees of a stray only where it stands. -/
theorem parseFlags_retyped {command : String} {position : Nat}
    {flags flags' : List (String × String)} {rest rest' : List String} {fail : Fail}
    (hrest : List.Forall₂ (fun a b => a = b ∨ Stray command a ∧ Stray command b) rest rest')
    (hflags : flags.map Prod.fst = flags'.map Prod.fst)
    (h : parseFlags command position flags rest = .err fail) :
    parseFlags command position flags' rest' = .err fail := by
  -- only the names of the flags are looked at, not their values
  have htwice_eq (flag : String) (flags flags' : List (String × String))
      (hflags : flags.map Prod.fst = flags'.map Prod.fst) :
      (flags.any fun e => e.1 = flag) = flags'.any fun e => e.1 = flag := by
    have hany (l : List (String × String)) :
        (l.any fun e => e.1 = flag) = (l.map Prod.fst).any fun name => name = flag := by
      rw [List.any_map]
      rfl
    rw [hany, hany, hflags]
  -- the two loops go in step until the first one fails
  induction position, flags, rest using parseFlags.induct command generalizing flags' rest' with
  | case1 position flags => cases h
  | case2 position flags flag rest hnot =>
    cases hrest with
    | cons hab _ =>
      rw [parseFlags.eq_def] at h ⊢
      simp only [if_pos hnot] at h
      rcases hab with rfl | ⟨-, hb⟩
      · simp only [if_pos hnot]
        exact h
      · simp only [if_pos hb.flag]
        exact h
  | case3 position flags flag hin =>
    cases hrest with
    | cons hab hnil =>
      cases hnil
      rcases hab with rfl | ⟨ha, -⟩
      · rw [parseFlags.eq_def] at h ⊢
        simp only [if_neg hin] at h ⊢
        exact h
      · exact absurd ha.flag hin
  | case4 position flags flag hin value rest htwice =>
    cases hrest with
    | cons hab htail =>
      cases htail with
      | cons _ _ =>
        rcases hab with rfl | ⟨ha, -⟩
        · rw [parseFlags.eq_def] at h ⊢
          simp only [if_neg hin, if_pos htwice] at h
          rw [htwice_eq _ _ _ hflags] at htwice
          simp only [if_neg hin, if_pos htwice]
          exact h
        · exact absurd ha.flag hin
  | case5 position flags flag hin value rest htwice ih =>
    cases hrest with
    | cons hab htail =>
      cases htail with
      | cons _ htail =>
        rcases hab with rfl | ⟨ha, -⟩
        · rw [parseFlags.eq_def] at h ⊢
          simp only [if_neg hin, if_neg htwice] at h
          rw [htwice_eq _ _ _ hflags] at htwice
          simp only [if_neg hin, if_neg htwice]
          apply ih htail _ h
          rw [List.map_append, List.map_append, hflags]
          rfl
        · exact absurd ha.flag hin

theorem parse_retyped {argv argv' : List String} {fail : Fail} (hretyped : Retyped argv argv')
    (h : parse argv = .err fail) : parse argv' = .err fail := by
  unfold Retyped at hretyped
  cases hretyped with
  | nil => exact h
  | @cons command command' rest rest' hfirst hrest =>
    rw [List.headD_cons] at hfirst hrest
    rcases hfirst with rfl | ⟨hstray, hstray'⟩
    · rw [parse] at h ⊢
      rw [← any_isHelp_retyped hrest]
      split_ifs at h ⊢ with hhelp hcommand hany
      · cases hflags : parseFlags command 1 [] rest with
        | ok flags =>
          rw [hflags] at h
          cases h
        | err fail' =>
          rw [hflags] at h
          rw [parseFlags_retyped hrest rfl hflags]
          exact h
        | panic =>
          rw [hflags] at h
          cases h
      · exact h
    · have hfails {c : String} {l : List String} (hc : Stray command c) : parse (c :: l) = .err
          (.usage ("argument 1 is not a command; the commands are " ++
            String.intercalate ", " COMMANDS ++ " (see --help)")) := by
        have hhelp : ¬isHelp c := Bool.eq_false_iff.mp hc.help
        rw [parse, if_neg hhelp, if_pos hc.notCommand]
      rw [hfails hstray] at h
      rw [hfails hstray']
      exact h

/-! ## The arms that are said to be unreachable -/

section Arms
variable {α β : Type} {T : Tools}

theorem bind_ne_panic {p : Step α} {f : α → Step β} (hp : p ≠ lift .panic)
    (hf : ∀ a, p = pure a → f a ≠ lift .panic) : (p >>= f) ≠ lift .panic := by
  intro h
  cases p with
  | call op next => cases h
  | done r =>
    cases r with
    | ok a => exact hf a rfl h
    | err e => cases h
    | panic => exact hp rfl

theorem lift_ne_panic {r : Outcome Fail α} (h : r ≠ .panic) : lift r ≠ lift .panic := by
  intro hlift
  cases hlift
  exact h rfl

theorem line_ne_panic (text : Str) : line text ≠ lift .panic := fun h => nomatch h

theorem readStdin_bind_ne_panic (f : Bytes → Step α) : (readStdin >>= f) ≠ lift .panic :=
  fun h => nomatch h

theorem need_ne_panic (args : Args) (flag : String) : args.need flag ≠ .panic := by
  unfold Args.need
  cases args.get flag with
  | none => exact fun h => nomatch h
  | some value => exact fun h => nomatch h

theorem master_bind_ne_panic (args : Args) (f : MasterKey → Step α) :
    (master args >>= f) ≠ lift .panic := by
  unfold master
  cases hneed : args.need "--key-file" with
  | ok path => exact fun h => nomatch h
  | err e => exact fun h => nomatch h
  | panic => exact absurd hneed (need_ne_panic args _)

theorem aead_ne_panic (args : Args) : aead T args ≠ lift .panic := by
  unfold aead
  apply bind_ne_panic
  · apply lift_ne_panic
    unfold algOf
    split
    all_goals exact fun h => nomatch h
  · intro alg _
    exact master_bind_ne_panic args _

theorem hexArg_ne_panic (args : Args) (flag : String) : hexArg args flag ≠ .panic := by
  unfold hexArg
  cases hneed : args.need flag with
  | err e => exact fun h => nomatch h
  | panic => exact absurd hneed (need_ne_panic args _)
  | ok value =>
    rw [Outcome.ok_bind]
    have hdecode := Hex.decode_ne_panic value.toList
    cases hvalue : Hex.decode value.toList with
    | ok bytes => exact fun h => nomatch h
    | err e => exact fun h => nomatch h
    | panic => exact absurd hvalue hdecode

theorem verify_ne_panic (args : Args) : verify T args ≠ lift .panic := by
  unfold verify
  apply bind_ne_panic (lift_ne_panic (need_ne_panic args _))
  intro alg _
  have hchecked (check : Bytes → Bytes → Bytes → Outcome Error Unit) : (do
      let publicKey ← lift (hexArg args "--public")
      let signature ← lift (hexArg args "--signature")
      let message ← readStdin
      mapErr .fromArgs (Krypto.lift (check publicKey message signature))
      line "the signature holds".toList) ≠ lift .panic := by
    apply bind_ne_panic (lift_ne_panic (hexArg_ne_panic args _))
    intro publicKey _
    apply bind_ne_panic (lift_ne_panic (hexArg_ne_panic args _))
    intro signature _
    exact readStdin_bind_ne_panic _
  dsimp only
  split
  · exact hchecked _
  · exact hchecked _
  · intro h
    cases h

theorem bench_ne_panic : bench T ≠ lift .panic := by
  unfold bench
  intro h
  cases h

theorem command_ne_panic {args : Args} (hcommand : args.command ∈ COMMANDS) :
    command T args ≠ lift .panic := by
  unfold command
  split
  · exact line_ne_panic _
  · exact readStdin_bind_ne_panic _
  · exact master_bind_ne_panic args _
  · exact aead_ne_panic args
  · exact aead_ne_panic args
  · exact aead_ne_panic args
  · exact readStdin_bind_ne_panic _
  · exact verify_ne_panic args
  · exact bench_ne_panic
  next h1 h2 h3 h4 h5 h6 h7 h8 h9 =>
    simp only [COMMANDS, List.mem_cons, List.not_mem_nil, or_false] at hcommand
    tauto

theorem helpOf_ok {command : String} (h : command ∈ COMMANDS) : ∃ text, helpOf command = .ok text := by
  simp only [COMMANDS, List.mem_cons, List.not_mem_nil, or_false] at h
  rcases h with rfl | rfl | rfl | rfl | rfl | rfl | rfl | rfl | rfl
  all_goals exact ⟨_, rfl⟩

/-- No call comes to the arm that is said to be unreachable. -/
theorem run_ne_panic (argv : List String) : run T argv ≠ lift .panic := by
  rcases parse_ends argv with ⟨args, hparse⟩ | ⟨fail, hparse, -⟩
  · rw [run_of_parse T hparse]
    cases hhelp : args.help with
    | false => exact command_ne_panic (parse_calls.mp ⟨hparse, hhelp⟩).command
    | true =>
      rw [if_pos rfl]
      split_ifs with hfirst
      · exact line_ne_panic _
      · obtain ⟨text, htext⟩ := helpOf_ok (command_of_help hparse hfirst)
        rw [htext]
        exact line_ne_panic _
  · rw [run, hparse]
    intro h
    cases h

end Arms

/-- `parse` takes the calls of the grammar and no others, and repeats no stray argument. -/
theorem parse_exact (T : Tools) :
    (∀ argv args, (parse argv = .ok args ∧ args.help = false) ↔ Calls argv args) ∧
    (∀ argv, run T argv ≠ lift .panic) ∧
    (∀ argv, (∃ args, parse argv = .ok args ∧ args.help = true) ↔ AsksHelp argv) ∧
    (∀ argv, (∀ args, ¬Calls argv args) → ¬AsksHelp argv →
      ∃ fail, parse argv = .err fail ∧ fail.code = 2) ∧
    ∀ argv argv' fail, Retyped argv argv' → parse argv = .err fail → parse argv' = .err fail := by
  refine ⟨fun _ _ => parse_calls, run_ne_panic, fun _ => parse_help, ?_,
    fun _ _ _ => parse_retyped⟩
  intro argv hcalls hhelp
  rcases parse_ends argv with ⟨args, hparse⟩ | h
  · cases hargs : args.help with
    | false => exact absurd (parse_calls.mp ⟨hparse, hargs⟩) (hcalls args)
    | true => exact absurd (parse_help.mp ⟨args, hparse, hargs⟩) hhelp
  · exact h

end Krypto.Cli
