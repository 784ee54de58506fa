import JsonSelect.CommandLine
import JsonSelect.Proofs.StrictSwitch

/-!
# Strictness on the command line

The parser of the program has a switch for strictness (`parseArguments_hasStrictSwitch`).  The
arguments with the switch and those without it are read side by side.  Up to the place of the switch
the readings are the same, and from there on they have sorted the same arguments apart from the
switch (`SortedArguments.Drops`).  Only when the first one finds misuse, the second one may go its
own way (`Follows`).
-/

namespace JsonSelect

/-! ### Two readings side by side -/

/-- How a reading without the switch follows one with it: to a related result or to the same
information, and anywhere behind misuse. -/
inductive Follows {α : Type} (R : α → α → Prop) :
    Except Interruption α → Except Interruption α → Prop where
  | misuse {other : Except Interruption α} : Follows R (.error .misuse) other
  | information {text : String} :
    Follows R (.error (.information text)) (.error (.information text))
  | ok {result other : α} (h : R result other) : Follows R (.ok result) (.ok other)

namespace Follows

variable {α β : Type} {R : α → α → Prop} {S : β → β → Prop}

/-- An interruption is followed by the same one. -/
theorem error (interruption : Interruption) :
    Follows R (.error interruption) (.error interruption) := by
  cases interruption with
  | information text => exact information
  | misuse => exact misuse

/-- Steps that follow one another are put together. -/
theorem bind {first second : Except Interruption α} {f g : α → Except Interruption β}
    (h : Follows R first second)
    (hstep : ∀ {result other}, R result other → Follows S (f result) (g other)) :
    Follows S (first >>= f) (second >>= g) := by
  cases h with
  | misuse => exact misuse
  | information => exact information
  | ok hresult => exact hstep hresult

/-- What comes before the switch is the same in both readings. -/
theorem bind_same {first : Except Interruption α} {f g : α → Except Interruption β}
    (hstep : ∀ result, first = .ok result → Follows S (f result) (g result)) :
    Follows S (first >>= f) (first >>= g) := by
  cases first with
  | error interruption => exact error interruption
  | ok result => exact hstep result rfl

/-- A result is followed by a related one. -/
theorem exists_eq_ok {result : α} {second : Except Interruption α}
    (h : Follows R (.ok result) second) : ∃ other, second = .ok other ∧ R result other := by
  cases h with
  | ok hother => exact ⟨_, rfl, hother⟩

/-- Information is followed by the same information. -/
theorem eq_information {text : String} {second : Except Interruption α}
    (h : Follows R (.error (.information text)) second) :
    second = .error (.information text) := by
  cases h
  rfl

/-- Nothing but misuse is followed by misuse. -/
theorem eq_misuse {first : Except Interruption α} (h : Follows R first (.error .misuse)) :
    first = .error .misuse := by
  cases h
  rfl

end Follows

/-! ### Options without the switch -/

/-- Options without the switch for strictness. -/
def lenientOptions (given : List (String × String)) : List (String × String) :=
  given.filter fun setting => setting.1 != "strict"

/-- Only the switch is left out. -/
theorem lenientOptions_cons {option : String} (h : option ≠ "strict") (value : String)
    (given : List (String × String)) :
    lenientOptions ((option, value) :: given) = (option, value) :: lenientOptions given :=
  List.filter_cons_of_pos (bne_iff_ne.mpr h)

/-- Other options are looked up as before. -/
theorem lookup_lenientOptions {option : String} (h : option ≠ "strict")
    (given : List (String × String)) :
    (lenientOptions given).lookup option = given.lookup option := by
  induction given with
  | nil => rfl
  | cons setting rest ih =>
    obtain ⟨name, value⟩ := setting
    by_cases hname : name = "strict"
    · rw [hname, List.lookup_cons, beq_eq_false_iff_ne.mpr h]
      exact ih
    · rw [lenientOptions_cons hname, List.lookup_cons, List.lookup_cons, ih]

/-- The switch itself is gone. -/
theorem lookup_strict_lenientOptions (given : List (String × String)) :
    (lenientOptions given).lookup "strict" = none := by
  rw [List.lookup_eq_none_iff]
  intro setting hsetting
  exact bne_iff_ne.mpr (bne_iff_ne.mp (List.mem_filter.mp hsetting).2).symm

/-- Options among which the switch is not stay as they are. -/
theorem lenientOptions_of_lookup_eq_none {given : List (String × String)}
    (h : given.lookup "strict" = none) : lenientOptions given = given := by
  rw [lenientOptions, List.filter_eq_self]
  intro setting hsetting
  exact bne_iff_ne.mpr (bne_iff_ne.mp (List.lookup_eq_none_iff.mp h setting hsetting)).symm

/-- A command, and the same one without strictness. -/
def Command.Drops (command lenient : Command) : Prop :=
  lenient = command.lenient

namespace SortedArguments

/-- Sorted arguments with the switch for strictness, and the same ones without it. -/
structure Drops (sorted lenient : SortedArguments) : Prop where
  given : (sorted.given.lookup "strict").isSome = true
  eq : lenient = { sorted with given := lenientOptions sorted.given }

variable {sorted lenient : SortedArguments}

/-- An option is added on both sides, if it is not the switch again. -/
theorem addOption_follows (h : sorted.Drops lenient) (option value : String) :
    Follows Drops (sorted.addOption option value) (lenient.addOption option value) := by
  obtain ⟨hgiven, rfl⟩ := h
  unfold addOption
  split
  · exact .misuse
  · next hnew =>
    -- The switch is there, so it is not the option that is new.
    have hoption : option ≠ "strict" := by
      rintro rfl
      exact hnew hgiven
    dsimp only
    rw [lookup_lenientOptions hoption, if_neg hnew]
    refine .ok ⟨?_, ?_⟩
    · rwa [List.lookup_cons, beq_eq_false_iff_ne.mpr hoption.symm]
    · rw [lenientOptions_cons hoption]

/-- An option that has been added awaits no value. -/
theorem awaiting_of_addOption {option value : String} {longer : SortedArguments}
    (h : sorted.addOption option value = .ok longer) : longer.awaiting = none := by
  unfold addOption at h
  split at h
  · contradiction
  · obtain rfl := Except.ok.inj h
    rfl

/-- The switch is added on one side only. -/
theorem addOption_strict_follows (hawaiting : sorted.awaiting = none) (value : String) :
    Follows Drops (sorted.addOption "strict" value) (.ok sorted) := by
  unfold addOption
  split
  · exact .misuse
  · next hnew =>
    have hnone : sorted.given.lookup "strict" = none :=
      Option.not_isSome_iff_eq_none.mp hnew
    refine .ok ⟨rfl, ?_⟩
    obtain ⟨operands, given, awaiting⟩ := sorted
    obtain rfl : awaiting = none := hawaiting
    congr
    exact (lenientOptions_of_lookup_eq_none hnone).symm

namespace Drops

/-- The option whose value comes next is the same. -/
theorem awaiting_eq (h : sorted.Drops lenient) : lenient.awaiting = sorted.awaiting := by
  rw [h.eq]

/-- Another option awaits its value on both sides. -/
theorem await (h : sorted.Drops lenient) (awaiting : Option String) :
    Drops { sorted with awaiting := awaiting } { lenient with awaiting := awaiting } := by
  obtain ⟨hgiven, rfl⟩ := h
  exact ⟨hgiven, rfl⟩

end Drops

end SortedArguments

/-- The argument with the switch is no value of an option. -/
theorem LosesSwitch.startsLikeOption_eq_true {argument : String} {left : List String}
    (h : LosesSwitch argument left) : startsLikeOption argument = true := by
  cases h with
  | long => rfl
  | short => rfl
  | letter hhyphen =>
    obtain ⟨c, rest, hletters, -⟩ := exists_eq_cons_of_letter hhyphen _
    rw [hletters, startsLikeOption, toList_shortCluster]
    rfl

namespace CommandForm

open SortedArguments

/-- A form in which strictness is a switch, or not known at all.  Of the short options only the one
for the input takes a value. -/
structure StrictIsSwitch (form : CommandForm) : Prop where
  long : ∀ option ∈ form.options, option.long = "strict" → option.takesValue = false
  short : ∀ option ∈ form.options, option.short = some 's' → option.long = "strict"
  value : ∀ option ∈ form.options, ∀ c, option.short = some c → option.takesValue = true → c = 'i'
  hyphen : ∀ option ∈ form.options, option.short ≠ some '-'
  command : ∀ operands given, form.command? operands (lenientOptions given) =
    (form.command? operands given).map Command.lenient

variable {form : CommandForm} {sorted lenient : SortedArguments}

/-! ### Arguments behind the switch -/

/-- An operand is taken in on both sides. -/
theorem readOperand_follows (h : sorted.Drops lenient) (operand : String) :
    Follows Drops (form.readOperand sorted operand) (form.readOperand lenient operand) := by
  obtain ⟨hgiven, rfl⟩ := h
  unfold readOperand
  dsimp only
  split
  · exact .ok ⟨hgiven, rfl⟩
  · exact .misuse

/-- A long option is taken in on both sides. -/
theorem readLong_follows (h : sorted.Drops lenient) (text : List Char) :
    Follows Drops (form.readLong sorted text) (form.readLong lenient text) := by
  unfold readLong
  dsimp only
  split
  · split
    · exact .ok (h.await _)
    · exact addOption_follows h _ _
  · split
    · exact addOption_follows h _ _
    · exact .misuse
  · exact .error _
  · exact .misuse

/-- A cluster of short options is taken in on both sides. -/
theorem readCluster_follows (h : sorted.Drops lenient) (letters : List Char) :
    Follows Drops (form.readCluster sorted letters) (form.readCluster lenient letters) := by
  induction letters generalizing sorted lenient with
  | nil => exact .ok h
  | cons c rest ih =>
    unfold readCluster
    split
    · split
      · split
        · exact .ok (h.await _)
        · exact addOption_follows h _ _
        · exact addOption_follows h _ _
      · exact (addOption_follows h _ _).bind ih
    · exact .error _

/-- An argument is taken in on both sides. -/
theorem readArgument_follows (h : sorted.Drops lenient) (argument : String) :
    Follows Drops (form.readArgument sorted argument) (form.readArgument lenient argument) := by
  unfold readArgument
  rw [h.awaiting_eq]
  split
  · split
    · exact .misuse
    · exact addOption_follows h _ _
  · split
    · exact readLong_follows h _
    · exact readCluster_follows h _
    · exact readOperand_follows h _

/-- All operands are taken in on both sides. -/
theorem foldlM_readOperand_follows (h : sorted.Drops lenient) (operands : List String) :
    Follows Drops (operands.foldlM form.readOperand sorted)
      (operands.foldlM form.readOperand lenient) := by
  induction operands generalizing sorted lenient with
  | nil => exact .ok h
  | cons operand rest ih => exact (readOperand_follows h operand).bind ih

/-- All arguments are taken in on both sides. -/
theorem readArguments_follows (h : sorted.Drops lenient) (arguments : List String) :
    Follows Drops (form.readArguments sorted arguments) (form.readArguments lenient arguments) := by
  induction arguments generalizing sorted lenient with
  | nil => exact .ok h
  | cons argument rest ih =>
    unfold readArguments
    split
    · exact foldlM_readOperand_follows h rest
    · exact (readArgument_follows h argument).bind ih

/-- In the end there is the same command without strictness. -/
theorem finish_follows (hform : form.StrictIsSwitch) (h : sorted.Drops lenient) :
    Follows Command.Drops (form.finish sorted)
      (form.finish lenient) := by
  obtain ⟨-, rfl⟩ := h
  unfold finish
  dsimp only
  rw [hform.command]
  cases hawaiting : sorted.awaiting with
  | some option => exact .misuse
  | none =>
    cases form.command? sorted.operands sorted.given with
    | none => exact .misuse
    | some command => exact .ok rfl

/-! ### The argument with the switch -/


/-- What is found for a letter is an option with that letter. -/
theorem mem_of_find?_short {option : CommandOption} {c : Char}
    (h : (form.options.find? fun option => option.short == some c) = some option) :
    option ∈ form.options ∧ option.short = some c := by
  have hfound := List.find?_some h
  exact ⟨List.mem_of_find?_eq_some h, eq_of_beq hfound⟩

/-- A letter that is not known interrupts a cluster. -/
theorem readCluster_of_find?_eq_none {c : Char}
    (h : (form.options.find? fun option => option.short == some c) = none)
    (sorted : SortedArguments) (rest : List Char) : form.readCluster sorted (c :: rest) =
      .error (if c = 'h' then .information form.help else .misuse) := by
  rw [readCluster, h]

/-- The letter of a switch adds the switch in front of the rest of the cluster. -/
theorem readCluster_switch {option : CommandOption} {c : Char}
    (h : (form.options.find? fun option => option.short == some c) = some option)
    (hswitch : option.takesValue = false) (sorted : SortedArguments) (rest : List Char) :
    form.readCluster sorted (c :: rest) =
      sorted.addOption option.long "" >>= fun sorted => form.readCluster sorted rest := by
  rw [readCluster, h]
  dsimp only
  rw [hswitch]
  exact if_neg Bool.false_ne_true

/-- The long form is a switch that is added, or it is not known. -/
theorem readLong_strict_follows (hform : form.StrictIsSwitch) (hawaiting : sorted.awaiting = none) :
    Follows Drops (form.readLong sorted "strict".toList) (.ok sorted) := by
  have hname : String.ofList ("strict".toList.takeWhile (· != '=')) = "strict" := by decide
  have hrest : "strict".toList.dropWhile (· != '=') = [] := by decide
  unfold readLong
  dsimp only
  rw [hname, hrest]
  cases hfind : form.options.find? fun option => option.long == "strict" with
  | none => exact .misuse
  | some option =>
    have hmem := List.mem_of_find?_eq_some hfind
    have hfound := List.find?_some hfind
    have hlong : option.long = "strict" := eq_of_beq hfound
    dsimp only
    rw [hform.long option hmem hlong, hlong]
    exact addOption_strict_follows hawaiting ""

/-- The letter of the switch at the start of a cluster: the switch is added, or it is not known, and
the rest of the cluster is taken in on both sides. -/
theorem readCluster_strict_follows (hform : form.StrictIsSwitch)
    (hawaiting : sorted.awaiting = none) (after : List Char) :
    Follows Drops (form.readCluster sorted ('s' :: after)) (form.readCluster sorted after) := by
  cases hfind : form.options.find? fun option => option.short == some 's' with
  | none =>
    rw [readCluster_of_find?_eq_none hfind]
    exact .misuse
  | some option =>
    obtain ⟨hmem, hshort⟩ := mem_of_find?_short hfind
    have hlong := hform.short option hmem hshort
    rw [readCluster_switch hfind (hform.long option hmem hlong), hlong]
    exact (addOption_strict_follows hawaiting "").bind fun h => readCluster_follows h after

/-- A cluster with the letter of the switch in front of any value: the letters before it are taken
in as before. -/
theorem readCluster_letter_follows (hform : form.StrictIsSwitch)
    (hawaiting : sorted.awaiting = none) {before : List Char} (hinput : 'i' ∉ before)
    (after : List Char) :
    Follows Drops (form.readCluster sorted (before ++ 's' :: after))
      (form.readCluster sorted (before ++ after)) := by
  -- Induction on the letters in front, which are switches as well: the one option with a value is
  -- not among them, so that the reading comes to the switch or is interrupted before.
  induction before generalizing sorted with
  | nil => exact readCluster_strict_follows hform hawaiting after
  | cons c rest ih =>
    rw [List.mem_cons, not_or] at hinput
    rw [List.cons_append, List.cons_append]
    cases hfind : form.options.find? fun option => option.short == some c with
    | none =>
      rw [readCluster_of_find?_eq_none hfind, readCluster_of_find?_eq_none hfind]
      exact .error _
    | some option =>
      obtain ⟨hmem, hshort⟩ := mem_of_find?_short hfind
      have hswitch : option.takesValue = false :=
        Bool.eq_false_iff.mpr fun htakes =>
          hinput.1 (hform.value option hmem c hshort htakes).symm
      rw [readCluster_switch hfind hswitch, readCluster_switch hfind hswitch]
      exact Follows.bind_same fun longer hadd => ih (awaiting_of_addOption hadd) hinput.2

/-- A hyphen is no short option. -/
theorem readCluster_hyphen (hform : form.StrictIsSwitch) (sorted : SortedArguments)
    (rest : List Char) : form.readCluster sorted ('-' :: rest) = .error .misuse := by
  cases hfind : form.options.find? fun option => option.short == some '-' with
  | none => exact readCluster_of_find?_eq_none hfind sorted rest
  | some option =>
    obtain ⟨hmem, hshort⟩ := mem_of_find?_short hfind
    exact absurd hshort (hform.hyphen option hmem)

/-- A short cluster is read letter by letter. -/
theorem readArgument_shortCluster (hawaiting : sorted.awaiting = none) {c : Char} (hc : c ≠ '-')
    (rest : List Char) :
    form.readArgument sorted (shortCluster (c :: rest)) = form.readCluster sorted (c :: rest) := by
  rw [readArgument, hawaiting, toList_shortCluster]
  dsimp only
  split
  · next htext => exact absurd (List.cons.inj (List.cons.inj htext).2).1 hc
  · next htext =>
    obtain ⟨rfl, rfl⟩ := List.cons.inj (List.cons.inj htext).2
    rfl
  · next hno => exact absurd rfl (hno c rest)

/-- An argument in front of the end of the options is read before those behind it. -/
theorem readArguments_cons {argument : String} (h : argument ≠ "--") (sorted : SortedArguments)
    (rest : List String) : form.readArguments sorted (argument :: rest) =
      form.readArgument sorted argument >>= fun sorted => form.readArguments sorted rest :=
  if_neg h

/-- A cluster with the letter of the switch is read with a shorter cluster on the other side, and
everything behind it on both sides. -/
theorem readArguments_letter_follows (hform : form.StrictIsSwitch)
    (hawaiting : sorted.awaiting = none) {before after : List Char} (hhyphen : '-' ∉ before)
    (hinput : 'i' ∉ before) (hmore : before ++ after ≠ []) (back : List String) :
    Follows Drops (form.readArguments sorted (shortCluster (before ++ 's' :: after) :: back))
      (form.readArguments sorted (shortCluster (before ++ after) :: back)) := by
  obtain ⟨c, rest, hletters, hc⟩ := exists_eq_cons_of_letter hhyphen after
  obtain ⟨d, more, hleft⟩ := List.exists_cons_of_ne_nil hmore
  have hfollows := readCluster_letter_follows hform hawaiting hinput after
  rw [hletters, hleft] at hfollows ⊢
  rw [readArguments_cons (shortCluster_ne hc rest), readArgument_shortCluster hawaiting hc]
  by_cases hd : d = '-'
  · -- What is left would be a long option, but the hyphen has no place in the cluster.
    rw [hd, readCluster_hyphen hform] at hfollows
    rw [hfollows.eq_misuse]
    exact .misuse
  · rw [readArguments_cons (shortCluster_ne hd more), readArgument_shortCluster hawaiting hd]
    exact hfollows.bind fun h => readArguments_follows h back

/-- The argument with the switch is read with its rest on the other side, and everything behind it
on both sides. -/
theorem readArguments_losesSwitch_follows (hform : form.StrictIsSwitch) {argument : String}
    {left : List String} (h : LosesSwitch argument left) (sorted : SortedArguments)
    (back : List String) :
    Follows Drops (form.readArguments sorted (argument :: back))
      (form.readArguments sorted (left ++ back)) := by
  cases hawaiting : sorted.awaiting with
  | some option =>
    -- The argument stands where a value is awaited, but it cannot be one.
    have hmisuse : form.readArgument sorted argument = .error .misuse := by
      rw [readArgument, hawaiting]
      exact if_pos h.startsLikeOption_eq_true
    rw [readArguments_cons h.ne_endOfOptions, hmisuse]
    exact .misuse
  | none =>
    cases h with
    | long =>
      have hread : form.readArgument sorted "--strict" =
          form.readLong sorted "strict".toList := by
        rw [readArgument, hawaiting]
        rfl
      rw [readArguments_cons (by decide), hread]
      exact (readLong_strict_follows hform hawaiting).bind fun h => readArguments_follows h back
    | short =>
      have hread : form.readArgument sorted "-s" = form.readCluster sorted ['s'] :=
        readArgument_shortCluster hawaiting (by decide) []
      rw [readArguments_cons (by decide), hread]
      exact (readCluster_strict_follows hform hawaiting []).bind fun h =>
        readArguments_follows h back
    | letter hhyphen hinput hmore =>
      exact readArguments_letter_follows hform hawaiting hhyphen hinput hmore back

/-- The arguments with the switch and those without it are read side by side. -/
theorem readArguments_dropsStrict_follows (hform : form.StrictIsSwitch) {front left : List String}
    {argument : String} (hfront : "--" ∉ front) (h : LosesSwitch argument left)
    (sorted : SortedArguments) (back : List String) :
    Follows Drops (form.readArguments sorted (front ++ argument :: back))
      (form.readArguments sorted (front ++ (left ++ back))) := by
  induction front generalizing sorted with
  | nil => exact readArguments_losesSwitch_follows hform h sorted back
  | cons first rest ih =>
    rw [List.mem_cons, not_or] at hfront
    rw [List.cons_append, List.cons_append, readArguments_cons (Ne.symm hfront.1),
      readArguments_cons (Ne.symm hfront.1)]
    exact Follows.bind_same fun longer _ => ih hfront.2 longer

/-- The arguments of a command without the switch stand for the same command without strictness. -/
theorem parse_follows (hform : form.StrictIsSwitch) {front left : List String} {argument : String}
    (hfront : "--" ∉ front) (h : LosesSwitch argument left) (back : List String) :
    Follows Command.Drops (form.parse (front ++ argument :: back))
      (form.parse (front ++ (left ++ back))) :=
  (readArguments_dropsStrict_follows hform hfront h .start back).bind fun hsorted =>
    finish_follows hform hsorted

end CommandForm

/-! ### The parser of the program -/

/-- A `check` without the switch is the same check without strictness. -/
theorem command?_checkForm (operands : List String) (given : List (String × String)) :
    checkForm.command? operands (lenientOptions given) =
      (checkForm.command? operands given).map Command.lenient := by
  rcases operands with _ | ⟨expression, _ | ⟨second, more⟩⟩
  · rfl
  · simp only [checkForm, lookup_strict_lenientOptions,
      lookup_lenientOptions (by decide : "input" ≠ "strict"),
      lookup_lenientOptions (by decide : "pretty" ≠ "strict"),
      lookup_lenientOptions (by decide : "syntax-only" ≠ "strict"), Option.isSome_none,
      Option.map_some, Command.lenient]
  · rfl

/-- Strictness is a switch of `check`. -/
theorem checkForm_strictIsSwitch : checkForm.StrictIsSwitch where
  long := by decide
  short := by decide
  value := by
    intro option hmem c hshort htakes
    simp only [checkForm, List.mem_cons, List.not_mem_nil, or_false] at hmem
    rcases hmem with rfl | rfl | rfl | rfl
    · exact (Option.some.inj hshort).symm
    all_goals contradiction
  hyphen := by decide
  command := command?_checkForm

/-- A command without options does not know the switch. -/
theorem CommandForm.strictIsSwitch_of_options_eq_nil {form : CommandForm} (hnil : form.options = [])
    (hcommand : ∀ operands given, form.command? operands (lenientOptions given) =
      (form.command? operands given).map Command.lenient) : form.StrictIsSwitch := by
  refine ⟨?_, ?_, ?_, ?_, hcommand⟩
  all_goals simp only [hnil, List.not_mem_nil, false_imp_iff, implies_true]

/-- In the form of every command, strictness is a switch or not known. -/
theorem strictIsSwitch_of_lookup {name : String} {form : CommandForm}
    (h : commandForms.lookup name = some form) : form.StrictIsSwitch := by
  obtain ⟨front, back, hforms, -⟩ := List.lookup_eq_some_iff.mp h
  have hmem : (name, form) ∈ commandForms := by
    rw [hforms]
    exact List.mem_append_right front List.mem_cons_self
  simp only [commandForms, List.mem_cons, List.not_mem_nil, or_false, Prod.mk.injEq] at hmem
  rcases hmem with ⟨-, rfl⟩ | ⟨-, rfl⟩ | ⟨-, rfl⟩
  · exact checkForm_strictIsSwitch
  · refine CommandForm.strictIsSwitch_of_options_eq_nil rfl fun operands _ => ?_
    cases operands
    all_goals rfl
  · refine CommandForm.strictIsSwitch_of_options_eq_nil rfl fun operands _ => ?_
    rcases operands with _ | ⟨category, _ | ⟨second, more⟩⟩
    all_goals rfl

section

variable {text : String} {rest : List Char}

/-- A text with a hyphen in front is no name of a command. -/
theorem ne_name_of_hyphen (h : text.toList = '-' :: rest) :
    commandForms.lookup text = none ∧ text ≠ "help" := by
  have hne : ∀ name ∈ ["check", "docs", "doc", "help"], text ≠ name := by
    rintro name hname rfl
    simp only [List.mem_cons, List.not_mem_nil, or_false] at hname
    rcases hname with rfl | rfl | rfl | rfl
    all_goals exact absurd (List.cons.inj h).1 (by decide)
  refine ⟨List.lookup_eq_none_iff.mpr fun entry hentry => ?_, hne "help" (by decide)⟩
  simp only [commandForms, List.mem_cons, List.not_mem_nil, or_false] at hentry
  rcases hentry with rfl | rfl | rfl
  · exact bne_iff_ne.mpr (hne "check" (by decide))
  · exact bne_iff_ne.mpr (hne "docs" (by decide))
  · exact bne_iff_ne.mpr (hne "doc" (by decide))

/-- A first argument with a hyphen in front is no command. -/
theorem parseArguments_of_hyphen (h : text.toList = '-' :: rest) (more : List String) :
    parseArguments (text :: more) = .error (interruptionOfOption text) := by
  obtain ⟨hlookup, hhelp⟩ := ne_name_of_hyphen h
  rw [parseArguments, hlookup]
  dsimp only
  rw [if_neg hhelp]

/-- There is no help on what has a hyphen in front. -/
theorem interruptionOfHelp_of_mem (h : text.toList = '-' :: rest) {names : List String}
    (hmem : text ∈ names) : interruptionOfHelp names = .misuse := by
  obtain ⟨hlookup, hhelp⟩ := ne_name_of_hyphen h
  unfold interruptionOfHelp
  split
  · contradiction
  · exact absurd (List.mem_singleton.mp hmem) hhelp
  · rw [← List.mem_singleton.mp hmem, hlookup]
  · rfl

end

/-- Of a cluster in front of all commands only the first letter matters. -/
theorem interruptionOfOption_shortCluster {c : Char} (hc : c ≠ '-') (rest : List Char) :
    interruptionOfOption (shortCluster (c :: rest)) =
      if c = 'h' then .information programHelp
      else if c = 'V' then .information programVersion
      else .misuse := by
  rw [interruptionOfOption, toList_shortCluster]
  split
  · next htext => exact absurd (List.cons.inj (List.cons.inj htext).2).1 hc
  · next htext => rw [(List.cons.inj (List.cons.inj htext).2).1, if_pos rfl]
  · next htext => rw [(List.cons.inj (List.cons.inj htext).2).1, if_neg (by decide), if_pos rfl]
  · next hh hV =>
    rw [if_neg, if_neg]
    · rintro rfl
      exact hV rest rfl
    · rintro rfl
      exact hh rest rfl

/-- In front of all commands there is no such switch. -/
theorem parseArguments_losesSwitch_follows {argument : String} {left : List String}
    (h : LosesSwitch argument left) (back : List String) :
    Follows Command.Drops (parseArguments (argument :: back))
      (parseArguments (left ++ back)) := by
  cases h with
  | long => exact .misuse
  | short => exact .misuse
  | @letter before after hhyphen =>
    rw [List.singleton_append, parseArguments_of_hyphen (toList_shortCluster _)]
    cases before with
    | nil =>
      rw [List.nil_append, interruptionOfOption_shortCluster (by decide)]
      exact .misuse
    | cons c rest =>
      have hc : c ≠ '-' := (List.ne_of_not_mem_cons hhyphen).symm
      rw [parseArguments_of_hyphen (toList_shortCluster _), List.cons_append, List.cons_append,
        interruptionOfOption_shortCluster hc, interruptionOfOption_shortCluster hc]
      exact .error _

/-- Without the switch the arguments stand for the same command without strictness. -/
theorem parseArguments_follows {arguments shorter : List String}
    (h : DropsStrict arguments shorter) :
    Follows Command.Drops (parseArguments arguments)
      (parseArguments shorter) := by
  obtain @⟨front, back, left, argument, hfront, hswitch⟩ := h
  cases front with
  | nil => exact parseArguments_losesSwitch_follows hswitch back
  | cons first rest =>
    rw [List.cons_append, List.cons_append, parseArguments, parseArguments]
    cases hform : commandForms.lookup first with
    | some form =>
      exact CommandForm.parse_follows (strictIsSwitch_of_lookup hform)
        (List.not_mem_of_not_mem_cons hfront) hswitch back
    | none =>
      by_cases hhelp : first = "help"
      · -- Help is given on names of commands only, and the switch is no such name.
        obtain ⟨letters, hargument⟩ := hswitch.exists_toList_eq
        dsimp only
        rw [if_pos hhelp, interruptionOfHelp_of_mem hargument
          (List.mem_append_right rest List.mem_cons_self)]
        exact .misuse
      · dsimp only
        rw [if_neg hhelp, if_neg hhelp]
        exact .error _

/-- The parser of the program has a switch for strictness. -/
theorem parseArguments_hasStrictSwitch : ArgumentParser.HasStrictSwitch parseArguments where
  command h hparse := by
    have hfollows := parseArguments_follows h
    rw [hparse] at hfollows
    obtain ⟨other, hother, rfl⟩ := hfollows.exists_eq_ok
    exact hother
  information h hparse := by
    have hfollows := parseArguments_follows h
    rw [hparse] at hfollows
    exact hfollows.eq_information

end JsonSelect
