import JsonSelect.Command

/-!
# The switch for strictness

The switch is given in its long form, or as a letter in a cluster of short options.  `DropsStrict`
relates arguments to the same arguments without it: the long form and a cluster that is nothing else
disappear, another cluster loses the letter.  Behind the end of the options there is no switch, nor
behind the letter of the option for the input, where the rest of the cluster is a value.

A parser of arguments has such a switch if it takes what is left for the same command without
strictness, and gives the same information as before (`ArgumentParser.HasStrictSwitch`).
-/

namespace JsonSelect

/-! ### Arguments without the switch -/

/-- A cluster of short options. -/
def shortCluster (letters : List Char) : String := String.ofList ('-' :: letters)

/-- A cluster is its letters behind a hyphen. -/
@[simp] theorem toList_shortCluster (letters : List Char) :
    (shortCluster letters).toList = '-' :: letters :=
  String.toList_ofList

/-- What is left of an argument without the switch for strictness. -/
inductive LosesSwitch : String → List String → Prop where
  /-- The switch in its long form. -/
  | long : LosesSwitch "--strict" []
  /-- The switch as the only letter of a cluster. -/
  | short : LosesSwitch "-s" []
  /-- The switch as one of the letters of a cluster, not in the value at its end. -/
  | letter {before after : List Char} (hhyphen : '-' ∉ before) (hinput : 'i' ∉ before)
    (hmore : before ++ after ≠ []) :
    LosesSwitch (shortCluster (before ++ 's' :: after)) [shortCluster (before ++ after)]

/-- Arguments, and the same ones without the switch for strictness. -/
inductive DropsStrict : List String → List String → Prop where
  /-- An argument in front of the end of the options loses the switch. -/
  | at {front back left : List String} {argument : String} (hfront : "--" ∉ front)
    (hswitch : LosesSwitch argument left) :
    DropsStrict (front ++ argument :: back) (front ++ (left ++ back))

/-- A cluster with the letter of the switch starts with a letter. -/
theorem exists_eq_cons_of_letter {before : List Char} (hhyphen : '-' ∉ before) (after : List Char) :
    ∃ c rest, before ++ 's' :: after = c :: rest ∧ c ≠ '-' := by
  cases before with
  | nil => exact ⟨'s', after, rfl, by decide⟩
  | cons c rest =>
    exact ⟨c, rest ++ 's' :: after, rfl, (List.ne_of_not_mem_cons hhyphen).symm⟩

/-- A cluster that starts with a letter is not the end of the options. -/
theorem shortCluster_ne {c : Char} (hc : c ≠ '-') (rest : List Char) :
    shortCluster (c :: rest) ≠ "--" := by
  intro h
  have htext : '-' :: c :: rest = ['-', '-'] := by
    rw [← toList_shortCluster, h]
    rfl
  exact hc (List.cons.inj (List.cons.inj htext).2).1

namespace LosesSwitch

variable {argument : String} {left : List String}

/-- The argument with the switch is not the end of the options. -/
theorem ne_endOfOptions (h : LosesSwitch argument left) : argument ≠ "--" := by
  cases h with
  | long => decide
  | short => decide
  | letter hhyphen =>
    obtain ⟨c, rest, hletters, hc⟩ := exists_eq_cons_of_letter hhyphen _
    rw [hletters]
    exact shortCluster_ne hc rest

/-- The argument with the switch starts with a hyphen. -/
theorem exists_toList_eq (h : LosesSwitch argument left) :
    ∃ letters, argument.toList = '-' :: letters := by
  cases h with
  | long => exact ⟨"-strict".toList, rfl⟩
  | short => exact ⟨['s'], rfl⟩
  | letter => exact ⟨_, toList_shortCluster _⟩

end LosesSwitch

/-- A command without strictness. -/
def Command.lenient : Command → Command
  | check request pretty => check { request with strict := false } pretty
  | command => command

/-- A parser of arguments with a switch for strictness, which may stand anywhere in front of the end
of the options, once at most: without it the arguments stand for the same command without
strictness, or they ask for the same information.  Nothing is said about arguments that do not fit.
-/
structure ArgumentParser.HasStrictSwitch (parser : ArgumentParser) : Prop where
  command {arguments shorter : List String} {command : Command} :
    DropsStrict arguments shorter → parser arguments = .ok command →
      parser shorter = .ok command.lenient
  information {arguments shorter : List String} {text : String} :
    DropsStrict arguments shorter → parser arguments = .error (.information text) →
      parser shorter = .error (.information text)

end JsonSelect
