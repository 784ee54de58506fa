import JsonSelect.Proofs.Check
import JsonSelect.Proofs.CommandLine

/-!
# Runs of a check

A run is all or nothing like the check that it carries out: it ends with a text on the standard
output and the exit code 0, or with another code and no text.  Which command is carried out is up to
a parser of arguments, and what is said here holds for any of them; only where arguments are
compared with the same arguments without the switch for strictness, the parser has to have such a
switch.
-/

namespace JsonSelect

/-! ### The standard input -/

/-- A stream that encodes a text holds that text. -/
@[simp] theorem InputStream.text_coe (text : String) : InputStream.text text = .ok text := by
  have hread : String.fromUTF8? text.toUTF8 = some text := by
    simp only [String.fromUTF8?, String.toUTF8_eq_toByteArray, dif_pos text.isValidUTF8]
    rfl
  rw [InputStream.text, hread]

namespace Outcome

/-! ### Exit codes -/

/-- A run that fails writes nothing. -/
theorem stdout_of_code_eq_one {outcome : Outcome} (h : outcome.code = 1) : outcome.stdout = "" := by
  cases outcome with
  | finished text => contradiction
  | failed error => rfl
  | unreadable reason => rfl
  | misused => rfl

/-- A run that succeeds ends with the text on its standard output. -/
theorem eq_finished_of_code_eq_zero {outcome : Outcome} (h : outcome.code = 0) :
    outcome = .finished outcome.stdout := by
  cases outcome with
  | finished text => rfl
  | failed error => contradiction
  | unreadable reason => contradiction
  | misused => contradiction

/-- Only a result makes a run succeed. -/
theorem ofResult_eq_finished_iff {result : Except CommandError String} {text : String} :
    ofResult result = .finished text ↔ result = .ok text := by
  cases result with
  | ok other => simp only [ofResult, finished.injEq, Except.ok.injEq]
  | error error => simp only [ofResult, reduceCtorEq]

end Outcome

/-! ### Commands -/

/-- A check succeeds if its input can be read and it finds something there. -/
theorem Command.run_check_eq_finished_iff {request : CheckRequest} {pretty : Bool}
    {stdin : Option InputStream} {text : String} :
    (check request pretty).run stdin = .finished text ↔
      ∃ input result, request.inputFrom stdin = .ok input ∧
        JsonSelect.check { request with input := input } = .ok result ∧
          resultText pretty result = text := by
  unfold run
  dsimp only
  cases request.inputFrom stdin with
  | error reason => simp only [reduceCtorEq, false_and, exists_false]
  | ok input =>
    simp only [Outcome.ofResult_eq_finished_iff, map_eq_ok_iff, Except.ok.injEq, exists_and_left,
      exists_eq_left']

/-- A check that reads the standard input treats a text there like one among its arguments. -/
theorem Command.run_check_text {request : CheckRequest} (hreads : request.readsInput = true)
    (pretty : Bool) (text : String) : (check request pretty).run (some text) =
      (check { request with input := some text } pretty).run none := by
  have hpiped : request.inputFrom (some text) = .ok (some text) := by
    rw [CheckRequest.inputFrom, if_pos hreads, InputStream.text_coe]
    rfl
  have hgiven : ({ request with input := some text } : CheckRequest).inputFrom none =
      .ok (some text) := rfl
  unfold run
  dsimp only
  rw [hpiped, hgiven]

-- Bytes that encode no text are noticed before the expression, which does not compile either.
example : parseArguments.run ["check", "["] (some (.bytes ⟨#[0xff]⟩)) =
    .unreadable "stream did not contain valid UTF-8" := rfl

/-- A command that succeeds in spite of strictness writes the same without it. -/
theorem Command.run_lenient {command : Command} {stdin : Option InputStream} {text : String}
    (h : command.run stdin = .finished text) : command.lenient.run stdin = .finished text := by
  cases command with
  | check request pretty =>
    obtain ⟨input, result, hinput, hcheck, htext⟩ := run_check_eq_finished_iff.mp h
    exact run_check_eq_finished_iff.mpr ⟨input, result, hinput, check_lenient hcheck, htext⟩
  | docs => exact h
  | doc category => exact h

/-! ### Runs -/

namespace ArgumentParser

variable {parser : ArgumentParser} {arguments other shorter : List String}
  {stdin : Option InputStream}

/-- A run with a command is that of the command. -/
theorem run_of_eq_ok {command : Command} (h : parser arguments = .ok command) :
    parser.run arguments stdin = command.run stdin := by
  rw [run, h]

/-- Arguments that stand for a command without strictness make a run succeed that succeeds in spite
of it. -/
theorem run_eq_of_lenient {command : Command} (h : parser arguments = .ok command)
    (hother : parser other = .ok command.lenient) (hcode : (parser.run arguments stdin).code = 0) :
    parser.run other stdin = parser.run arguments stdin := by
  have hfinished := Outcome.eq_finished_of_code_eq_zero hcode
  rw [hfinished, run_of_eq_ok hother]
  rw [run_of_eq_ok h] at hfinished ⊢
  exact Command.run_lenient hfinished

/-- A run that succeeds in spite of the switch does the same without it. -/
theorem HasStrictSwitch.run_eq (hparser : parser.HasStrictSwitch)
    (hdrops : DropsStrict arguments shorter) (hcode : (parser.run arguments stdin).code = 0) :
    parser.run shorter stdin = parser.run arguments stdin := by
  cases h : parser arguments with
  | ok command => exact run_eq_of_lenient h (hparser.command hdrops h) hcode
  | error interruption =>
    cases interruption with
    | information text => rw [run, run, h, hparser.information hdrops h]
    | misuse =>
      rw [run, h] at hcode
      contradiction

end ArgumentParser

/-- A check is all or nothing, and strictness only restricts it.  It ends as the first of its stages
that fails does, and otherwise with all matches in order; where only the expression is of interest,
nothing else matters.  Whatever the parser of the arguments, a run that fails writes nothing, and of
two calls that stand for the same check with and without strictness, the second one succeeds and
writes the same if the first one succeeds.  Such calls are the arguments of a run and the same
arguments without the switch for strictness, for a parser that has this switch. -/
theorem check_allOrNothing (parser : ArgumentParser) :
    (∀ request outcome, check request = outcome ↔ CheckEnds request outcome) ∧
      (∀ request other : CheckRequest, request.expression = other.expression →
        request.expressionOnly = true → other.expressionOnly = true →
          check request = check other) ∧
      (∀ arguments stdin, (parser.run arguments stdin).code = 1 →
        (parser.run arguments stdin).stdout = "") ∧
      (∀ arguments other stdin request pretty,
        parser arguments = .ok (.check request pretty) →
          parser other = .ok (.check { request with strict := false } pretty) →
            (parser.run arguments stdin).code = 0 →
              (parser.run other stdin).code = 0 ∧
                (parser.run other stdin).stdout = (parser.run arguments stdin).stdout) ∧
      (parser.HasStrictSwitch → ∀ arguments shorter stdin, DropsStrict arguments shorter →
        (parser.run arguments stdin).code = 0 →
          (parser.run shorter stdin).code = 0 ∧
            (parser.run shorter stdin).stdout = (parser.run arguments stdin).stdout) := by
  refine ⟨fun _ _ => check_eq_iff, fun _ _ => check_expressionOnly,
    fun _ _ => Outcome.stdout_of_code_eq_one, ?_, ?_⟩
  · intro arguments other stdin request pretty h hother hcode
    rw [ArgumentParser.run_eq_of_lenient h hother hcode]
    exact ⟨hcode, rfl⟩
  · intro hparser arguments shorter stdin hdrops hcode
    rw [hparser.run_eq hdrops hcode]
    exact ⟨hcode, rfl⟩

/-- The switch in a cluster with the option for the input.  An element that is missing behind one
that is not makes the strict check of a document from the standard input fail, without a match in
its output. -/
theorem check_allOrNothing_cluster :
    let strict := parseArguments.run ["check", "$[0]", "-si", "[true]"] none
    let lenient := parseArguments.run ["check", "$[0]", "-i", "[true]"] none
    let missing := parseArguments.run ["check", "$[0,7]", "--strict"] (some "[true]")
    (strict.code = 0 ∧ lenient.code = 0 ∧ lenient.stdout = strict.stdout) ∧
      missing.code = 1 ∧ missing.stdout = "" := by
  intro strict lenient missing
  obtain ⟨-, -, hsilent, -, hswitch⟩ := check_allOrNothing parseArguments
  have hcode : strict.code = 0 := by decide +kernel
  have hdrops : DropsStrict ["check", "$[0]", "-si", "[true]"] ["check", "$[0]", "-i", "[true]"] :=
    @DropsStrict.at ["check", "$[0]"] ["[true]"] _ _ (by decide)
      (@LosesSwitch.letter [] ['i'] List.not_mem_nil List.not_mem_nil (List.cons_ne_nil _ _))
  have hfails : missing.code = 1 := by decide +kernel
  exact ⟨⟨hcode, hswitch parseArguments_hasStrictSwitch _ _ none hdrops hcode⟩, hfails,
    hsilent _ _ hfails⟩

end JsonSelect
