import Mathlib.Tactic.Common
import JsonSelect.Proofs.Evaluation.CompiledPath

/-!
# One match and all matches

A path can be asked for its only match or for all of them.  Asking for one match looks at no more
than two items of a sequence, and still it answers what all matches and the error that ends them
would tell (`Nodes.single_eq_onlyMatch`): several matches are an error of their own, whatever comes
after the second one, and an error counts even if there is one match before it.  The error on
several matches is never one of the evaluation itself, so it tells how many matches there are.

With an expression, both ways of selecting compile it alike, and a compiled path does not fail
without strictness.  So the two agree on the number of matches.
-/

namespace JsonSelect

/-- No evaluation ends because of several matches. -/
theorem drain_evaluate_ne_multipleMatches (strict : Bool) (path : List Selector) (root : Json) :
    (evaluate strict path root).drain.2 ≠ some .multipleMatches := by
  intro h
  rw [drain_evaluate] at h
  have herror : strict = true ∧ EvaluationError.isNoMatch .multipleMatches = true ∨
      EvaluationError.multipleMatches = .zeroStep :=
    error_of_mem_pathItems (fun _ _ _ _ => Selector.error_of_mem_items) (mem_of_drained_snd h)
  rcases herror with ⟨-, hn⟩ | hzero
  · contradiction
  · contradiction

/-! ### At most one match -/

namespace Nodes

section

variable {found : List Json} {error? : Option EvaluationError}

/-- There are several matches exactly if at least two nodes have been found. -/
theorem onlyMatch_eq_multipleMatches_iff (h : error? ≠ some .multipleMatches) :
    onlyMatch found error? = .error .multipleMatches ↔ 2 ≤ found.length := by
  rcases found with _ | ⟨node, _ | ⟨second, more⟩⟩ <;> cases error? <;> simp_all [onlyMatch]

/-- Without several matches, an error is the one that ends the evaluation. -/
theorem onlyMatch_eq_error_iff {error : EvaluationError} (h : found.length < 2) :
    onlyMatch found error? = .error error ↔ error? = some error := by
  rcases found with _ | ⟨node, _ | ⟨second, more⟩⟩
  · cases error? <;> simp [onlyMatch]
  · cases error? <;> simp [onlyMatch]
  · simp only [List.length_cons] at h
    omega

/-- There is a match or none exactly if nothing else has been found and nothing has failed. -/
theorem onlyMatch_eq_ok_iff {node? : Option Json} :
    onlyMatch found error? = .ok node? ↔ (found, error?) = (node?.toList, none) := by
  rcases found with _ | ⟨node, _ | ⟨second, more⟩⟩ <;> cases error? <;> cases node? <;>
    simp [onlyMatch, eq_comm]

end

end Nodes

/-! ### Selecting with an expression -/

section

variable {expression : String} {path : Path} (root : Json)

/-- With an expression that compiles all nodes are selected without an error, and the one that is
asked for is the only one among them. -/
theorem Json.exists_selectTokens_eq_ok (h : Path.compile expression = .ok path) :
    ∃ found, root.selectTokens expression = .ok found ∧
      root.selectToken expression = (Nodes.onlyMatch found none).mapError .evaluation := by
  obtain ⟨-, hselectors⟩ := Path.compileWithin_eq_ok h
  have hw := (wellFormed_of_readExpression (compileWithin_eq_ok_iff.mp hselectors)).1
  have hlenient : (path.evaluate false root).drain.2 = none := drain_evaluate_lenient hw root
  have hall : path.selectAll root = .ok (path.evaluate false root).drain.1 :=
    Nodes.toList_eq_ok hlenient
  have hone : path.selectOne false root =
      Nodes.onlyMatch (path.evaluate false root).drain.1 none := by
    rw [← hlenient]
    exact Nodes.single_eq_onlyMatch _
  refine ⟨(path.evaluate false root).drain.1, ?_, ?_⟩
  · rw [Json.selectTokens, h]
    change (path.selectAll root).mapError SelectionError.evaluation = _
    rw [hall]
    rfl
  · rw [Json.selectToken, h]
    change (path.selectOne false root).mapError SelectionError.evaluation = _
    rw [hone]

/-- An expression that does not compile is refused alike by both ways of selecting. -/
theorem Json.select_eq_error {error : PathError} (h : Path.compile expression = .error error) :
    root.selectToken expression = .error (.path error) ∧
      root.selectTokens expression = .error (.path error) := by
  rw [Json.selectToken, Json.selectTokens, h]
  exact ⟨rfl, rfl⟩

end

/-- The only match of a path is answered according to all its matches and the error that ends them,
with either policy.  There are several matches exactly if that is the error that is answered.
Otherwise the error that ends them is answered, even after a first match; and without an error the
match, or that there is none.  With an expression, selecting one node and selecting all nodes fail
alike if it does not compile; if it does, all nodes are selected, and the one that is asked for is
there, missing or not the only one according to their number. -/
theorem selectOne_iff (path : Path) (strict : Bool) (root : Json) :
    (path.selectOne strict root = .error .multipleMatches ↔
      2 ≤ (path.evaluate strict root).drain.1.length) ∧
    ((path.evaluate strict root).drain.1.length < 2 → ∀ error,
      path.selectOne strict root = .error error ↔
        (path.evaluate strict root).drain.2 = some error) ∧
    (∀ node, path.selectOne strict root = .ok (some node) ↔
      (path.evaluate strict root).drain = ([node], none)) ∧
    (path.selectOne strict root = .ok none ↔ (path.evaluate strict root).drain = ([], none)) ∧
    ∀ expression : String,
      (∀ error, Path.compile expression = .error error →
        root.selectToken expression = .error (.path error) ∧
        root.selectTokens expression = .error (.path error)) ∧
      ∀ compiled, Path.compile expression = .ok compiled →
        ∃ found, root.selectTokens expression = .ok found ∧
          (root.selectToken expression = .ok none ↔ found = []) ∧
          (∀ node, root.selectToken expression = .ok (some node) ↔ found = [node]) ∧
          (root.selectToken expression = .error (.evaluation .multipleMatches) ↔
            2 ≤ found.length) := by
  have hone : path.selectOne strict root = Nodes.onlyMatch
      (path.evaluate strict root).drain.1 (path.evaluate strict root).drain.2 :=
    Nodes.single_eq_onlyMatch _
  rw [hone]
  refine ⟨?_, fun hlength _ => Nodes.onlyMatch_eq_error_iff hlength,
    fun node => Nodes.onlyMatch_eq_ok_iff, Nodes.onlyMatch_eq_ok_iff, fun expression =>
      ⟨fun error => Json.select_eq_error root, fun compiled hcompile => ?_⟩⟩
  · exact Nodes.onlyMatch_eq_multipleMatches_iff (drain_evaluate_ne_multipleMatches _ _ _)
  · obtain ⟨found, hall, htoken⟩ := Json.exists_selectTokens_eq_ok root hcompile
    refine ⟨found, hall, ?_⟩
    rw [htoken]
    rcases found with _ | ⟨node, _ | ⟨second, more⟩⟩ <;>
      simp [Nodes.onlyMatch, Except.mapError]

/-- An error after the second match, one after the first, several matches of an expression, and an
expression that does not compile. -/
theorem selectOne_iff_late_error :
    let root : Json := .array [.null, .boolean true]
    let many : Path := ⟨"$[0,1,7]", [.elements [0, 1, 7]]⟩
    let one : Path := ⟨"$[0,7,1]", [.elements [0, 7, 1]]⟩
    many.selectOne true root = .error .multipleMatches ∧
      (one.evaluate true root).drain.1.length < 2 ∧
      one.selectOne true root = .error (.indexOutOfBounds 7) ∧
      (∃ compiled, Path.compile "$[*]" = .ok compiled) ∧
      root.selectToken "$[*]" = .error (.evaluation .multipleMatches) ∧
      ∃ error, Path.compile "$[" = .error error ∧
        root.selectToken "$[" = .error (.path error) ∧
        root.selectTokens "$[" = .error (.path error) := by
  intro root many one
  have hmany : (many.evaluate true root).drain =
      ([.null, .boolean true], some (.indexOutOfBounds 7)) := rfl
  have hone : (one.evaluate true root).drain = ([.null], some (.indexOutOfBounds 7)) := rfl
  have hlength : (one.evaluate true root).drain.1.length < 2 := by
    rw [hone]
    decide
  have hrun : ((Path.compile "$[*]").map fun _ => ()) = .ok () := by
    decide +kernel
  have hcount : (root.selectTokens "$[*]").toOption.map List.length = some 2 := by
    decide +kernel
  have hrefused : (Path.compile "$[").toOption.isNone = true := by
    decide +kernel
  obtain ⟨compiled, hcompile, -⟩ := map_eq_ok_iff.mp hrun
  obtain ⟨hseveral, -⟩ := selectOne_iff many true root
  obtain ⟨-, hfails, -, -, hexpression⟩ := selectOne_iff one true root
  obtain ⟨found, hall, -, -, htoken⟩ := (hexpression "$[*]").2 compiled hcompile
  have hfound : found.length = 2 := by
    rw [hall] at hcount
    exact Option.some.inj hcount
  refine ⟨hseveral.mpr (by rw [hmany]; decide), hlength, (hfails hlength _).mpr (by rw [hone]),
    ⟨compiled, hcompile⟩, htoken.mpr (Nat.le_of_eq hfound.symm), ?_⟩
  cases herror : Path.compile "$[" with
  | ok compiled =>
    rw [herror] at hrefused
    contradiction
  | error error => exact ⟨error, rfl, (hexpression "$[").1 error herror⟩

end JsonSelect
