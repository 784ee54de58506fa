import Mathlib.Tactic.Common
import JsonSelect.Path
import JsonSelect.Proofs.Evaluation.Strictness
import JsonSelect.Proofs.Grammar.DepthLimit

/-!
# Compiled paths do not fail

A path that comes out of an expression holds no slice with a step of zero, and such a slice is the
only thing that fails in a lenient evaluation.  So a compiled path is evaluated leniently without
any error, and the error that ends a strict evaluation is one for lack of a match.

To select in one step with an expression it has to be compiled within the default limit on
nesting, whatever limit it compiles under otherwise.  That is the one way in which a selection can
fail although the expression compiles (`selectTokens_nested_too_deep`).
-/

namespace JsonSelect

/-! ### Well-formed paths -/

section

variable {terms : Terms} {inFilter strict : Bool} {error : EvaluationError}

/-- A step that is given and not zero, or not given at all, moves. -/
theorem getD_step_ne_zero {step : Option Int64} (h : step ≠ some 0) : step.getD 1 ≠ 0 := by
  cases step with
  | none => decide
  | some step =>
    rintro rfl
    exact h rfl

/-- The errors of a well-formed selector are for lack of a match, in strict evaluations. -/
theorem Selector.isNoMatch_of_mem_items {selector : Selector}
    (hw : selector.WellFormed terms inFilter) {node : Json}
    (hmem : .error error ∈ selector.items strict node) :
    strict = true ∧ error.isNoMatch = true := by
  cases selector with
  | member name => exact (matchOutcome_memberEvents name node).isNoMatch_of_mem hmem
  | descent name => exact absurd hmem (error_not_mem_items_of_kind (Or.inl rfl) _ _ _)
  | element index => exact (matchOutcome_elementEvents index node).isNoMatch_of_mem hmem
  | elements indexes =>
    obtain ⟨index, -, hindex⟩ := List.mem_flatMap.mp hmem
    exact (matchOutcome_elementEvents (some index) node).isNoMatch_of_mem hindex
  | slice start stop step =>
    have hstep : step.getD 1 ≠ 0 := getD_step_ne_zero hw
    exact (matchOutcome_sliceEvents start stop hstep node).isNoMatch_of_mem hmem
  | filter conditions => exact absurd hmem (error_not_mem_items_of_kind (Or.inr rfl) _ _ _)

variable {path : List Selector} (hw : PathWellFormed terms inFilter path) (root : Json)

include hw

/-- The same is true of the error that ends the evaluation of a well-formed path. -/
theorem isNoMatch_of_drain_evaluate (h : (evaluate strict path root).drain.2 = some error) :
    strict = true ∧ error.isNoMatch = true := by
  rw [drain_evaluate] at h
  have hselectors : ∀ selector ∈ path, ∀ node other,
      .error other ∈ selector.items strict node → strict = true ∧ other.isNoMatch = true := by
    intro selector hm node other hmem
    exact Selector.isNoMatch_of_mem_items (hw.of_mem hm) hmem
  exact error_of_mem_pathItems hselectors (mem_of_drained_snd h)

/-- A lenient evaluation of a well-formed path ends without an error. -/
theorem drain_evaluate_lenient : (evaluate false path root).drain.2 = none := by
  cases h : (evaluate false path root).drain.2 with
  | none => rfl
  | some error => exact absurd (isNoMatch_of_drain_evaluate hw root h).1 Bool.false_ne_true

end

/-! ### Sequences without an error -/

namespace Nodes

variable {nodes : Nodes} (h : nodes.drain.2 = none)

include h

/-- All matches of a sequence that ends without an error. -/
theorem toList_eq_ok : nodes.toList = .ok nodes.drain.1 := by
  unfold toList
  split
  · next hd => rw [hd]
  · next hd =>
    rw [hd] at h
    contradiction

/-- Such a sequence has a single match or none, or there are several. -/
theorem eq_multipleMatches_of_single {error : EvaluationError}
    (hs : nodes.single = .error error) : error = .multipleMatches := by
  rw [single_eq_onlyMatch, h] at hs
  generalize nodes.drain.1 = found at hs
  rcases found with _ | ⟨node, _ | ⟨second, more⟩⟩
  · contradiction
  · contradiction
  · exact (Except.error.inj hs).symm

end Nodes

/-! ### Compiled expressions -/

section

variable {limit : Nat} {expression : String} {path : Path}

/-- The selectors of a compiled path are those of its expression. -/
theorem Path.compileWithin_eq_ok (h : Path.compileWithin limit expression = .ok path) :
    path.expression = expression ∧
      JsonSelect.compileWithin limit expression = .ok path.selectors := by
  obtain ⟨selectors, hselectors, rfl⟩ := map_eq_ok_iff.mp h
  exact ⟨rfl, hselectors⟩

/-- Within the default limit, selecting with an expression is selecting with its path. -/
theorem Path.compile_eq_ok (h : Path.compileWithin limit expression = .ok path)
    (hd : pathDepth path.selectors ≤ defaultDepthLimit) : Path.compile expression = .ok path := by
  obtain ⟨rfl, hselectors⟩ := Path.compileWithin_eq_ok h
  have hdefault := compileWithin_eq_ok_of_depth_le hselectors hd
  rw [Path.compile, Path.compileWithin, hdefault]
  rfl

/-- Beyond the default limit the expression is refused. -/
theorem Path.exists_compile_eq_tooDeep (h : Path.compileWithin limit expression = .ok path)
    (hd : defaultDepthLimit < pathDepth path.selectors) :
    ∃ position, Path.compile expression = .error ⟨.tooDeep defaultDepthLimit, position⟩ := by
  obtain ⟨rfl, hselectors⟩ := Path.compileWithin_eq_ok h
  obtain ⟨position, herror⟩ := exists_tooDeep_of_lt_depth hselectors hd
  refine ⟨position, ?_⟩
  rw [Path.compile, Path.compileWithin, herror]
  rfl

/-- An expression with filters nested one level deeper than the default limit compiles under a
higher limit, but not in order to select with it in one step. -/
theorem selectTokens_nested_too_deep :
    let expression :=
      "$" ++ String.join (List.replicate 33 "[?(@") ++ String.join (List.replicate 33 ")]")
    (∃ path, Path.compileWithin 33 expression = .ok path) ∧
      (Json.array []).selectTokens expression = .error (.path ⟨.tooDeep 32, 132⟩) := by
  intro expression
  have hhigh : ((Path.compileWithin 33 expression).map fun _ => ()) = .ok () := by
    decide +kernel
  have hdefault : ((Path.compile expression).map fun _ => ()) = .error ⟨.tooDeep 32, 132⟩ := by
    decide +kernel
  constructor
  · obtain ⟨path, hpath, -⟩ := map_eq_ok_iff.mp hhigh
    exact ⟨path, hpath⟩
  · rw [Json.selectTokens]
    cases hcompile : Path.compile expression with
    | ok path =>
      rw [hcompile] at hdefault
      cases hdefault
    | error error =>
      rw [hcompile] at hdefault
      obtain rfl : error = ⟨.tooDeep 32, 132⟩ := Except.error.inj hdefault
      rfl

/-- A compiled path is evaluated leniently without an error, so that all its matches are selected,
and the only one unless there are several.  A strict evaluation ends with no error but for lack of
a match.  Selecting in one step does the same if the filters of the path keep the default limit on
nesting, and refuses the expression otherwise. -/
theorem evaluate_of_compileWithin (h : Path.compileWithin limit expression = .ok path)
    (root : Json) :
    (path.evaluate false root).drain.2 = none ∧
    path.selectAll root = .ok (path.evaluate false root).drain.1 ∧
    (∀ error, path.selectOne false root = .error error → error = .multipleMatches) ∧
    (∀ error, (path.evaluate true root).drain.2 = some error → error.isNoMatch = true) ∧
    (pathDepth path.selectors ≤ defaultDepthLimit →
      root.selectTokens expression = .ok (path.evaluate false root).drain.1 ∧
      ∀ error, root.selectToken expression = .error error →
        error = .evaluation .multipleMatches) ∧
    (defaultDepthLimit < pathDepth path.selectors → ∃ position,
      root.selectTokens expression =
        .error (.path ⟨.tooDeep defaultDepthLimit, position⟩) ∧
      root.selectToken expression =
        .error (.path ⟨.tooDeep defaultDepthLimit, position⟩)) := by
  obtain ⟨-, hselectors⟩ := Path.compileWithin_eq_ok h
  have hw := (wellFormed_of_readExpression (compileWithin_eq_ok_iff.mp hselectors)).1
  have hlenient : (path.evaluate false root).drain.2 = none := drain_evaluate_lenient hw root
  have hall : path.selectAll root = .ok (path.evaluate false root).drain.1 :=
    Nodes.toList_eq_ok hlenient
  have hone : ∀ error, path.selectOne false root = .error error → error = .multipleMatches := by
    intro error herror
    exact Nodes.eq_multipleMatches_of_single hlenient herror
  refine ⟨hlenient, hall, hone, ?_, ?_, ?_⟩
  · intro error herror
    exact (isNoMatch_of_drain_evaluate hw root herror).2
  · intro hd
    have hcompile : Path.compile expression = .ok path := Path.compile_eq_ok h hd
    constructor
    · rw [Json.selectTokens, hcompile]
      change (path.selectAll root).mapError SelectionError.evaluation = _
      rw [hall]
      rfl
    · intro error herror
      rw [Json.selectToken, hcompile] at herror
      change (path.selectOne false root).mapError SelectionError.evaluation = _ at herror
      cases hresult : path.selectOne false root with
      | ok node =>
        rw [hresult] at herror
        contradiction
      | error other =>
        rw [hresult] at herror
        obtain rfl : SelectionError.evaluation other = error := Except.error.inj herror
        rw [hone other hresult]
  · intro hd
    obtain ⟨position, herror⟩ := Path.exists_compile_eq_tooDeep h hd
    refine ⟨position, ?_, ?_⟩
    · rw [Json.selectTokens, herror]
      rfl
    · rw [Json.selectToken, herror]
      rfl

end

/-- A slice that moves backwards, and another one in a filter. -/
theorem evaluate_of_compileWithin_slices :
    let root : Json := .array [.array [.null], .array [.null, .boolean true]]
    ∃ path, Path.compileWithin 1 "$[::-1][?(@[1::2] == true)]" = .ok path ∧
      (path.evaluate false root).drain.2 = none ∧
      ∀ error, (path.evaluate true root).drain.2 = some error → error.isNoMatch = true := by
  intro root
  have hrun : ((Path.compileWithin 1 "$[::-1][?(@[1::2] == true)]").map fun _ => ()) = .ok () := by
    decide +kernel
  obtain ⟨path, hpath, -⟩ := map_eq_ok_iff.mp hrun
  obtain ⟨hlenient, -, -, hstrict, -⟩ := evaluate_of_compileWithin hpath root
  exact ⟨path, hpath, hlenient, hstrict⟩

end JsonSelect
