import JsonSelect.Check
import JsonSelect.Proofs.Evaluation.Strictness

/-!
# How a check ends

A check goes through its stages in order, and the first one that fails is the answer (`CheckEnds`):
the expression has to compile, there has to be an input, the input has to be a document, and the
evaluation has to come to its end without an error.  An error of the evaluation is the answer even
if matches come before it, so that a check gives all matches or none.

Strictness only adds errors.  What a strict check finds, the same check finds without it
(`check_lenient`).
-/

namespace JsonSelect

/-! ### Stages -/

/-- How a check ends, stage by stage. -/
inductive CheckEnds (request : CheckRequest) : Except CommandError CheckResult → Prop where
  /-- The expression does not compile. -/
  | path {error : PathError} (hcompile : Path.compile request.expression = .error error) :
    CheckEnds request (.error (.path error))
  /-- Nothing but the expression is of interest. -/
  | valid {path : Path} (hcompile : Path.compile request.expression = .ok path)
    (honly : request.expressionOnly = true) :
    CheckEnds request (.ok (.valid path.selectors.length))
  /-- There is no input. -/
  | noInput {path : Path} (hcompile : Path.compile request.expression = .ok path)
    (honly : request.expressionOnly = false) (hinput : request.input = none) :
    CheckEnds request (.error .noInput)
  /-- The input is no document. -/
  | invalidDocument {path : Path} {text : String}
    (hcompile : Path.compile request.expression = .ok path)
    (honly : request.expressionOnly = false) (hinput : request.input = some text)
    (hread : Json.read? text = none) : CheckEnds request (.error .invalidDocument)
  /-- The evaluation yields an error, after any number of matches. -/
  | evaluation {path : Path} {text : String} {document : Json} {found : List Json}
    {error : EvaluationError} (hcompile : Path.compile request.expression = .ok path)
    (honly : request.expressionOnly = false) (hinput : request.input = some text)
    (hread : Json.read? text = some document)
    (hitems : (path.evaluate request.strict document).items = found.map .ok ++ [.error error]) :
    CheckEnds request (.error (.evaluation error))
  /-- The evaluation yields matches only. -/
  | matched {path : Path} {text : String} {document : Json} {found : List Json}
    (hcompile : Path.compile request.expression = .ok path)
    (honly : request.expressionOnly = false) (hinput : request.input = some text)
    (hread : Json.read? text = some document)
    (hitems : (path.evaluate request.strict document).items = found.map .ok) :
    CheckEnds request (.ok (.matched (.array found)))

/-! ### The stages of the evaluation -/

/-- Matches before some items are drained before them. -/
theorem drained_map_ok_append (found : List Json) (items : List Item) :
    drained (found.map .ok ++ items) = (found ++ (drained items).1, (drained items).2) := by
  induction found with
  | nil => rfl
  | cons node rest ih => rw [List.map_cons, List.cons_append, drained, ih]; rfl

namespace Nodes

/-- Draining the items of a sequence drains the sequence. -/
theorem drained_items (nodes : Nodes) : drained nodes.items = nodes.drain := by
  rw [items_eq_upToError, drained_upToError, drain, Event.drain_eq_drained]

/-- A sequence gives all matches if it yields nothing else. -/
theorem toList_eq_ok_iff {nodes : Nodes} {found : List Json} :
    nodes.toList = .ok found ↔ nodes.items = found.map .ok := by
  constructor
  · intro h
    unfold toList at h
    split at h
    · next matched hdrain =>
      obtain rfl := Except.ok.inj h
      rw [items, hdrain]
      exact List.append_nil _
    · contradiction
  · intro h
    rw [toList, ← drained_items, h, drained_map_ok]

/-- A sequence gives an error if it yields one, whatever comes before it. -/
theorem toList_eq_error_iff {nodes : Nodes} {error : EvaluationError} :
    nodes.toList = .error error ↔
      ∃ found : List Json, nodes.items = found.map .ok ++ [.error error] := by
  constructor
  · intro h
    unfold toList at h
    split at h
    · contradiction
    · next matched other hdrain =>
      obtain rfl := Except.error.inj h
      exact ⟨matched, by rw [items, hdrain]; rfl⟩
  · rintro ⟨found, h⟩
    rw [toList, ← drained_items, h, drained_map_ok_append]
    rfl

end Nodes

/-- What the stages find is what a check answers. -/
theorem CheckEnds.check_eq {request : CheckRequest} {outcome : Except CommandError CheckResult}
    (h : CheckEnds request outcome) : check request = outcome := by
  cases h with
  | path hcompile => simp only [check, hcompile]
  | valid hcompile honly => simp only [check, hcompile, honly, if_true]
  | noInput hcompile honly hinput =>
    simp only [check, hcompile, honly, Bool.false_eq_true, if_false, checkInput, hinput]
  | invalidDocument hcompile honly hinput hread =>
    simp only [check, hcompile, honly, Bool.false_eq_true, if_false, checkInput, hinput, hread]
  | evaluation hcompile honly hinput hread hitems =>
    simp only [check, hcompile, honly, Bool.false_eq_true, if_false, checkInput, hinput, hread,
      Nodes.toList_eq_error_iff.mpr ⟨_, hitems⟩]
  | matched hcompile honly hinput hread hitems =>
    simp only [check, hcompile, honly, Bool.false_eq_true, if_false, checkInput, hinput, hread,
      Nodes.toList_eq_ok_iff.mpr hitems]

/-- The answer of a check is how its stages end. -/
theorem checkEnds_check (request : CheckRequest) : CheckEnds request (check request) := by
  unfold check
  split
  · next hcompile => exact .path hcompile
  · next path hcompile =>
    split
    · next honly => exact .valid hcompile honly
    · next honly =>
      have hfull : request.expressionOnly = false := Bool.eq_false_iff.mpr honly
      unfold checkInput
      split
      · next hinput => exact .noInput hcompile hfull hinput
      · next text hinput =>
        split
        · next hread => exact .invalidDocument hcompile hfull hinput hread
        · next document hread =>
          split
          · next error herror =>
            obtain ⟨found, hitems⟩ := Nodes.toList_eq_error_iff.mp herror
            exact .evaluation hcompile hfull hinput hread hitems
          · next found hfound =>
            exact .matched hcompile hfull hinput hread (Nodes.toList_eq_ok_iff.mp hfound)

/-- A check answers what its stages come to. -/
theorem check_eq_iff {request : CheckRequest} {outcome : Except CommandError CheckResult} :
    check request = outcome ↔ CheckEnds request outcome :=
  ⟨fun h => h ▸ checkEnds_check request, CheckEnds.check_eq⟩

/-! ### What an answer depends on -/

/-- Where only the expression is of interest, nothing else matters. -/
theorem check_expressionOnly {request other : CheckRequest}
    (hexpression : request.expression = other.expression) (honly : request.expressionOnly = true)
    (hother : other.expressionOnly = true) : check request = check other := by
  simp only [check, hexpression, honly, hother, if_true]

/-- What is found in spite of strictness is found without it. -/
theorem toList_evaluate_lenient {path : List Selector} {root : Json} {found : List Json}
    (h : (evaluate true path root).toList = .ok found) :
    (evaluate false path root).toList = .ok found := by
  rcases (drain_evaluate_strict path root).1 with hsame | ⟨error, herror, -, -⟩
  · rwa [Nodes.toList, ← hsame]
  · rw [Nodes.toList, ← Prod.eta (evaluate true path root).drain, herror] at h
    contradiction

/-- A check that succeeds in spite of strictness succeeds without it, with the same result. -/
theorem check_lenient {request : CheckRequest} {result : CheckResult}
    (h : check request = .ok result) : check { request with strict := false } = .ok result := by
  rw [check_eq_iff] at h ⊢
  cases h with
  | valid hcompile honly => exact .valid hcompile honly
  | @matched path text document found hcompile honly hinput hread hitems =>
    refine .matched hcompile honly hinput hread (Nodes.toList_eq_ok_iff.mp ?_)
    have hfound := Nodes.toList_eq_ok_iff.mpr hitems
    cases hstrict : request.strict with
    | false => rwa [hstrict] at hfound
    | true => exact toList_evaluate_lenient (hstrict ▸ hfound)

end JsonSelect
