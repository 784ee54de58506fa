import Mathlib.Tactic.Common
import JsonSelect.Proofs.Evaluation.DepthFirst

/-!
# The algebra of comparisons

A comparison holds if some scalar that its path selects before the first error compares as it should
(`holds_comparison_iff`).  "Some" distributes over the parts that an operator is made of, so that
`<=` is still `<` or `==` (`holds_atMost_iff`).  It does not distribute over negation: `==` and `!=`
hold together if one candidate is equal and another one is not, and neither of them holds without a
candidate.  With a single candidate the operators are what they are between two values
(`holds_unequal_iff_of_drain_eq`).

Containers are no candidates.  A scalar of another kind than the literal has no order relative to it
and is unequal, and nothing else.
-/

namespace JsonSelect

/-! ### A single scalar -/

/-- The kind of the nodes that a literal has an order with. -/
def Literal.kind : Literal → Json.Kind
  | null => .null
  | boolean _ => .boolean
  | integer _ => .number
  | float _ => .number
  | string _ => .string

/-- A node of another kind has no order relative to a literal. -/
theorem Literal.order?_eq_none_of_kind_ne {literal : Literal} {node : Json}
    (h : node.kind ≠ literal.kind) : literal.order? node = none := by
  cases literal <;> cases node <;> first | rfl | exact absurd rfl h

namespace Operator

@[simp] theorem accepts_atMost (order : Option Ordering) :
    atMost.accepts order = (less.accepts order || equal.accepts order) := rfl

@[simp] theorem accepts_atLeast (order : Option Ordering) :
    atLeast.accepts order = (greater.accepts order || equal.accepts order) := rfl

/-- Unequal is not equal, also where there is no order. -/
@[simp] theorem accepts_unequal (order : Option Ordering) :
    unequal.accepts order = !equal.accepts order := rfl

/-- Two values are in one order at most. -/
theorem eq_of_accepts {a b : Operator} (ha : a ∈ [less, equal, greater])
    (hb : b ∈ [less, equal, greater]) {order : Option Ordering} (hacceptsA : a.accepts order = true)
    (hacceptsB : b.accepts order = true) : a = b := by
  simp only [List.mem_cons, List.not_mem_nil, or_false] at ha hb
  rcases ha with rfl | rfl | rfl <;> rcases hb with rfl | rfl | rfl
  all_goals
    first
      | rfl
      | exact absurd ((eq_of_beq hacceptsA).symm.trans (eq_of_beq hacceptsB)) (by decide)

/-- Without an order two values are unequal. -/
theorem eq_unequal_of_accepts_none {operator : Operator} (hpresent : operator ≠ .present)
    (h : operator.accepts none = true) : operator = .unequal := by
  cases operator with
  | present => exact absurd rfl hpresent
  | unequal => rfl
  | _ => exact absurd h (by decide)

/-- A literal is compared with scalars only. -/
theorem acceptsNode_some {operator : Operator} (hpresent : operator ≠ .present) (literal : Literal)
    (node : Json) : operator.acceptsNode (some literal) node =
      (!node.isContainer && operator.accepts (literal.order? node)) := by
  cases operator with
  | present => exact absurd rfl hpresent
  | _ => rfl

end Operator

/-! ### Any number of candidates -/

section

variable {path : List Selector} {literal : Literal} {node : Json} {operator : Operator}

/-- A condition holds if its operator accepts a node that its path selects before the first error.
-/
theorem Condition.holds_mk_iff (literal : Option Literal) :
    (Condition.mk path operator literal).holds node = true ↔
      ∃ found ∈ (evaluate false path node).drain.1, operator.acceptsNode literal found = true := by
  rw [holds, test_snd, satisfied, drain_evaluate, List.any_eq_true]

/-- A comparison holds if one of the scalars that the path selects is accepted. -/
theorem holds_comparison_iff (hpresent : operator ≠ .present) :
    (Condition.comparison path operator literal).holds node = true ↔
      ∃ found ∈ (evaluate false path node).drain.1, found.isContainer = false ∧
        operator.accepts (literal.order? found) = true := by
  rw [Condition.comparison, Condition.holds_mk_iff]
  simp only [Operator.acceptsNode_some hpresent, Bool.and_eq_true, Bool.not_eq_true']

/-- A condition on presence holds if anything is selected. -/
theorem holds_presence_iff :
    (Condition.presence path).holds node = true ↔ (evaluate false path node).drain.1 ≠ [] := by
  rw [Condition.presence, Condition.holds_mk_iff]
  constructor
  · rintro ⟨found, hfound, -⟩
    exact List.ne_nil_of_mem hfound
  · intro hne
    obtain ⟨found, hfound⟩ := List.exists_mem_of_ne_nil _ hne
    exact ⟨found, hfound, rfl⟩

/-- What is accepted by one operator exactly if it is accepted by one of two others is so of some
candidate, too. -/
theorem holds_comparison_iff_or {first second : Operator} (hpresent : operator ≠ .present)
    (hfirst : first ≠ .present) (hsecond : second ≠ .present)
    (haccepts : ∀ order, operator.accepts order = (first.accepts order || second.accepts order)) :
    (Condition.comparison path operator literal).holds node = true ↔
      (Condition.comparison path first literal).holds node = true ∨
        (Condition.comparison path second literal).holds node = true := by
  rw [holds_comparison_iff hpresent, holds_comparison_iff hfirst, holds_comparison_iff hsecond,
    ← exists_or]
  simp only [haccepts, Bool.or_eq_true, and_or_left]

/-- A comparison with at most holds if one with less or one with equal does. -/
theorem holds_atMost_iff :
    (Condition.comparison path .atMost literal).holds node = true ↔
      (Condition.comparison path .less literal).holds node = true ∨
        (Condition.comparison path .equal literal).holds node = true :=
  holds_comparison_iff_or (by decide) (by decide) (by decide) Operator.accepts_atMost

/-- A comparison with at least holds if one with greater or one with equal does. -/
theorem holds_atLeast_iff :
    (Condition.comparison path .atLeast literal).holds node = true ↔
      (Condition.comparison path .greater literal).holds node = true ∨
        (Condition.comparison path .equal literal).holds node = true :=
  holds_comparison_iff_or (by decide) (by decide) (by decide) Operator.accepts_atLeast

/-- A scalar is equal or unequal. -/
theorem holds_equal_or_holds_unequal_iff :
    (Condition.comparison path .equal literal).holds node = true ∨
        (Condition.comparison path .unequal literal).holds node = true ↔
      ∃ found ∈ (evaluate false path node).drain.1, found.isContainer = false := by
  rw [holds_comparison_iff (by decide), holds_comparison_iff (by decide), ← exists_or]
  simp only [Operator.accepts_unequal, ← and_or_left]
  simp

/-- What compares with a literal is there. -/
theorem holds_presence_of_holds
    (h : (Condition.comparison path operator literal).holds node = true) :
    (Condition.presence path).holds node = true := by
  obtain ⟨found, hfound, -⟩ := (Condition.holds_mk_iff _).mp h
  exact holds_presence_iff.mpr (List.ne_nil_of_mem hfound)

/-! ### A single candidate -/

/-- A single scalar is compared as it is. -/
theorem holds_comparison_iff_of_drain_eq {scalar : Json}
    (hdrain : (evaluate false path node).drain.1 = [scalar]) (hscalar : scalar.isContainer = false)
    (hpresent : operator ≠ .present) :
    (Condition.comparison path operator literal).holds node = true ↔
      operator.accepts (literal.order? scalar) = true := by
  rw [holds_comparison_iff hpresent, hdrain]
  simp [hscalar]

/-- For a single scalar, unequal holds exactly if equal does not. -/
theorem holds_unequal_iff_of_drain_eq {scalar : Json}
    (hdrain : (evaluate false path node).drain.1 = [scalar])
    (hscalar : scalar.isContainer = false) :
    (Condition.comparison path .unequal literal).holds node = true ↔
      ¬(Condition.comparison path .equal literal).holds node = true := by
  rw [holds_comparison_iff_of_drain_eq hdrain hscalar (by decide),
    holds_comparison_iff_of_drain_eq hdrain hscalar (by decide), Operator.accepts_unequal,
    Bool.not_eq_true', Bool.not_eq_true]

/-- For a single scalar, at most one of less, equal and greater holds. -/
theorem eq_of_holds_of_drain_eq {scalar : Json}
    (hdrain : (evaluate false path node).drain.1 = [scalar]) (hscalar : scalar.isContainer = false)
    {a b : Operator} (ha : a ∈ [Operator.less, .equal, .greater])
    (hb : b ∈ [Operator.less, .equal, .greater])
    (hholdsA : (Condition.comparison path a literal).holds node = true)
    (hholdsB : (Condition.comparison path b literal).holds node = true) : a = b := by
  have hpresent : ∀ c ∈ [Operator.less, .equal, .greater], c ≠ .present := by simp
  rw [holds_comparison_iff_of_drain_eq hdrain hscalar (hpresent _ ‹_›)] at hholdsA hholdsB
  exact Operator.eq_of_accepts ha hb hholdsA hholdsB

/-! ### Candidates of other kinds -/

/-- Scalars of other kinds than the literal are unequal to it. -/
theorem eq_unequal_of_holds
    (hkind : ∀ found ∈ (evaluate false path node).drain.1, found.isContainer = false →
      found.kind ≠ literal.kind) (hpresent : operator ≠ .present)
    (h : (Condition.comparison path operator literal).holds node = true) : operator = .unequal := by
  obtain ⟨found, hfound, hscalar, haccepts⟩ := (holds_comparison_iff hpresent).mp h
  rw [Literal.order?_eq_none_of_kind_ne (hkind found hfound hscalar)] at haccepts
  exact Operator.eq_unequal_of_accepts_none hpresent haccepts

end

/-- The laws of the operators at a node, for a path with any number of candidates: `<=` and `>=`
have the parts that they say, `==` and `!=` together ask for a scalar, and every comparison asks for
a node. If a scalar is all that is selected, then `!=` is the negation of `==`, and it is in one
order at most. If the literal is of another kind than every scalar that is selected, only `!=` can
hold. -/
theorem holds_comparison_laws (path : List Selector) (literal : Literal) (node : Json) :
    let holds := fun operator => (Condition.comparison path operator literal).holds node = true
    let selected := (evaluate false path node).drain.1
    (holds .atMost ↔ holds .less ∨ holds .equal) ∧
      (holds .atLeast ↔ holds .greater ∨ holds .equal) ∧
      (holds .equal ∨ holds .unequal ↔ ∃ found ∈ selected, found.isContainer = false) ∧
      (∀ operator, holds operator → (Condition.presence path).holds node = true) ∧
      (∀ scalar, selected = [scalar] → scalar.isContainer = false →
        (holds .unequal ↔ ¬holds .equal) ∧
          ∀ a ∈ [Operator.less, .equal, .greater], ∀ b ∈ [Operator.less, .equal, .greater],
            holds a → holds b → a = b) ∧
      ((∀ found ∈ selected, found.isContainer = false → found.kind ≠ literal.kind) →
        ∀ operator, operator ≠ .present → holds operator → operator = .unequal) := by
  intro holds selected
  refine ⟨holds_atMost_iff, holds_atLeast_iff, holds_equal_or_holds_unequal_iff,
    fun _ => holds_presence_of_holds, fun scalar hdrain hscalar => ⟨?_, ?_⟩, ?_⟩
  · exact holds_unequal_iff_of_drain_eq hdrain hscalar
  · exact fun a ha b hb => eq_of_holds_of_drain_eq hdrain hscalar ha hb
  · exact fun hkind operator => eq_unequal_of_holds hkind

/-- The elements of `[1, "a"]` compared with one: `==` and `!=` hold together.  The second element
alone is of another kind than the literal, so that `!=` holds and `==` does not. -/
theorem holds_comparison_laws_mixed :
    let node : Json := .array [.number (.integer 1 (by decide)), .string "a"]
    let second : List Selector := [.element (some 1)]
    ((Condition.comparison [.element none] .equal (.integer 1)).holds node = true ∧
      (Condition.comparison [.element none] .unequal (.integer 1)).holds node = true) ∧
    (evaluate false second node).drain.1 = [.string "a"] ∧
    (∀ found ∈ (evaluate false second node).drain.1, found.isContainer = false →
      found.kind ≠ (Literal.integer 1).kind) ∧
    (Condition.comparison second .unequal (.integer 1)).holds node = true ∧
    ¬(Condition.comparison second .equal (.integer 1)).holds node = true := by
  intro node second
  obtain ⟨-, -, -, -, hsingle, hother⟩ := holds_comparison_laws second (.integer 1) node
  have hdrain : (evaluate false second node).drain.1 = [.string "a"] := by
    rw [drain_evaluate]
    rfl
  have hkind : ∀ found ∈ (evaluate false second node).drain.1, found.isContainer = false →
      found.kind ≠ (Literal.integer 1).kind := by
    rw [hdrain]
    simp [Json.kind, Literal.kind]
  have hequal : ¬(Condition.comparison second .equal (.integer 1)).holds node = true := by
    intro h
    exact absurd (hother hkind .equal (by decide) h) (by decide)
  refine ⟨⟨rfl, rfl⟩, hdrain, hkind, ?_, hequal⟩
  exact (hsingle _ hdrain rfl).1.mpr hequal

end JsonSelect
