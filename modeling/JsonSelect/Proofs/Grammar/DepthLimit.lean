import Mathlib.Tactic.Common
import JsonSelect.Proofs.Grammar.Compiled

/-!
# The limit on nesting

How deeply filters may be nested is limited, and the limit has no other effect.  To see that, the
same text is read twice, by a reader with fewer levels of nesting left and by a *wider* one with
at least as many.  `Guarded` relates the two outcomes: they are the same, or the first reader
refuses the text as nested too deep, and then the second one reads nothing that is nested as the
levels of the first allow.

The relation passes through the ways in which readers are put together (`Guarded.map`,
`Guarded.bind`), so it is enough that it holds where levels are used up.  Together with the bound
on the depth of compiled paths it says for each limit what becomes of a text that compiles under
some limit (`compileWithin_eq_ok_of_depth_le`, `exists_tooDeep_of_lt_depth`).
-/

namespace JsonSelect

variable {α β : Type} {limit limit' levels : Nat}

/-! ### Two readings of a text -/

/-- The outcome of a reader beside that of a wider one.  What the first reader refuses as nested
too deep does not fit into its levels. -/
def Guarded (limit : Nat) (fits : α → Prop) (outcome wider : Except Failure α) : Prop :=
  outcome = wider ∨
    (∃ rest, outcome = .error ⟨.tooDeep limit, rest⟩) ∧ ∀ a, wider = .ok a → ¬ fits a

/-- The same outcome twice. -/
theorem Guarded.refl {fits : α → Prop} (outcome : Except Failure α) :
    Guarded limit fits outcome outcome :=
  Or.inl rfl

/-- Whatever fits after a change has to fit before. -/
theorem Guarded.map {fits : α → Prop} {fits' : β → Prop} {outcome wider : Except Failure α}
    (h : Guarded limit fits outcome wider) {f : α → β} (hf : ∀ a, fits' (f a) → fits a) :
    Guarded limit fits' (outcome.map f) (wider.map f) := by
  rcases h with rfl | ⟨⟨rest, rfl⟩, hdeep⟩
  · exact .refl _
  · refine Or.inr ⟨⟨rest, rfl⟩, ?_⟩
    intro b hb hfits
    obtain ⟨a, ha, rfl⟩ := map_eq_ok_iff.mp hb
    exact hdeep a ha (hf a hfits)

/-- Whatever fits after two steps has to fit after the first. -/
theorem Guarded.bind {fits : α → Prop} {fits' : β → Prop} {outcome wider : Except Failure α}
    (h : Guarded limit fits outcome wider) {f f' : α → Except Failure β}
    (hf : ∀ a, wider = .ok a → Guarded limit fits' (f a) (f' a))
    (hfits : ∀ a b, f' a = .ok b → fits' b → fits a) :
    Guarded limit fits' (outcome.bind f) (wider.bind f') := by
  rcases h with rfl | ⟨⟨rest, rfl⟩, hdeep⟩
  · rcases outcome with failure | a
    · exact .refl _
    · exact hf a rfl
  · refine Or.inr ⟨⟨rest, rfl⟩, ?_⟩
    intro b hb hfits'
    obtain ⟨a, ha, hb⟩ := bind_eq_ok_iff.mp hb
    exact hdeep a ha (hfits a b hb hfits')

/-! ### Filters -/

/-- Whether a reader of conditions with some levels left is guarded beside a wider one. -/
def ConditionReader.Guarded (nested wider : ConditionReader) (limit levels : Nat) : Prop :=
  ∀ text, JsonSelect.Guarded limit (fun read => read.1.depth < levels)
    (nested.read text) (wider.read text)

section

variable {nested wider : ConditionReader} (hn : nested.Guarded wider limit levels)

include hn

/-- The conditions of a filter fit if each of them does. -/
theorem guarded_readConditions (text : List Char) :
    Guarded limit (fun read => conditionsDepth read.1 < levels)
      (readConditions nested text) (readConditions wider text) := by
  rw [readConditions_eq_bind, readConditions_eq_bind]
  apply (hn text).bind
  · rintro ⟨condition, _ | ⟨c, rest⟩⟩ hr
    · exact .refl _
    · dsimp only [afterCondition]
      split
      · exact .refl _
      · apply (guarded_readConditions (afterConnective c rest)).map
        rintro ⟨conditions, more⟩ hfits
        exact (Nat.max_lt.mp hfits).2
  · rintro ⟨condition, _ | ⟨c, rest⟩⟩ ⟨conditions, more⟩ hr hfits
    · contradiction
    · dsimp only [afterCondition] at hr
      split at hr
      · obtain ⟨rfl, -⟩ := Prod.mk.inj (Except.ok.inj hr)
        exact (Nat.max_lt.mp hfits).1
      · obtain ⟨⟨others, more⟩, -, hr⟩ := map_eq_ok_iff.mp hr
        obtain ⟨rfl, -⟩ := Prod.mk.inj hr
        exact (Nat.max_lt.mp hfits).1
termination_by text.length
decreasing_by
  have progress := wider.shortens hr
  have after := length_afterConnective_le c rest
  simp only [List.length_cons] at progress
  omega

/-- With more levels, a filter is read alike or was refused as nested too deep. -/
theorem guarded_readFilter (close : Char) (text : List Char) :
    Guarded limit (fun read => read.1.depth ≤ levels)
      (readFilter nested close text) (readFilter wider close text) := by
  unfold readFilter
  split
  · apply (guarded_readConditions hn _).bind
    · rintro ⟨conditions, rest⟩ _
      exact .refl _
    · rintro ⟨conditions, rest⟩ ⟨selector, more⟩ hr hfits
      obtain ⟨rfl, -⟩ := eq_of_closeIndexer hr
      exact hfits
  · exact .refl _

/-- Of the indexers only a filter is read with the help of the reader of conditions. -/
theorem guarded_readIndexer (close : Char) (text : List Char) :
    Guarded limit (fun read => read.1.depth ≤ levels)
      (readIndexer nested close text) (readIndexer wider close text) := by
  unfold readIndexer
  split
  · exact .refl _
  · exact .refl _
  · exact guarded_readFilter hn close _
  · exact .refl _

/-! ### Paths and conditions -/

/-- A path fits if each of its selectors does. -/
theorem guarded_readSegments (inFilter descending afterIndexer : Bool) (text : List Char) :
    Guarded limit (fun read => pathDepth read.1 ≤ levels)
      (readSegments nested inFilter descending afterIndexer text)
      (readSegments wider inFilter descending afterIndexer text) := by
  rcases text with _ | ⟨c, rest⟩
  · rw [readSegments_nil, readSegments_nil]
    exact .refl _
  by_cases hdot : c = '.'
  · subst hdot
    by_cases hnext : rest.head? = some '.'
    · obtain ⟨more, hmore⟩ := List.head?_eq_some_iff.mp hnext
      have shorter : more.length < rest.length := by
        rw [hmore]
        exact Nat.lt_succ_self _
      rw [hmore, readSegments_dots, readSegments_dots]
      exact guarded_readSegments inFilter true false more
    · rw [readSegments_dot hnext, readSegments_dot hnext]
      exact guarded_readSegments inFilter descending false rest
  · rw [readSegments_cons hdot, readSegments_cons hdot]
    split
    · apply (guarded_readIndexer hn (closerOf c) rest).bind
      · rintro ⟨selector, more⟩ hr
        have progress := length_lt_of_readIndexer hr
        apply (guarded_readSegments inFilter descending true more).map
        rintro ⟨selectors, more'⟩ hfits
        exact (Nat.max_le.mp hfits).2
      · rintro ⟨selector, more⟩ ⟨selectors, more'⟩ hr hfits
        obtain ⟨⟨others, more''⟩, -, hr⟩ := map_eq_ok_iff.mp hr
        obtain ⟨rfl, -⟩ := Prod.mk.inj hr
        exact (Nat.max_le.mp hfits).1
    · split
      · split
        · exact .refl _
        · have after := (List.dropWhile_sublist (p := isNameChar inFilter) (l := rest)).length_le
          apply (guarded_readSegments inFilter false false _).map
          rintro ⟨selectors, more⟩ hfits
          exact (Nat.max_le.mp hfits).2
      · exact .refl _
termination_by text.length
decreasing_by
  all_goals
    simp only [List.length_cons]
    omega

/-- A condition uses up one level. -/
theorem guarded_readCondition (text : List Char) :
    Guarded limit (fun read => read.1.depth < levels + 1)
      (readCondition nested text) (readCondition wider text) := by
  unfold readCondition
  split
  · exact .refl _
  · apply (guarded_readSegments hn true false false _).bind
    · rintro ⟨path, rest⟩ _
      exact .refl _
    · rintro ⟨path, rest⟩ ⟨condition, more⟩ hr hfits
      have hdepth : condition.depth = pathDepth path := depth_of_readComparison hr
      exact Nat.le_of_lt_succ (hdepth ▸ hfits)
  · exact .refl _

end

/-- A reader with fewer levels left is guarded beside one with more. -/
theorem guarded_conditionReader {levels levels' : Nat} (h : levels ≤ levels') :
    (conditionReader limit levels).Guarded (conditionReader limit' levels') limit levels := by
  induction levels generalizing levels' with
  | zero =>
    intro text
    refine Or.inr ⟨⟨text, rfl⟩, ?_⟩
    intro read _ hfits
    exact absurd hfits (Nat.not_lt_zero _)
  | succ levels ih =>
    cases levels' with
    | zero => exact absurd h (Nat.not_succ_le_zero _)
    | succ levels' => exact guarded_readCondition (ih (Nat.le_of_succ_le_succ h))

/-! ### Whole expressions -/

section

variable (h : limit ≤ limit')

include h

/-- A path that fills the text is guarded like its segments. -/
theorem guarded_readWholePath (text : List Char) :
    Guarded limit (fun path => pathDepth path ≤ limit)
      (readWholePath limit text) (readWholePath limit' text) := by
  rw [readWholePath_eq_bind, readWholePath_eq_bind]
  apply (guarded_readSegments (guarded_conditionReader h) false false false text).bind
  · rintro ⟨selectors, rest⟩ _
    exact .refl _
  · rintro ⟨selectors, rest⟩ path hr hfits
    dsimp only at hr
    split at hr
    · obtain rfl := Except.ok.inj hr
      exact hfits
    · contradiction

/-- An expression is guarded like its path, with or without a `$` before it. -/
theorem guarded_readExpression (text : List Char) :
    Guarded limit (fun path => pathDepth path ≤ limit)
      (readExpression limit text) (readExpression limit' text) := by
  unfold readExpression
  split
  · unfold readAfterRoot
    split
    · exact .refl _
    · split
      · exact guarded_readWholePath h _
      · exact .refl _
  · exact guarded_readWholePath h _

end

/-! ### Compiling -/

section

variable {expression : String} {path : List Selector}

/-- Under the lower of two limits an expression compiles as under the higher one, or it is nested
too deep for it. -/
theorem compileWithin_eq_or_tooDeep (h : limit ≤ limit') (expression : String) :
    compileWithin limit expression = compileWithin limit' expression ∨
      (∃ position, compileWithin limit expression = .error ⟨.tooDeep limit, position⟩) ∧
        ∀ path, compileWithin limit' expression = .ok path → ¬ pathDepth path ≤ limit := by
  rcases guarded_readExpression h expression.toList with heq | ⟨⟨rest, herror⟩, hdeep⟩
  · refine Or.inl ?_
    rw [compileWithin, compileWithin, heq]
  · refine Or.inr ⟨⟨expression.toList.length - rest.length, ?_⟩, ?_⟩
    · rw [compileWithin, herror]
      rfl
    · intro path hpath
      exact hdeep path (compileWithin_eq_ok_iff.mp hpath)

/-- The filters of a compiled path keep the limit. -/
theorem depth_le_of_compileWithin (h : compileWithin limit expression = .ok path) :
    pathDepth path ≤ limit :=
  (wellFormed_of_readExpression (compileWithin_eq_ok_iff.mp h)).2

/-- An expression that compiles under some limit compiles in the same way under every limit that
the filters of its path keep. -/
theorem compileWithin_eq_ok_of_depth_le (h : compileWithin limit' expression = .ok path)
    (hd : pathDepth path ≤ limit) : compileWithin limit expression = .ok path := by
  rcases Nat.le_total limit limit' with hle | hle
  · rcases compileWithin_eq_or_tooDeep hle expression with heq | ⟨-, hdeep⟩
    · exact heq.trans h
    · exact absurd hd (hdeep path h)
  · rcases compileWithin_eq_or_tooDeep hle expression with heq | ⟨⟨position, herror⟩, -⟩
    · exact heq.symm.trans h
    · exact absurd (h.symm.trans herror) (by simp)

/-- Under every other limit it is nested too deep. -/
theorem exists_tooDeep_of_lt_depth (h : compileWithin limit' expression = .ok path)
    (hd : limit < pathDepth path) :
    ∃ position, compileWithin limit expression = .error ⟨.tooDeep limit, position⟩ := by
  have hle : limit ≤ limit' := Nat.le_of_lt (Nat.lt_of_lt_of_le hd (depth_le_of_compileWithin h))
  rcases compileWithin_eq_or_tooDeep hle expression with heq | ⟨hdeep, -⟩
  · have hkept : pathDepth path ≤ limit := depth_le_of_compileWithin (heq.trans h)
    exact absurd hd (Nat.not_lt.mpr hkept)
  · exact hdeep

end

/-- Of two limits the lower one changes nothing about an expression, or it is what the expression
is refused for.  Which of the two it is depends, for an expression that compiles under the higher
limit, only on how deeply the filters of its path are nested. -/
theorem compileWithin_of_limit_le (h : limit ≤ limit') (expression : String) :
    (compileWithin limit expression = compileWithin limit' expression ∨
      ∃ position, compileWithin limit expression = .error ⟨.tooDeep limit, position⟩) ∧
    ∀ path, compileWithin limit' expression = .ok path →
      (pathDepth path ≤ limit → compileWithin limit expression = .ok path) ∧
      (limit < pathDepth path →
        ∃ position, compileWithin limit expression = .error ⟨.tooDeep limit, position⟩) := by
  refine ⟨(compileWithin_eq_or_tooDeep h expression).imp_right And.left, ?_⟩
  intro path hpath
  exact ⟨compileWithin_eq_ok_of_depth_le hpath, exists_tooDeep_of_lt_depth hpath⟩

/-- Two filters side by side and one inside the second: two levels are enough, one is not. -/
theorem compileWithin_of_limit_le_nested :
    let expression := "$[?(@.b > 1 && @.a)]..x[?(@[?(@.c)])]"
    1 ≤ 2 ∧ ∃ path, compileWithin 2 expression = .ok path ∧ 1 < pathDepth path ∧
      ∃ position, compileWithin 1 expression = .error ⟨.tooDeep 1, position⟩ := by
  intro expression
  have hrun : (compileWithin 2 expression).toOption.map pathDepth = some 2 := by
    decide +kernel
  have hle : 1 ≤ 2 := by decide
  cases h : compileWithin 2 expression with
  | error error =>
    rw [h] at hrun
    cases hrun
  | ok path =>
    have hdepth : pathDepth path = 2 := by
      rw [h] at hrun
      exact Option.some.inj hrun
    have hdeep : 1 < pathDepth path := hdepth ▸ Nat.lt_succ_self 1
    have hguard := (compileWithin_of_limit_le hle expression).2 path h
    exact ⟨hle, path, rfl, hdeep, hguard.2 hdeep⟩

end JsonSelect
