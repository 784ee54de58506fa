import JsonSelect.Selector.Basic

/-!
# Nesting of filters

A path without filters has depth zero. A filter is one level deeper than the deepest path of its
conditions, and a path is as deep as the deepest of its selectors.
-/

namespace JsonSelect

mutual

/-- How deeply filters are nested in a selector; a filter counts one more than the paths of its
conditions. -/
def Selector.depth : Selector → Nat
  | .filter conditions => conditionsDepth conditions + 1
  | _ => 0
termination_by structural s => s

/-- How deeply filters are nested in a path. -/
def pathDepth : List Selector → Nat
  | [] => 0
  | selector :: rest => max selector.depth (pathDepth rest)
termination_by structural path => path

/-- How deeply filters are nested in a condition. -/
def Condition.depth : Condition → Nat
  | .mk path _ _ => pathDepth path
termination_by structural c => c

/-- How deeply filters are nested in some of the conditions. -/
def conditionsDepth : List Condition → Nat
  | [] => 0
  | condition :: rest => max condition.depth (conditionsDepth rest)
termination_by structural conditions => conditions

end

end JsonSelect
