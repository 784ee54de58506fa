import Mathlib.Tactic.Common
import JsonSelect.Proofs.Evaluation.SliceRange

/-!
# Elements by index and by slice

An element can be selected by its index, or by the slice from that index to the next one.  The two
are computed in different ways: an index is resolved against the length of the array as a whole,
whereas the bounds of a slice are counted from the end and then moved to the nearest places, each on
its own.  Both come down to one condition on the integers, `IsIndexOf`: as far as the length of the
array goes, counted from either end, an index stands for the place that it leaves when it is reduced
by the length (`Json.element?_of_isIndexOf`, `SteppedRange.toList_ofSlice_of_isIndexOf`).  Further
away there is no element and the slice is empty.

The slice from the last index has no stop, since the integer after `-1` is the first place.
-/

namespace JsonSelect

/-- Whether an integer is an index of a sequence of the given length, counted from either end. -/
def IsIndexOf (length : Nat) (i : Int) : Prop :=
  -(length : Int) ≤ i ∧ i < length

/-- An index counted from the end is the place that it leaves when it is reduced by the length. -/
theorem IsIndexOf.emod_eq {length : Nat} {i : Int} (h : IsIndexOf length i) :
    i % length = if i < 0 then i + length else i := by
  obtain ⟨hlow, hhigh⟩ := h
  split
  · rw [← Int.add_emod_right]
    exact Int.emod_eq_of_lt (by omega) (by omega)
  · exact Int.emod_eq_of_lt (by omega) hhigh

/-! ### Indexes -/

/-- An index resolves to the place that it leaves when it is reduced by the length. -/
theorem Json.resolveIndex_of_isIndexOf {length : Nat} {index : Int64}
    (h : IsIndexOf length index.toInt) :
    Json.resolveIndex length index = some (index.toInt % length).toNat := by
  rw [h.emod_eq]
  obtain ⟨hlow, hhigh⟩ := h
  unfold Json.resolveIndex
  dsimp only
  split
  · rw [if_pos (by omega)]
    congr 1
    omega
  · rw [if_pos (by omega)]

/-- An index that counts no element is resolved to none. -/
theorem Json.resolveIndex_of_not_isIndexOf {length : Nat} {index : Int64}
    (h : ¬IsIndexOf length index.toInt) : Json.resolveIndex length index = none := by
  unfold IsIndexOf at h
  unfold Json.resolveIndex
  dsimp only
  split
  · exact if_neg (by omega)
  · exact if_neg (by omega)

/-- The element at an index is the one at its place. -/
theorem Json.element?_of_isIndexOf {elements : List Json} {index : Int64}
    (h : IsIndexOf elements.length index.toInt) :
    Json.element? elements index = elements[(index.toInt % elements.length).toNat]? := by
  rw [Json.element?, Json.resolveIndex_of_isIndexOf h]
  rfl

/-- There is no element at an index that counts none. -/
theorem Json.element?_of_not_isIndexOf {elements : List Json} {index : Int64}
    (h : ¬IsIndexOf elements.length index.toInt) : Json.element? elements index = none := by
  rw [Json.element?, Json.resolveIndex_of_not_isIndexOf h]
  rfl

/-! ### Ranges of one index -/

namespace SteppedRange

/-- One step further at a time, a position is in range while it is before the end. -/
theorem before_of_step_one {start stop i : Int} :
    (SteppedRange.mk start stop 1).Before i ↔ i < stop := by
  unfold Before
  dsimp only
  omega

/-- The range from an integer to the next one. -/
theorem toList_singleton (i : Int) : (SteppedRange.mk i (i + 1) 1).toList = [i] := by
  have hstep : (1 : Int) ≠ 0 := Int.one_ne_zero
  have hrest : (SteppedRange.mk i (i + 1) 1).next.toList = [] :=
    toList_of_not_before hstep (mt before_of_step_one.mp (Int.lt_irrefl _))
  rw [toList_of_before hstep (before_of_step_one.mpr (Int.lt_succ i)), hrest]

/-- Where the slice from an index to the next one stops. -/
def stopAfter (i : Int) : Option Int :=
  if i = -1 then none else some (i + 1)

/-- The bounds of the slice from an index to the next one, moved to places of the sequence. -/
theorem ofSlice_stopAfter (length : Nat) (i : Int) :
    ofSlice length (some i) (stopAfter i) 1 =
      ⟨place length 0 length i, if i = -1 then length else place length 0 length (i + 1), 1⟩ := by
  rw [ofSlice, if_pos Int.one_pos, stopAfter]
  split <;> rfl

/-- That slice holds the place of the index alone. -/
theorem toList_ofSlice_of_isIndexOf {length : Nat} {i : Int} (h : IsIndexOf length i) :
    (ofSlice length (some i) (stopAfter i) 1).toList = [i % length] := by
  have hplaces : place length 0 length i = i % length ∧
      (if i = -1 then (length : Int) else place length 0 length (i + 1)) = i % length + 1 := by
    rw [h.emod_eq]
    obtain ⟨hlow, hhigh⟩ := h
    unfold place
    split_ifs <;> omega
  rw [ofSlice_stopAfter, hplaces.1, hplaces.2, toList_singleton]

/-- Where there is no such place the slice is empty. -/
theorem toList_ofSlice_of_not_isIndexOf {length : Nat} {i : Int} (h : ¬IsIndexOf length i) :
    (ofSlice length (some i) (stopAfter i) 1).toList = [] := by
  have hplaces : ¬place length 0 length i <
      if i = -1 then (length : Int) else place length 0 length (i + 1) := by
    unfold IsIndexOf at h
    unfold place
    split_ifs <;> omega
  rw [ofSlice_stopAfter]
  exact toList_of_not_before Int.one_ne_zero (mt before_of_step_one.mp hplaces)

end SteppedRange

/-! ### Evaluating an index and its slice -/

/-- The stop of the slice from an index to the next one; the slice at the last index is open. -/
def nextIndex? (index : Int64) : Option Int64 :=
  if index = -1 then none else some (index + 1)

/-- The next index is where a slice of one element stops. -/
theorem map_toInt_nextIndex? {index : Int64} (h : index ≠ Int64.maxValue) :
    (nextIndex? index).map Int64.toInt = SteppedRange.stopAfter index.toInt := by
  have hlast : index = -1 ↔ index.toInt = -1 := Int64.toInt_inj.symm
  have hmax : index.toInt ≠ 2 ^ 63 - 1 := fun hmax => h (Int64.toInt_inj.mp hmax)
  have hlow := index.le_toInt
  have hhigh := index.toInt_lt
  have hnext : (index + 1).toInt = index.toInt + 1 := by
    rw [Int64.toInt_add, Int64.toInt_one]
    exact Int.bmod_eq_of_le (by omega) (by omega)
  unfold nextIndex? SteppedRange.stopAfter
  by_cases h : index = -1
  · rw [if_pos h, if_pos (hlast.mp h)]
    rfl
  · rw [if_neg h, if_neg (mt hlast.mpr h), Option.map_some, hnext]

section

variable {elements : List Json} {index : Int64}

/-- There is an element at an index. -/
theorem exists_element_of_isIndexOf (h : IsIndexOf elements.length index.toInt) :
    ∃ node, elements[(index.toInt % elements.length).toNat]? = some node := by
  have hplace : (index.toInt % elements.length).toNat < elements.length := by
    rw [h.emod_eq]
    obtain ⟨hlow, hhigh⟩ := h
    split <;> omega
  exact ⟨_, List.getElem?_eq_getElem hplace⟩

/-- The element at an index is found. -/
theorem drain_evaluate_element_of_isIndexOf (h : IsIndexOf elements.length index.toInt)
    {node : Json} (hnode : elements[(index.toInt % elements.length).toNat]? = some node)
    (strict : Bool) :
    (evaluate strict [.element (some index)] (.array elements)).drain = ([node], none) := by
  rw [drain_evaluate_singleton, Selector.items, elementEvents, Json.element?_of_isIndexOf h, hnode]
  rfl

/-- An index that counts no element finds nothing, which is an error with strictness. -/
theorem drain_evaluate_element_of_not_isIndexOf (h : ¬IsIndexOf elements.length index.toInt)
    (strict : Bool) :
    (evaluate strict [.element (some index)] (.array elements)).drain =
      ([], if strict then some (.indexOutOfBounds index) else none) := by
  rw [drain_evaluate_singleton, Selector.items, elementEvents, Json.element?_of_not_isIndexOf h]
  cases strict <;> rfl

variable (hlength : elements.length < 1 <<< 63) (hmax : index ≠ Int64.maxValue)

include hlength hmax

/-- A slice of one element finds the element at its index. -/
theorem drain_evaluate_indexSlice_of_isIndexOf (h : IsIndexOf elements.length index.toInt)
    {node : Json} (hnode : elements[(index.toInt % elements.length).toNat]? = some node)
    (strict : Bool) :
    (evaluate strict [.slice (some index) (nextIndex? index) none] (.array elements)).drain =
      ([node], none) := by
  have hstep : (none : Option Int64).getD 1 ≠ 0 := by decide
  have hrange : (SteppedRange.ofSlice elements.length ((some index).map Int64.toInt)
      ((nextIndex? index).map Int64.toInt) ((none : Option Int64).getD 1).toInt).toList =
        [index.toInt % elements.length] := by
    rw [map_toInt_nextIndex? hmax]
    exact SteppedRange.toList_ofSlice_of_isIndexOf h
  have hin := (SliceBounds.inRange_start_iff hlength (some index) (nextIndex? index) hstep).mpr
    (hrange ▸ List.cons_ne_nil _ _)
  have hsome := SliceBounds.map_some_elements hlength (some index) (nextIndex? index) hstep
  rw [hrange, List.map_singleton, hnode] at hsome
  have hnodes := (List.map_inj_right fun _ _ => Option.some.inj).mp
    (hsome.trans List.map_singleton.symm)
  rw [drain_evaluate_slice_of_inRange hstep rfl hin, hnodes]

/-- A slice of one element finds nothing if its index counts none, which is an error with
strictness. -/
theorem drain_evaluate_indexSlice_of_not_isIndexOf (h : ¬IsIndexOf elements.length index.toInt)
    (strict : Bool) :
    ∃ start stop,
      (evaluate strict [.slice (some index) (nextIndex? index) none] (.array elements)).drain =
        ([], if strict then some (.emptySlice start stop) else none) := by
  have hstep : (none : Option Int64).getD 1 ≠ 0 := by decide
  have hrange : (SteppedRange.ofSlice elements.length ((some index).map Int64.toInt)
      ((nextIndex? index).map Int64.toInt) ((none : Option Int64).getD 1).toInt).toList = [] := by
    rw [map_toInt_nextIndex? hmax]
    exact SteppedRange.toList_ofSlice_of_not_isIndexOf h
  have hin := mt (SliceBounds.inRange_start_iff hlength (some index) (nextIndex? index) hstep).mp
    (not_not_intro hrange)
  exact ⟨_, _, drain_evaluate_slice_of_not_inRange hstep rfl hin strict⟩

end

/-- Several indexes yield what the single ones yield, one after the other, up to the first error. -/
theorem items_evaluate_elements (strict : Bool) (indexes : List Int64) (root : Json) :
    (evaluate strict [.elements indexes] root).items =
      upToError (indexes.flatMap fun index =>
        (evaluate strict [.element (some index)] root).items) := by
  have hsingle : ∀ index : Int64, (evaluate strict [.element (some index)] root).items =
      upToError (Event.items (elementEvents strict (some index) root)) :=
    fun index => items_evaluate_singleton strict (.element (some index)) root
  rw [items_evaluate_singleton, Selector.items, upToError_flatMap]
  simp only [hsingle]

/-- An index selects an element exactly as far as the length of the array goes, counted from either
end: the one at the place that the index leaves when it is reduced by the length.  The slice from an
index to the next one, or to the end of the array from the last index, selects the same, and a
strict evaluation of it fails where that of the index does.  Several indexes yield what the single
ones yield, up to the first error.

The bounds of a slice are words, and so is the length of every array that fits into memory. -/
theorem drain_evaluate_element (elements : List Json) :
    (∀ index : Int64,
      let lookup strict := (evaluate strict [.element (some index)] (.array elements)).drain
      let slice strict :=
        (evaluate strict [.slice (some index) (nextIndex? index) none] (.array elements)).drain
      (IsIndexOf elements.length index.toInt →
        ∃ node, elements[(index.toInt % elements.length).toNat]? = some node ∧
          ∀ strict, lookup strict = ([node], none)) ∧
      (¬IsIndexOf elements.length index.toInt → ∀ strict,
        lookup strict = ([], if strict then some (.indexOutOfBounds index) else none)) ∧
      (elements.length < 1 <<< 63 → index ≠ Int64.maxValue →
        slice false = lookup false ∧ (slice true).1 = (lookup true).1 ∧
          (slice true).2.isSome = (lookup true).2.isSome)) ∧
    ∀ strict (indexes : List Int64) (root : Json),
      (evaluate strict [.elements indexes] root).items =
        upToError (indexes.flatMap fun index =>
          (evaluate strict [.element (some index)] root).items) := by
  refine ⟨fun index => ⟨fun h => ?_, drain_evaluate_element_of_not_isIndexOf,
    fun hlength hmax => ?_⟩, items_evaluate_elements⟩
  · obtain ⟨node, hnode⟩ := exists_element_of_isIndexOf h
    exact ⟨node, hnode, drain_evaluate_element_of_isIndexOf h hnode⟩
  · by_cases h : IsIndexOf elements.length index.toInt
    · obtain ⟨node, hnode⟩ := exists_element_of_isIndexOf h
      have hlookup := drain_evaluate_element_of_isIndexOf h hnode
      have hslice := drain_evaluate_indexSlice_of_isIndexOf hlength hmax h hnode
      simp only [hlookup, hslice, and_self]
    · have hlookup := drain_evaluate_element_of_not_isIndexOf h
      have hslice := drain_evaluate_indexSlice_of_not_isIndexOf hlength hmax h
      obtain ⟨_, _, hlenient⟩ := hslice false
      obtain ⟨_, _, hstrict⟩ := hslice true
      simp [hlookup, hlenient, hstrict]

/-- At the start of an array, counted from its end: the first element, and the place before it. -/
theorem drain_evaluate_element_first :
    let elements : List Json := [.null, .boolean true]
    elements.length < 1 <<< 63 ∧ (-2 : Int64) ≠ Int64.maxValue ∧ (-3 : Int64) ≠ Int64.maxValue ∧
      IsIndexOf elements.length (Int64.toInt (-2)) ∧
      ¬IsIndexOf elements.length (Int64.toInt (-3)) ∧
      (evaluate true [.slice (some (-2)) (some (-1)) none] (.array elements)).drain.1 = [.null] ∧
      (evaluate true [.slice (some (-3)) (some (-2)) none] (.array elements)).drain.2.isSome =
        true := by
  intro elements
  have hlength : elements.length < 1 <<< 63 := by decide
  have hmax : (-2 : Int64) ≠ Int64.maxValue := by decide
  have hmax' : (-3 : Int64) ≠ Int64.maxValue := by decide
  have hindex : IsIndexOf elements.length (Int64.toInt (-2)) := ⟨by decide, by decide⟩
  have hindex' : ¬IsIndexOf elements.length (Int64.toInt (-3)) := fun h => absurd h.1 (by decide)
  have hindexes := (drain_evaluate_element elements).1
  obtain ⟨hlookup, -, hslice⟩ := hindexes (-2)
  obtain ⟨-, hlookup', hslice'⟩ := hindexes (-3)
  obtain ⟨node, hnode, hfound⟩ := hlookup hindex
  obtain rfl : Json.null = node := Option.some.inj hnode
  refine ⟨hlength, hmax, hmax', hindex, hindex', ?_, ?_⟩
  · exact (hslice hlength hmax).2.1.trans (congrArg Prod.fst (hfound true))
  · rw [show (some (-2) : Option Int64) = nextIndex? (-3) from rfl, (hslice' hlength hmax').2.2,
      hlookup' hindex']
    rfl

end JsonSelect
