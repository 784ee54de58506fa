import Mathlib.Data.List.Nodup
import Mathlib.Tactic.Common
import JsonSelect.Proofs.Evaluation.Slice
import JsonSelect.Proofs.Evaluation.DepthFirst

/-!
# Slices as ranges of integers

On the integers a slice of an array is an arithmetic progression, `SteppedRange.ofSlice`: missing
and negative bounds are replaced as in Python's `slice.indices`, and the integers go from the start
to the stop, which is excluded.  `SliceBounds` does the same with 64-bit words.  Its bounds are
moved to other places than those of the range in some cases, and its steps end where the next
position is no word any more.  Neither makes a difference: a slice visits the integers of its range
(`map_toInt_positions`), all of them are places of the array, and no word overflows on the way to
the bounds.
-/

namespace JsonSelect

/-! ### Ranges of integers -/

/-- The integers from `start` on, `step` apart, that lie before `stop`.  With a negative step they
go down. -/
structure SteppedRange where
  start : Int
  stop : Int
  step : Int

namespace SteppedRange

/-- Whether an integer lies before the stop, seen in the direction of the step. -/
def Before (range : SteppedRange) (i : Int) : Prop :=
  0 < range.step ∧ i < range.stop ∨ range.step < 0 ∧ range.stop < i

/-- How many integers there are in a range. -/
def size (range : SteppedRange) : Nat :=
  if 0 < range.step then ((range.stop - range.start + range.step - 1) / range.step).toNat
  else ((range.start - range.stop - range.step - 1) / -range.step).toNat

/-- The integers of a range, in its order. -/
def toList (range : SteppedRange) : List Int :=
  (List.range range.size).map fun k : Nat => range.start + k * range.step

/-- The range without its first integer. -/
def next (range : SteppedRange) : SteppedRange :=
  { range with start := range.start + range.step }

/-- A position in a sequence of the given length, where negative positions count from the end,
moved to the nearest place between two bounds. -/
def place (length lower upper position : Int) : Int :=
  if position < 0 then max lower (position + length) else min upper position

/-- The range of a slice of a sequence of the given length.  A missing start or stop is the bound
on its side; a backward slice starts no later than at the last place and can stop before the
first. -/
def ofSlice (length : Int) (start stop : Option Int) (step : Int) : SteppedRange :=
  if 0 < step then
    { start := (start.map (place length 0 length)).getD 0
      stop := (stop.map (place length 0 length)).getD length
      step := step }
  else
    { start := (start.map (place length (-1) (length - 1))).getD (length - 1)
      stop := (stop.map (place length (-1) (length - 1))).getD (-1)
      step := step }

section

variable {range : SteppedRange} (hstep : range.step ≠ 0)

include hstep

/-- A range goes on exactly as long as its integers lie before the stop. -/
theorem lt_size_iff (k : Nat) :
    k < range.size ↔ range.Before (range.start + k * range.step) := by
  unfold size Before
  by_cases hpos : 0 < range.step
  · rw [if_pos hpos, Int.lt_toNat, ← Int.add_one_le_iff, Int.le_ediv_iff_mul_le hpos, Int.add_mul]
    omega
  · have hneg : 0 < -range.step := by omega
    rw [if_neg hpos, Int.lt_toNat, ← Int.add_one_le_iff, Int.le_ediv_iff_mul_le hneg, Int.add_mul,
      Int.mul_neg]
    omega

/-- The integers of a range are those that are reached before the stop. -/
theorem mem_toList_iff {i : Int} :
    i ∈ range.toList ↔ range.Before i ∧ ∃ k : Nat, i = range.start + k * range.step := by
  rw [toList, List.mem_map]
  constructor
  · rintro ⟨k, hk, rfl⟩
    exact ⟨(lt_size_iff hstep k).mp (List.mem_range.mp hk), k, rfl⟩
  · rintro ⟨hbefore, k, rfl⟩
    exact ⟨k, List.mem_range.mpr ((lt_size_iff hstep k).mpr hbefore), rfl⟩

/-- No integer comes twice. -/
theorem nodup_toList : range.toList.Nodup := by
  refine List.Nodup.map ?_ List.nodup_range
  intro j k hjk
  have hmul : (j : Int) * range.step = k * range.step := Int.add_left_cancel hjk
  exact Int.ofNat_inj.mp (Int.eq_of_mul_eq_mul_right hstep hmul)

end

/-- One step further in a range is the same step in the range without its first integer. -/
theorem next_start_add (range : SteppedRange) (k : Nat) :
    range.next.start + k * range.next.step = range.start + (k + 1 : Nat) * range.step := by
  simp only [next, Int.natCast_add, Int.add_mul]
  omega

section

variable {range : SteppedRange} (hstep : range.step ≠ 0)

include hstep

/-- One step further, there is one position less. -/
theorem size_next : range.next.size = range.size - 1 := by
  have hlt (k : Nat) : k < range.next.size ↔ k + 1 < range.size := by
    have hnext : range.next.step ≠ 0 := hstep
    rw [lt_size_iff hstep, lt_size_iff hnext, next_start_add]
    rfl
  have hend := hlt range.next.size
  have hlast := hlt (range.size - 1)
  have hbefore := hlt (range.size - 2)
  omega

/-- A range whose start lies before the stop begins with it. -/
theorem toList_of_before (h : range.Before range.start) :
    range.toList = range.start :: range.next.toList := by
  have hpos : 0 < range.size := (lt_size_iff hstep 0).mpr (by simpa using h)
  have hsize : range.size = range.next.size + 1 := by
    have hnext := size_next hstep
    omega
  rw [toList, hsize, List.range_succ_eq_map, List.map_cons, List.map_map, toList]
  congr 1
  · simp
  · exact List.map_congr_left fun k _ => (next_start_add range k).symm

/-- A range that starts behind its end is empty. -/
theorem toList_of_not_before (h : ¬range.Before range.start) : range.toList = [] := by
  have hsize : ¬0 < range.size := fun hpos => h (by simpa using (lt_size_iff hstep 0).mp hpos)
  rw [toList, Nat.eq_zero_of_not_pos hsize]
  rfl

/-- A range of the same step has the same integers if it starts and stops alike, or if neither of
the two starts before its stop. -/
theorem toList_congr {other : SteppedRange} (hother : other.step = range.step)
    (h : other.start = range.start ∧ other.stop = range.stop ∨
      ¬other.Before other.start ∧ ¬range.Before range.start) :
    other.toList = range.toList := by
  rcases h with ⟨hstart, hstop⟩ | ⟨hempty, hempty'⟩
  · have heq : other = range := by
      cases other
      cases range
      simp_all
    rw [heq]
  · rw [toList_of_not_before (hother ▸ hstep) hempty, toList_of_not_before hstep hempty']

end

@[simp] theorem ofSlice_step (length : Int) (start stop : Option Int) (step : Int) :
    (ofSlice length start stop step).step = step := by
  unfold ofSlice
  split <;> rfl

/-- The integers of a slice are places of the sequence. -/
theorem bounds_of_mem_ofSlice {length : Nat} {start stop : Option Int} {step : Int}
    (hstep : step ≠ 0) {i : Int} (hi : i ∈ (ofSlice length start stop step).toList) :
    0 ≤ i ∧ i < length := by
  obtain ⟨hbefore, k, hk⟩ := (mem_toList_iff (by rwa [ofSlice_step])).mp hi
  have hcount := Int.natCast_nonneg k
  unfold ofSlice Before at *
  by_cases hpos : 0 < step
  · have hforward : 0 ≤ k * step := Int.mul_nonneg hcount (Int.le_of_lt hpos)
    simp only [if_pos hpos] at hbefore hk
    cases start <;> cases stop <;>
      simp only [place, Option.map_none, Option.map_some, Option.getD_none, Option.getD_some]
        at hbefore hk <;>
      omega
  · have hbackward : k * step ≤ 0 :=
      Int.mul_nonpos_of_nonneg_of_nonpos hcount (Int.not_lt.mp hpos)
    simp only [if_neg hpos] at hbefore hk
    cases start <;> cases stop <;>
      simp only [place, Option.map_none, Option.map_some, Option.getD_none, Option.getD_some]
        at hbefore hk <;>
      omega

end SteppedRange

/-! ### Words -/

/-- Clamping a word clamps its value. -/
theorem toInt_clamp {low high : Int64} (h : low.toInt ≤ high.toInt) (value : Int64) :
    (clamp low high value).toInt = max low.toInt (min high.toInt value.toInt) := by
  unfold clamp
  split
  · next hlow =>
    have hlow := Int64.lt_iff_toInt_lt.mp hlow
    omega
  · next hlow =>
    have hlow := mt Int64.lt_iff_toInt_lt.mpr hlow
    split
    · next hhigh =>
      have hhigh := Int64.lt_iff_toInt_lt.mp hhigh
      omega
    · next hhigh =>
      have hhigh := mt Int64.lt_iff_toInt_lt.mpr hhigh
      omega

theorem toInt_min (a b : Int64) : (min a b).toInt = min a.toInt b.toInt := by
  have hmin : min a b = if a ≤ b then a else b := rfl
  rw [hmin, Int.min_def]
  simp only [Int64.le_iff_toInt_le]
  split <;> rfl

namespace SliceBounds

section

variable {length : Nat} (hlength : length < 1 <<< 63)

include hlength

/-- The length of an array is a word. -/
theorem toInt_lengthWord : (lengthWord length).toInt = length := by
  rw [lengthWord, if_pos hlength]
  exact Int64.toInt_ofNat_of_lt hlength

/-- So is its last position, which is `-1` for an empty array. -/
theorem toInt_lengthWord_sub_one : (lengthWord length - 1).toInt = length - 1 := by
  have hword := toInt_lengthWord hlength
  have hhigh := (lengthWord length).toInt_lt
  rw [Int64.toInt_sub, hword, Int64.toInt_one]
  exact Int.bmod_eq_of_le (by omega) (by omega)

/-- Counting from the end of an array does not leave the words. -/
theorem toInt_add_lengthWord {position : Int64} (hneg : position < 0) :
    (position + lengthWord length).toInt = position.toInt + length := by
  have hword := toInt_lengthWord hlength
  have hhigh := (lengthWord length).toInt_lt
  have hlow := position.le_toInt
  have hneg : position.toInt < 0 := Int64.lt_iff_toInt_lt.mp hneg
  rw [Int64.toInt_add, hword]
  exact Int.bmod_eq_of_le (by omega) (by omega)

/-- A position is counted from the end if it is negative. -/
theorem toInt_fromEnd (position : Int64) :
    (fromEnd (lengthWord length) position).toInt =
      if position.toInt < 0 then position.toInt + length else position.toInt := by
  have hsign : position < 0 ↔ position.toInt < 0 := Int64.lt_iff_toInt_lt
  unfold fromEnd
  by_cases hneg : position < 0
  · rw [if_pos hneg, if_pos (hsign.mp hneg), toInt_add_lengthWord hlength hneg]
  · rw [if_neg hneg, if_neg (mt hsign.mpr hneg)]

end

/-! ### Positions -/

theorem toInt_step_ne_zero {step : Int64} (h : step ≠ 0) : step.toInt ≠ 0 := by
  intro hzero
  exact h (Int64.toInt_inj.mp (hzero.trans Int64.toInt_zero.symm))

/-- The range of the positions that a slice visits from the given one on. -/
def rangeFrom (bounds : SliceBounds) (position : Int64) : SteppedRange :=
  ⟨position.toInt, bounds.stop.toInt, bounds.step.toInt⟩

section

variable {bounds : SliceBounds} {position : Int64}

/-- A position is in range exactly if it is before the end of the range. -/
theorem inRange_iff_before :
    bounds.inRange position = true ↔ (bounds.rangeFrom position).Before position.toInt := by
  have hne := toInt_step_ne_zero bounds.step_ne_zero
  have hstep : 0 < bounds.step ↔ 0 < bounds.step.toInt := Int64.lt_iff_toInt_lt
  simp only [inRange, rangeFrom, SteppedRange.Before]
  by_cases hpos : 0 < bounds.step
  · have hpos' := hstep.mp hpos
    rw [if_pos hpos, decide_eq_true_iff, Int64.lt_iff_toInt_lt]
    omega
  · have hpos' := mt hstep.mpr hpos
    rw [if_neg hpos, decide_eq_true_iff, Int64.lt_iff_toInt_lt]
    omega

/-- A step out of the words leads behind the stop. -/
theorem not_before_of_following?_eq_none (h : bounds.following? position = none) :
    ¬(bounds.rangeFrom position).next.Before (bounds.rangeFrom position).next.start := by
  intro hbefore
  simp only [SteppedRange.Before, SteppedRange.next, rangeFrom] at hbefore
  rcases forall_lt_or_forall_lt_of_int64?_eq_none h with hbelow | habove
  · have hstop := hbelow bounds.stop
    have hposition := hbelow position
    omega
  · have hstop := habove bounds.stop
    have hposition := habove position
    omega

end

/-- A slice visits the integers of its range, one after the other. -/
theorem map_toInt_positionsFrom (bounds : SliceBounds) (position : Int64) :
    (bounds.positionsFrom position).map Int64.toInt = (bounds.rangeFrom position).toList := by
  have hstep := toInt_step_ne_zero bounds.step_ne_zero
  induction position using positionsFrom.induct bounds with
  | case1 position hin ih =>
    rw [positionsFrom_of_inRange hin, List.map_cons,
      SteppedRange.toList_of_before hstep (inRange_iff_before.mp hin)]
    congr 1
    cases hnext : bounds.following? position with
    | none =>
      exact (SteppedRange.toList_of_not_before hstep (not_before_of_following?_eq_none hnext)).symm
    | some next =>
      have hvalue : next.toInt = position.toInt + bounds.step.toInt := toInt_of_int64? hnext
      have hrange : bounds.rangeFrom next = (bounds.rangeFrom position).next := by
        rw [rangeFrom, hvalue]
        rfl
      exact hrange ▸ ih next hnext
  | case2 position hout =>
    rw [positionsFrom_of_not_inRange hout,
      SteppedRange.toList_of_not_before hstep (mt inRange_iff_before.mpr hout)]
    rfl

section

variable {length : Nat} (hlength : length < 1 <<< 63)

include hlength

/-- A place between two bounds is what the clamped word stands for, as long as the bounds reach
from the start of the array to its last position. -/
theorem getD_place (position : Option Int64) (missing : Int64) {lower upper default : Int}
    (hlower : lower ≤ 0) (hupper : (length : Int) - 1 ≤ upper)
    (hdefault : missing.toInt = default ∧ lower ≤ default ∧ default ≤ upper) :
    ((position.map Int64.toInt).map (SteppedRange.place length lower upper)).getD default =
      max lower (min upper ((position.map (fromEnd (lengthWord length))).getD missing).toInt) := by
  cases position with
  | none =>
    simp only [Option.map_none, Option.getD_none]
    omega
  | some position =>
    simp only [Option.map_some, Option.getD_some, SteppedRange.place, toInt_fromEnd hlength]
    split <;> omega

variable (start stop : Option Int64) {step : Int64} (hstep : step ≠ 0)

/-- The settled bounds of a slice give the integers of its range.  Where the two pairs of bounds
differ, neither starts before its stop. -/
theorem toList_rangeFrom_settle :
    ((settle length start stop step hstep).rangeFrom
        (settle length start stop step hstep).start).toList =
      (SteppedRange.ofSlice length (start.map Int64.toInt) (stop.map Int64.toInt)
        step.toInt).toList := by
  apply SteppedRange.toList_congr
  · rw [SteppedRange.ofSlice_step]
    exact toInt_step_ne_zero hstep
  · rw [SteppedRange.ofSlice_step, rangeFrom, settle_step]
  · have hpos : 0 < step ↔ 0 < step.toInt := Int64.lt_iff_toInt_lt
    have hword := toInt_lengthWord hlength
    have hlast := toInt_lengthWord_sub_one hlength
    have hzero : (0 : Int64).toInt = 0 := Int64.toInt_zero
    have hminus : (-1 : Int64).toInt = -1 := rfl
    have hfirst : (0 : Int64).toInt ≤ (lengthWord length).toInt := by omega
    have hbefore : (-1 : Int64).toInt ≤ (lengthWord length).toInt := by omega
    simp only [settle, SteppedRange.ofSlice, rangeFrom, SteppedRange.Before]
    by_cases hforward : 0 < step
    · have hforward' := hpos.mp hforward
      simp only [if_pos hforward, if_pos hforward', toInt_clamp hfirst, toInt_clamp hbefore]
      rw [getD_place hlength start 0, getD_place hlength stop (lengthWord length)]
      all_goals omega
    · have hforward' := mt hpos.mpr hforward
      simp only [if_neg hforward, if_neg hforward', toInt_min, toInt_clamp hbefore]
      rw [getD_place hlength start (lengthWord length - 1), getD_place hlength stop (-1)]
      all_goals omega

/-- A slice visits the integers of its range in the order of the range. -/
theorem map_toInt_positions :
    (settle length start stop step hstep).positions.map Int64.toInt =
      (SteppedRange.ofSlice length (start.map Int64.toInt) (stop.map Int64.toInt)
        step.toInt).toList := by
  rw [positions, map_toInt_positionsFrom, toList_rangeFrom_settle hlength]

/-- The start of a slice is in range exactly if there is any integer in its range. -/
theorem inRange_start_iff :
    (settle length start stop step hstep).inRange (settle length start stop step hstep).start =
        true ↔
      (SteppedRange.ofSlice length (start.map Int64.toInt) (stop.map Int64.toInt)
        step.toInt).toList ≠ [] := by
  rw [← map_toInt_positions hlength start stop hstep, positions]
  by_cases hin : (settle length start stop step hstep).inRange
      (settle length start stop step hstep).start = true
  · rw [positionsFrom_of_inRange hin]
    simp [hin]
  · rw [positionsFrom_of_not_inRange hin]
    simp [hin]

end

/-! ### Elements -/

section

variable {elements : List Json} (hlength : elements.length < 1 <<< 63) (start stop : Option Int64)
  {step : Int64} (hstep : step ≠ 0)

include hlength

/-- At every position of a slice the array has an element. -/
theorem elementAt?_of_mem_positions {position : Int64}
    (h : position ∈ (settle elements.length start stop step hstep).positions) :
    elementAt? elements position = elements[position.toInt.toNat]? ∧
      (elementAt? elements position).isSome = true := by
  have hmem := List.mem_map_of_mem (f := Int64.toInt) h
  rw [map_toInt_positions hlength] at hmem
  obtain ⟨hlow, hhigh⟩ := SteppedRange.bounds_of_mem_ofSlice (toInt_step_ne_zero hstep) hmem
  have hsign : ¬position < 0 := fun hneg => by
    have hneg : position.toInt < 0 := Int64.lt_iff_toInt_lt.mp hneg
    omega
  have hplace : position.toInt.toNat < elements.length := by omega
  rw [elementAt?, if_neg hsign, List.getElem?_eq_getElem hplace]
  exact ⟨rfl, rfl⟩

/-- The elements of a slice are those at the integers of its range, none of which is left out. -/
theorem map_some_elements :
    ((settle elements.length start stop step hstep).elements elements).map some =
      (SteppedRange.ofSlice elements.length (start.map Int64.toInt) (stop.map Int64.toInt)
        step.toInt).toList.map fun i => elements[i.toNat]? := by
  rw [← map_toInt_positions hlength start stop hstep, elements_eq_filterMap,
    List.map_filterMap_some_eq_filter_map_isSome, List.map_map, List.filter_eq_self.mpr]
  · apply List.map_congr_left
    intro position hmem
    exact (elementAt?_of_mem_positions hlength start stop hstep hmem).1
  · intro element? hmem
    obtain ⟨position, hposition, rfl⟩ := List.mem_map.mp hmem
    exact (elementAt?_of_mem_positions hlength start stop hstep hposition).2

end

end SliceBounds

/-! ### Evaluating a slice -/

/-- Nodes that are found are drained without an error. -/
@[simp] theorem drained_items_foundAll (nodes : List Json) :
    drained (Event.items (foundAll nodes)) = (nodes, none) := by
  rw [Event.items_foundAll, drained_map_ok]

/-- A path of a single selector yields the items of the selector up to the first error. -/
theorem items_evaluate_singleton (strict : Bool) (selector : Selector) (root : Json) :
    (evaluate strict [selector] root).items = upToError (selector.items strict root) := by
  rw [items_evaluate]
  exact congrArg upToError (flatMap_continueFrom_ok _)

/-- A path of a single selector drains to what its items at the root are. -/
theorem drain_evaluate_singleton (strict : Bool) (selector : Selector) (root : Json) :
    (evaluate strict [selector] root).drain = drained (selector.items strict root) := by
  rw [drain_evaluate]
  exact congrArg drained (flatMap_continueFrom_ok _)

section

variable {elements : List Json} {start stop step : Option Int64}

/-- A step of zero is an error. -/
theorem drain_evaluate_slice_of_step_eq_zero (hzero : step.getD 1 = 0) (strict : Bool) :
    (evaluate strict [.slice start stop step] (.array elements)).drain = ([], some .zeroStep) := by
  rw [drain_evaluate_singleton, Selector.items, sliceEvents]
  simp only [dif_pos hzero]
  rfl

variable (hstep : step.getD 1 ≠ 0)

/-- A slice that starts in range finds its elements. -/
theorem drain_evaluate_slice_of_inRange {bounds : SliceBounds}
    (hbounds : SliceBounds.settle elements.length start stop (step.getD 1) hstep = bounds)
    (hin : bounds.inRange bounds.start = true) (strict : Bool) :
    (evaluate strict [.slice start stop step] (.array elements)).drain =
      (bounds.elements elements, none) := by
  rw [drain_evaluate_singleton, Selector.items, sliceEvents]
  simp only [dif_neg hstep, hbounds, if_pos hin, drained_items_foundAll]

/-- A slice that does not start in range finds nothing, which is an error with strictness. -/
theorem drain_evaluate_slice_of_not_inRange {bounds : SliceBounds}
    (hbounds : SliceBounds.settle elements.length start stop (step.getD 1) hstep = bounds)
    (hin : ¬bounds.inRange bounds.start = true) (strict : Bool) :
    (evaluate strict [.slice start stop step] (.array elements)).drain =
      ([], if strict then some (.emptySlice bounds.start bounds.stop) else none) := by
  rw [drain_evaluate_singleton, Selector.items, sliceEvents]
  simp only [dif_neg hstep, hbounds, if_neg hin]
  cases strict <;> rfl

end

/-- A slice of an array selects the elements at the integers of its range, in the order of the
range.  If there are none, that is an error in a strict evaluation, and a step of zero is one in
every evaluation.  The words in which the bounds are computed do not overflow, and at each position
that is visited there is an element. -/
theorem drain_evaluate_slice {elements : List Json} (hlength : elements.length < 1 <<< 63)
    (start stop step : Option Int64) :
    (step.getD 1 = 0 → ∀ strict,
      (evaluate strict [.slice start stop step] (.array elements)).drain =
        ([], some .zeroStep)) ∧
    (∀ hstep : step.getD 1 ≠ 0,
      let range := SteppedRange.ofSlice elements.length (start.map Int64.toInt)
        (stop.map Int64.toInt) (step.getD 1).toInt
      let bounds := SliceBounds.settle elements.length start stop (step.getD 1) hstep
      (∃ found,
        found.map some = range.toList.map (fun i => elements[i.toNat]?) ∧
        (evaluate false [.slice start stop step] (.array elements)).drain = (found, none) ∧
        (evaluate true [.slice start stop step] (.array elements)).drain =
          if range.toList = [] then ([], some (.emptySlice bounds.start bounds.stop))
          else (found, none)) ∧
      (∀ i ∈ range.toList, 0 ≤ i ∧ i < elements.length) ∧
      bounds.positions.map Int64.toInt = range.toList ∧
      ∀ position ∈ bounds.positions,
        (SliceBounds.elementAt? elements position).isSome = true) ∧
    (SliceBounds.lengthWord elements.length).toInt = elements.length ∧
    (SliceBounds.lengthWord elements.length - 1).toInt = elements.length - 1 ∧
    ∀ position : Int64, position < 0 →
      (position + SliceBounds.lengthWord elements.length).toInt =
        position.toInt + elements.length := by
  refine ⟨drain_evaluate_slice_of_step_eq_zero, fun hstep => ?_,
    SliceBounds.toInt_lengthWord hlength, SliceBounds.toInt_lengthWord_sub_one hlength,
    fun _ => SliceBounds.toInt_add_lengthWord hlength⟩
  intro range bounds
  have hsome : (bounds.elements elements).map some = range.toList.map fun i => elements[i.toNat]? :=
    SliceBounds.map_some_elements hlength start stop hstep
  have hstart : bounds.inRange bounds.start = true ↔ range.toList ≠ [] :=
    SliceBounds.inRange_start_iff hlength start stop hstep
  refine ⟨⟨bounds.elements elements, hsome, ?_⟩, ?_, ?_, ?_⟩
  · by_cases hempty : range.toList = []
    · have hin : ¬bounds.inRange bounds.start = true := fun hin => hstart.mp hin hempty
      have hnone : bounds.elements elements = [] := by
        rw [hempty] at hsome
        exact List.map_eq_nil_iff.mp hsome
      have hdrain := drain_evaluate_slice_of_not_inRange hstep rfl hin
      rw [if_pos hempty, hnone]
      exact ⟨hdrain false, hdrain true⟩
    · have hdrain := drain_evaluate_slice_of_inRange hstep rfl (hstart.mpr hempty)
      rw [if_neg hempty]
      exact ⟨hdrain false, hdrain true⟩
  · intro i hi
    exact SteppedRange.bounds_of_mem_ofSlice (SliceBounds.toInt_step_ne_zero hstep) hi
  · exact SliceBounds.map_toInt_positions hlength start stop hstep
  · intro position hmem
    exact (SliceBounds.elementAt?_of_mem_positions hlength start stop hstep hmem).2

/-- Every second element backwards, from the last one to the start of the array and beyond. -/
theorem drain_evaluate_slice_backward :
    [Json.null, .boolean true, .boolean false, .string "a"].length < 1 <<< 63 ∧
      (some (-2 : Int64)).getD 1 ≠ 0 ∧
      (evaluate true [.slice none (some (-9)) (some (-2))]
        (.array [.null, .boolean true, .boolean false, .string "a"])).drain =
        ([.string "a", .boolean true], none) := by
  have hlength : [Json.null, .boolean true, .boolean false, .string "a"].length < 1 <<< 63 := by
    decide
  have hstep : (some (-2 : Int64)).getD 1 ≠ 0 := by
    decide
  obtain ⟨⟨found, hfound, -, hdrain⟩, -⟩ :=
    (drain_evaluate_slice hlength none (some (-9)) (some (-2))).2.1 hstep
  have hvalues : found.map some = [some (.string "a"), some (.boolean true)] := hfound
  have hfound : found = [.string "a", .boolean true] :=
    (List.map_inj_right fun _ _ => Option.some.inj).mp hvalues
  exact ⟨hlength, hstep, hfound ▸ hdrain⟩

end JsonSelect
