import Mathlib.Data.List.Basic
import Mathlib.Tactic.Common
import JsonSelect.Evaluation.Slice

/-!
# Runs of a slice

A slice visits positions one step apart, and the array gives an element at some of them
(`elementAt?`).  In a forward slice the positions grow, so the elements from a position on come
from the part of the array that begins there; this is what the induction on the positions says.
-/

namespace JsonSelect

open scoped List

namespace SliceBounds

@[simp] theorem settle_step (length : Nat) (start stop : Option Int64) (step : Int64)
    (h : step ≠ 0) : (settle length start stop step h).step = step := by
  unfold settle
  split <;> rfl

/-- The element of an array at a position of a slice; there is none before the first. -/
def elementAt? (values : List Json) (position : Int64) : Option Json :=
  if position < 0 then none else values[position.toInt.toNat]?

/-- The elements of a slice are those at its positions. -/
theorem elements_eq_filterMap (bounds : SliceBounds) (values : List Json) :
    bounds.elements values = bounds.positions.filterMap (elementAt? values) := by
  unfold elements elementAt?
  simp only [List.getElem?_toArray]

/-- A position in range is visited, and after it those from the following one on. -/
theorem positionsFrom_of_inRange {bounds : SliceBounds} {position : Int64}
    (h : bounds.inRange position = true) :
    bounds.positionsFrom position =
      position :: (bounds.following? position).elim [] bounds.positionsFrom := by
  rw [positionsFrom, dif_pos h]
  split
  · next hnext => rw [hnext]; rfl
  · next hnext => rw [hnext]; rfl

/-- There are no positions from one that is out of range on. -/
theorem positionsFrom_of_not_inRange {bounds : SliceBounds} {position : Int64}
    (h : ¬bounds.inRange position = true) : bounds.positionsFrom position = [] := by
  rw [positionsFrom, dif_neg h]

/-- A forward slice moves on by at least one. -/
theorem toInt_lt_of_following? {bounds : SliceBounds} (hstep : 0 < bounds.step)
    {position next : Int64} (h : bounds.following? position = some next) :
    position.toInt < next.toInt := by
  have hnext : next.toInt = position.toInt + bounds.step.toInt := toInt_of_int64? h
  have hpos : 0 < bounds.step.toInt := Int64.lt_iff_toInt_lt.1 hstep
  omega

/-- What an array has at a position comes before what it has further on. -/
theorem elementAt?_append_sublist (values : List Json) (position : Int64) :
    (elementAt? values position).toList ++ values.drop (position.toInt + 1).toNat <+
      values.drop position.toInt.toNat := by
  unfold elementAt?
  split
  · next hneg =>
    have hneg : position.toInt < 0 := Int64.lt_iff_toInt_lt.1 hneg
    exact List.drop_sublist_drop_left values (by omega)
  · next hpos =>
    have hpos : ¬position.toInt < 0 := fun hneg => hpos (Int64.lt_iff_toInt_lt.2 hneg)
    have hsucc : (position.toInt + 1).toNat = position.toInt.toNat + 1 := by omega
    rw [hsucc, ← List.drop_eq_getElem?_toList_append]

/-- A forward slice takes its elements from a position on in the order of the array. -/
theorem filterMap_positionsFrom_sublist {bounds : SliceBounds} (hstep : 0 < bounds.step)
    (values : List Json) (position : Int64) :
    (bounds.positionsFrom position).filterMap (elementAt? values) <+
      values.drop position.toInt.toNat := by
  induction position using positionsFrom.induct bounds with
  | case1 position hin ih =>
    have hrest : ((bounds.following? position).elim [] bounds.positionsFrom).filterMap
        (elementAt? values) <+ values.drop (position.toInt + 1).toNat := by
      cases hnext : bounds.following? position with
      | none => exact List.nil_sublist _
      | some next =>
        have hle : position.toInt + 1 ≤ next.toInt := toInt_lt_of_following? hstep hnext
        exact (ih next hnext).trans
          (List.drop_sublist_drop_left values (Int.toNat_le_toNat hle))
    rw [positionsFrom_of_inRange hin, ← List.singleton_append, List.filterMap_append]
    have hhere : [position].filterMap (elementAt? values) =
        (elementAt? values position).toList := by
      cases h : elementAt? values position <;> simp [h]
    rw [hhere]
    exact (hrest.append_left _).trans (elementAt?_append_sublist values position)
  | case2 position hout =>
    rw [positionsFrom_of_not_inRange hout]
    exact List.nil_sublist _

/-- The elements of a forward slice are in the order of the array. -/
theorem elements_sublist {bounds : SliceBounds} (hstep : 0 < bounds.step) (values : List Json) :
    bounds.elements values <+ values := by
  rw [elements_eq_filterMap]
  exact (filterMap_positionsFrom_sublist hstep values bounds.start).trans (List.drop_sublist _ _)

end SliceBounds

end JsonSelect
