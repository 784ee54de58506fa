/-!
# Lists computed on demand

A lazy list is empty, or a first element with a way to compute what follows it. Nothing after the
first element is computed until it is asked for, so the front of a list can be used where the
whole of it would be out of reach.

`LazyList.toList` computes everything. It says what a lazy list stands for: each operation here
has one equation that tells its effect on that list. The functions that pass over elements without
keeping them (`filter`, `filterMap`, `flatMap`) and those that collect elements (`toList`, `upTo`)
run in constant stack space.
-/

namespace JsonSelect

/-- A list of which only the first element is there; the rest is computed on demand. -/
inductive LazyList (α : Type) where
  | nil
  | cons (head : α) (tail : Unit → LazyList α)

namespace LazyList

variable {α β : Type}

/-! ### The list behind a lazy list -/

/-- Puts the elements of a lazy list, the last one first, before those of a list. -/
def reverseOnto : LazyList α → List α → List α
  | nil, collected => collected
  | cons head tail, collected => reverseOnto (tail ()) (head :: collected)

/-- All elements. -/
def toList (source : LazyList α) : List α :=
  (source.reverseOnto []).reverse

/-- What has been collected in reverse order comes before all elements. -/
theorem reverse_reverseOnto (source : LazyList α) (collected : List α) :
    (source.reverseOnto collected).reverse = collected.reverse ++ source.toList := by
  induction source generalizing collected with
  | nil => exact (List.append_nil _).symm
  | cons head tail ih =>
    have here : (cons head tail).toList = [head] ++ (tail ()).toList := ih () [head]
    rw [reverseOnto, ih, here, List.reverse_cons, List.append_assoc]

@[simp] theorem toList_nil : (nil : LazyList α).toList = [] :=
  rfl

/-- The first element comes before those computed behind it. -/
@[simp] theorem toList_cons (head : α) (tail : Unit → LazyList α) :
    (cons head tail).toList = head :: (tail ()).toList :=
  reverse_reverseOnto (tail ()) [head]

/-! ### Making lazy lists -/

/-- The lazy list with the elements of a list. -/
def ofList : List α → LazyList α
  | [] => nil
  | head :: tail => cons head fun _ => ofList tail

/-- A lazy list made from a list stands for that list. -/
@[simp] theorem toList_ofList (elements : List α) : (ofList elements).toList = elements := by
  induction elements with
  | nil => rfl
  | cons head tail ih => rw [ofList, toList_cons, ih]

/-- The elements of a lazy list, and then those of another one. -/
def append : LazyList α → (Unit → LazyList α) → LazyList α
  | nil, next => next ()
  | cons head tail, next => cons head fun _ => append (tail ()) next

/-- One lazy list behind another stands for both lists, one behind the other. -/
@[simp] theorem toList_append (source : LazyList α) (next : Unit → LazyList α) :
    (source.append next).toList = source.toList ++ (next ()).toList := by
  induction source with
  | nil => rfl
  | cons head tail ih => rw [append, toList_cons, toList_cons, ih, List.cons_append]

/-- The elements of a lazy list, each one mapped. -/
def map (f : α → β) : LazyList α → LazyList β
  | nil => nil
  | cons head tail => cons (f head) fun _ => map f (tail ())

/-- Mapping a lazy list maps the list that it stands for. -/
@[simp] theorem toList_map (f : α → β) (source : LazyList α) :
    (source.map f).toList = source.toList.map f := by
  induction source with
  | nil => rfl
  | cons head tail ih => rw [map, toList_cons, toList_cons, ih, List.map_cons]

/-- The elements that come of the elements of a lazy list, where there is one. -/
def filterMap (f : α → Option β) : LazyList α → LazyList β
  | nil => nil
  | cons head tail =>
    match f head with
    | none => filterMap f (tail ())
    | some element => cons element fun _ => filterMap f (tail ())

/-- What comes of the elements of a lazy list is what comes of those of its list. -/
@[simp] theorem toList_filterMap (f : α → Option β) (source : LazyList α) :
    (source.filterMap f).toList = source.toList.filterMap f := by
  induction source with
  | nil => rfl
  | cons head tail ih =>
    rw [filterMap, toList_cons, List.filterMap_cons]
    cases f head with
    | none => exact ih ()
    | some element => rw [toList_cons, ih]

/-- The elements of a lazy list for which a test holds. -/
def filter (p : α → Bool) (source : LazyList α) : LazyList α :=
  source.filterMap (Option.guard p)

/-- Filtering a lazy list filters the list that it stands for. -/
@[simp] theorem toList_filter (p : α → Bool) (source : LazyList α) :
    (source.filter p).toList = source.toList.filter p := by
  rw [filter, toList_filterMap, List.filterMap_eq_filter]

/-- The first element is kept or passed over, whatever follows it. -/
theorem filter_cons (p : α → Bool) (head : α) (tail : Unit → LazyList α) :
    (cons head tail).filter p =
      if p head then cons head fun _ => (tail ()).filter p else (tail ()).filter p := by
  rw [filter, filterMap]
  cases h : p head with
  | true => simp [Option.guard, h, filter]
  | false => simp [Option.guard, h, filter]

/-- The lazy lists that come of the elements of a lazy list, one after the other. Those that are
empty are passed over. -/
def flatMap (f : α → LazyList β) : LazyList α → LazyList β
  | nil => nil
  | cons head tail =>
    match f head with
    | nil => flatMap f (tail ())
    | cons first rest => cons first fun _ => append (rest ()) fun _ => flatMap f (tail ())

/-- The lazy lists that come of the elements stand for their lists, one after the other. -/
@[simp] theorem toList_flatMap (f : α → LazyList β) (source : LazyList α) :
    (source.flatMap f).toList = source.toList.flatMap fun element => (f element).toList := by
  induction source with
  | nil => rfl
  | cons head tail ih =>
    rw [flatMap, toList_cons, List.flatMap_cons]
    cases f head with
    | nil => exact ih ()
    | cons first rest => rw [toList_cons, toList_append, toList_cons, ih, List.cons_append]

/-! ### The front of a lazy list -/

/-- Puts the elements of a lazy list up to the first one that is `last`, in reverse order, before
those of a list. -/
def reverseUpTo (last : α → Bool) : LazyList α → List α → List α
  | nil, collected => collected
  | cons head tail, collected =>
    if last head then head :: collected else reverseUpTo last (tail ()) (head :: collected)

/-- The elements up to the first one that is `last`, which is included; nothing after it is
computed. -/
def upTo (last : α → Bool) (source : LazyList α) : List α :=
  (source.reverseUpTo last []).reverse

/-- What has been collected in reverse order comes before the front of the list. -/
theorem reverse_reverseUpTo (last : α → Bool) (source : LazyList α) (collected : List α) :
    (source.reverseUpTo last collected).reverse = collected.reverse ++ source.upTo last := by
  induction source generalizing collected with
  | nil => exact (List.append_nil _).symm
  | cons head tail ih =>
    rw [upTo, reverseUpTo, reverseUpTo]
    cases last head with
    | true => exact List.reverse_cons
    | false =>
      rw [if_neg Bool.false_ne_true, if_neg Bool.false_ne_true, ih, ih, List.reverse_cons,
        List.append_assoc]
      rfl

@[simp] theorem upTo_nil (last : α → Bool) : (nil : LazyList α).upTo last = [] :=
  rfl

/-- The front ends at the first element if that is a last one, and goes on behind it otherwise. -/
theorem upTo_cons (last : α → Bool) (head : α) (tail : Unit → LazyList α) :
    (cons head tail).upTo last =
      if last head then [head] else head :: (tail ()).upTo last := by
  rw [upTo, reverseUpTo]
  cases last head with
  | true => rfl
  | false => exact reverse_reverseUpTo last (tail ()) [head]

end LazyList

end JsonSelect
