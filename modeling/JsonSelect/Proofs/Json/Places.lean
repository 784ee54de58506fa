import Mathlib.Data.List.FinRange
import Mathlib.Tactic.Common
import JsonSelect.Proofs.Json.Preorder

/-!
# Places in a document

A place below a node is a list of positions, one for each level on the way down to it.  Places are
ordered lexicographically: a node comes before everything below it, and everything below a node
before its next sibling.

`entryAt?` goes down to a place, and `Json.places` collects the places that a node has.  These are
all places at which there is something, in their order (`Json.mem_places_iff`,
`Json.pairwise_places`), and the recursion on the tree lists the entries at these places
(`Json.map_entryAt?_places`).  So does a walk that is asked for one entry after the other, and at
its end it has nothing more to answer (`Walk.answer_below`).
-/

namespace JsonSelect

/-! ### Going down to a place -/

/-- The entry at a place below an entry: at the position of each level in turn. -/
def entryAt? : Entry → List Nat → Option Entry
  | entry, [] => some entry
  | entry, i :: place => entry.2.entries[i]?.bind fun child => entryAt? child place

/-- A place below an entry is a place below one of its own entries. -/
theorem entryAt?_cons (entry : Entry) (i : Nat) (place : List Nat) :
    entryAt? entry (i :: place) = entry.2.entries[i]?.bind (entryAt? · place) :=
  rfl

/-- What stands below an entry does not depend on its name. -/
theorem entryAt?_eq_of_ne_nil (entry : Entry) (name : Option String) {place : List Nat}
    (h : place ≠ []) : entryAt? entry place = entryAt? (name, entry.2) place := by
  obtain ⟨i, place, rfl⟩ := List.exists_cons_of_ne_nil h
  rfl

namespace Json

/-- The places below a node: the positions of its children, each followed by the places below that
child. -/
def places (node : Json) : List (List Nat) :=
  (List.finRange node.entries.length).flatMap fun i =>
    [i.val] :: (node.entries[i].2.places.map (i.val :: ·))
termination_by sizeOf node
decreasing_by
  exact sizeOf_lt_of_mem_children (mem_children_of_mem_entries (List.getElem_mem i.isLt))

/-- The places below a node are not the node itself. -/
theorem ne_nil_of_mem_places {node : Json} {place : List Nat} (h : place ∈ node.places) :
    place ≠ [] := by
  rw [places] at h
  obtain ⟨i, -, h⟩ := List.mem_flatMap.mp h
  rcases List.mem_cons.mp h with rfl | h
  · exact List.cons_ne_nil _ _
  · obtain ⟨below, -, rfl⟩ := List.mem_map.mp h
    exact List.cons_ne_nil _ _

/-- A place below a node starts with the position of a child, and either ends there or goes on with
a place below that child. -/
theorem cons_mem_places_iff {node : Json} {i : Nat} {place : List Nat} :
    i :: place ∈ node.places ↔
      ∃ child, node.entries[i]? = some child ∧ (place = [] ∨ place ∈ child.2.places) := by
  rw [places, List.mem_flatMap]
  constructor
  · rintro ⟨j, -, h⟩
    refine ⟨node.entries[j], ?_⟩
    rcases List.mem_cons.mp h with h | h
    · obtain ⟨rfl, rfl⟩ := List.cons.inj h
      exact ⟨List.getElem?_eq_getElem j.isLt, Or.inl rfl⟩
    · obtain ⟨below, hbelow, h⟩ := List.mem_map.mp h
      obtain ⟨rfl, rfl⟩ := List.cons.inj h
      exact ⟨List.getElem?_eq_getElem j.isLt, Or.inr hbelow⟩
  · rintro ⟨child, hchild, h⟩
    obtain ⟨hi, rfl⟩ := List.getElem?_eq_some_iff.mp hchild
    refine ⟨⟨i, hi⟩, List.mem_finRange _, List.mem_cons.mpr ?_⟩
    rcases h with rfl | h
    · exact Or.inl rfl
    · exact Or.inr (List.mem_map.mpr ⟨place, h, rfl⟩)

/-- The places below a node are all places, its own excluded, at which there is an entry. -/
theorem mem_places_iff {node : Json} {place : List Nat} :
    place ∈ node.places ↔ place ≠ [] ∧ ∃ entry, entryAt? (none, node) place = some entry := by
  induction place generalizing node with
  | nil => exact iff_of_false (fun h => ne_nil_of_mem_places h rfl) fun h => h.1 rfl
  | cons i place ih =>
    have hbelow (child : Entry) : (place = [] ∨ place ∈ child.2.places) ↔
        ∃ entry, entryAt? child place = some entry := by
      by_cases hplace : place = []
      · subst hplace
        exact iff_of_true (Or.inl rfl) ⟨child, rfl⟩
      · rw [or_iff_right hplace, ih, and_iff_right hplace, entryAt?_eq_of_ne_nil child none hplace]
    simp only [cons_mem_places_iff, hbelow, entryAt?_cons, Option.bind_eq_some_iff]
    constructor
    · rintro ⟨child, hchild, entry, hentry⟩
      exact ⟨List.cons_ne_nil _ _, entry, child, hchild, hentry⟩
    · rintro ⟨-, entry, child, hchild, hentry⟩
      exact ⟨child, hchild, entry, hentry⟩

/-- The places below a node are listed in their order, each of them once. -/
theorem pairwise_places (node : Json) : node.places.Pairwise (· < ·) := by
  induction node using inductionOnChildren with
  | h node ih =>
    rw [places, List.pairwise_flatMap]
    constructor
    · intro i _
      have hchild : node.entries[i].2 ∈ node.children :=
        mem_children_of_mem_entries (List.getElem_mem i.isLt)
      refine List.pairwise_cons.mpr ⟨?_, ?_⟩
      · intro place hplace
        obtain ⟨below, hbelow, rfl⟩ := List.mem_map.mp hplace
        obtain ⟨j, below, rfl⟩ := List.exists_cons_of_ne_nil (ne_nil_of_mem_places hbelow)
        exact List.cons_lt_cons_self.mpr (List.nil_lt_cons j below)
      · exact (ih _ hchild).map _ fun _ _ h => List.cons_lt_cons_self.mpr h
    · refine (List.pairwise_lt_finRange _).imp fun {i j} hij => ?_
      have hfirst {k : Fin node.entries.length} {place : List Nat}
          (h : place ∈ [k.val] :: (node.entries[k].2.places.map (k.val :: ·))) :
          ∃ below, place = k.val :: below := by
        rcases List.mem_cons.mp h with rfl | h
        · exact ⟨[], rfl⟩
        · obtain ⟨below, -, rfl⟩ := List.mem_map.mp h
          exact ⟨below, rfl⟩
      intro place hplace other hother
      obtain ⟨below, rfl⟩ := hfirst hplace
      obtain ⟨below', rfl⟩ := hfirst hother
      exact List.cons_lt_cons_iff.mpr (Or.inl hij)

/-- No place below a node comes twice. -/
theorem nodup_places (node : Json) : node.places.Nodup := by
  refine node.pairwise_places.imp ?_
  rintro place _ hlt rfl
  exact List.lt_irrefl _ hlt

/-- The recursion on the tree lists the entries at the places in their order. -/
theorem map_entryAt?_places (node : Json) :
    node.places.map (entryAt? (none, node)) = node.preorder.map some := by
  induction node using inductionOnChildren with
  | h node ih =>
    have hentries : node.preorder =
        (List.finRange node.entries.length).flatMap fun i =>
          node.entries[i] :: node.entries[i].2.preorder := by
      rw [preorder_eq, preorderOfEntries]
      conv_lhs => rw [← List.map_getElem_finRange node.entries, List.flatMap_map]
      rfl
    rw [places, hentries, List.map_flatMap, List.map_flatMap]
    congr 1
    funext i
    have hchild : node.entries[i].2 ∈ node.children :=
      mem_children_of_mem_entries (List.getElem_mem i.isLt)
    have hget : node.entries[i.val]? = some node.entries[i] := List.getElem?_eq_getElem i.isLt
    rw [List.map_cons, List.map_cons, List.map_map, ← ih _ hchild]
    refine congrArg₂ List.cons ?_ (List.map_congr_left fun place hplace => ?_)
    · rw [entryAt?_cons, hget]
      rfl
    · rw [Function.comp_apply, entryAt?_cons, hget, Option.bind_some]
      exact entryAt?_eq_of_ne_nil _ none (ne_nil_of_mem_places hplace)

end Json

/-! ### Walking from entry to entry -/

namespace Walk

/-- What asking a walk for its next entry gives, and the walk after it.  Once there is none, all
rows have been dropped. -/
def next (walk : Walk) : Option Entry × Walk :=
  match walk.next? with
  | some (entry, rest) => (some entry, rest)
  | none => (none, ⟨[]⟩)

/-- What a walk answers when it is asked for its next entry again and again, counted from zero. -/
def answer (walk : Walk) : Nat → Option Entry
  | 0 => walk.next.1
  | k + 1 => walk.next.2.answer k

/-- Asking takes the first of the entries that the rows stand for, if there is any. -/
theorem next_eq (walk : Walk) :
    walk.next.1 = (walk.rows.flatMap preorderOfEntries).head? ∧
      walk.next.2.rows.flatMap preorderOfEntries =
        (walk.rows.flatMap preorderOfEntries).tail := by
  rw [next, next?]
  cases h : advance walk.rows with
  | none =>
    rw [flatMap_preorder_of_advance_eq_none h]
    exact ⟨rfl, rfl⟩
  | some result =>
    rw [flatMap_preorder_of_advance h]
    exact ⟨rfl, rfl⟩

/-- A walk answers with the entries of its rows, and then with nothing any more. -/
theorem answer_eq_getElem? (walk : Walk) (k : Nat) :
    walk.answer k = (walk.rows.flatMap preorderOfEntries)[k]? := by
  induction k generalizing walk with
  | zero => rw [answer, walk.next_eq.1, List.head?_eq_getElem?]
  | succ k ih => rw [answer, ih, walk.next_eq.2, List.getElem?_tail]

/-- The walk below a node answers with the entry at each place below the node, in the order of the
places, and with nothing after the last one.  The places are all those, other than that of the node
itself, at which there is an entry, and each comes once.  These are also the entries of the
recursion: every child, followed by the entries below that child. -/
theorem answer_below (node : Json) :
    (∀ k, (below node).answer k = node.places[k]?.bind (entryAt? (none, node))) ∧
    (∀ place, place ∈ node.places ↔
      place ≠ [] ∧ ∃ entry, entryAt? (none, node) place = some entry) ∧
    node.places.Pairwise (· < ·) ∧
    (∀ k, (below node).answer k = node.descendants.toList[k]?) ∧
    node.descendants.toList =
      node.entries.flatMap fun entry => entry :: entry.2.descendants.toList := by
  have hwalk (k : Nat) : (below node).answer k = node.preorder[k]? := by
    rw [answer_eq_getElem?, Json.preorder_eq, below]
    exact congrArg (·[k]?) (List.append_nil _)
  refine ⟨fun k => ?_, fun place => Json.mem_places_iff, node.pairwise_places, fun k => ?_, ?_⟩
  · have hplace : node.places[k]?.map (entryAt? (none, node)) = node.preorder[k]?.map some := by
      rw [← List.getElem?_map, node.map_entryAt?_places, List.getElem?_map]
    calc (below node).answer k
      _ = (node.preorder[k]?.map some).bind id := by
        rw [hwalk]
        cases node.preorder[k]? <;> rfl
      _ = node.places[k]?.bind (entryAt? (none, node)) := by
        rw [← hplace, Option.bind_map, Function.id_comp]
  · rw [hwalk, Json.toList_descendants]
  · simp only [Json.toList_descendants]
    exact node.preorder_eq

end Walk

end JsonSelect
