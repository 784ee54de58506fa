import Mathlib.Data.List.Nodup
import Mathlib.Tactic.Common
import JsonSelect.Json.Reader
import JsonSelect.Proofs.Json.Preorder

/-!
# Names of members

No object of a document has two members of one name: where a name is repeated in a text, the
reader gives the member of that name its last value (`Json.hasDistinctNames_of_read?`).  In such a
document the member that is found by its name is the only one that has the name
(`Json.toList_member?`).
-/

namespace JsonSelect

namespace Json

/-- No object of a document has two members of one name. -/
def HasDistinctNames (root : Json) : Prop :=
  ∀ members, object members ∈ root.nodes → (members.map Prod.fst).Nodup

/-- A document is checked node by node: its root, and then what lies below each child. -/
theorem hasDistinctNames_iff {node : Json} :
    node.HasDistinctNames ↔
      (∀ members, node = object members → (members.map Prod.fst).Nodup) ∧
        ∀ child ∈ node.children, child.HasDistinctNames := by
  constructor
  · intro h
    rw [HasDistinctNames, nodes_eq] at h
    refine ⟨fun members hmembers => h members (List.mem_cons.mpr (Or.inl hmembers.symm)), ?_⟩
    intro child hchild members hmembers
    exact h members (List.mem_cons_of_mem _ (List.mem_flatMap.mpr ⟨child, hchild, hmembers⟩))
  · rintro ⟨hroot, hbelow⟩ members hmembers
    rw [nodes_eq] at hmembers
    rcases List.mem_cons.mp hmembers with h | h
    · exact hroot members h.symm
    · obtain ⟨child, hchild, hmembers⟩ := List.mem_flatMap.mp h
      exact hbelow child hchild members hmembers

/-- The names of an array are those of its elements. -/
theorem hasDistinctNames_array {elements : List Json} :
    (array elements).HasDistinctNames ↔ ∀ value ∈ elements, value.HasDistinctNames := by
  rw [hasDistinctNames_iff]
  exact and_iff_right fun members h => by contradiction

/-- The names of an object are those of its members and of the values below them. -/
theorem hasDistinctNames_object {members : List (String × Json)} :
    (object members).HasDistinctNames ↔
      (members.map Prod.fst).Nodup ∧ ∀ member ∈ members, member.2.HasDistinctNames := by
  rw [hasDistinctNames_iff]
  refine and_congr ⟨fun h => h members rfl, ?_⟩ List.forall_mem_map
  rintro h _ ⟨⟩
  exact h

/-- What has no children has no names. -/
theorem hasDistinctNames_of_not_isContainer {node : Json} (h : node.isContainer = false) :
    node.HasDistinctNames := by
  rw [hasDistinctNames_iff]
  cases node with
  | array | object => contradiction
  | _ => exact ⟨nofun, nofun⟩

/-! ### Members by name -/

/-- The values of all members of that name. -/
def namedMembers (name : String) (node : Json) : List Json :=
  (node.entries.filter fun entry => entry.1 == some name).map Prod.snd

/-- Where names are distinct, the member of a name is the only one that has it. -/
theorem toList_member? {members : List (String × Json)} (h : (members.map Prod.fst).Nodup)
    (name : String) : (member? members name).toList = (object members).namedMembers name := by
  induction members with
  | nil => rfl
  | cons member rest ih =>
    obtain ⟨other, value⟩ := member
    obtain ⟨hother, hrest⟩ := List.nodup_cons.mp h
    by_cases hname : name = other
    · subst hname
      have hnone : (object rest).namedMembers name = [] := by
        simp only [namedMembers, entries, List.map_eq_nil_iff, List.filter_eq_nil_iff,
          List.forall_mem_map, beq_iff_eq, Option.some.injEq]
        intro member hmember heq
        exact hother (List.mem_map.mpr ⟨member, hmember, heq⟩)
      have hfirst : (object ((name, value) :: rest)).namedMembers name =
          value :: (object rest).namedMembers name := by
        simp [namedMembers, entries]
      rw [hfirst, hnone]
      simp [member?]
    · have hlookup : member? ((other, value) :: rest) name = member? rest name := by
        rw [member?, List.lookup_cons, beq_eq_false_iff_ne.mpr hname]
        rfl
      have hskip : (object ((other, value) :: rest)).namedMembers name =
          (object rest).namedMembers name := by
        simp [namedMembers, entries, Ne.symm hname]
      rw [hlookup, hskip, ih hrest]

end Json

/-! ### Documents that are read -/

/-- Putting a member among others adds no other one. -/
theorem mem_putMember {members : List (String × Json)} {name : String} {value : Json}
    {member : String × Json} (h : member ∈ putMember members name value) :
    member ∈ members ∨ member = (name, value) := by
  induction members with
  | nil => exact Or.inr (List.mem_singleton.mp h)
  | cons first rest ih =>
    obtain ⟨other, old⟩ := first
    rw [putMember] at h
    split at h
    · rcases List.mem_cons.mp h with rfl | h
      · exact Or.inr rfl
      · exact Or.inl (List.mem_cons_of_mem _ h)
    · rcases List.mem_cons.mp h with rfl | h
      · exact Or.inl List.mem_cons_self
      · exact (ih h).imp_left (List.mem_cons_of_mem _)

/-- Adding a member adds its name if it is new. -/
theorem nodup_putMember {members : List (String × Json)} (h : (members.map Prod.fst).Nodup)
    (name : String) (value : Json) : ((putMember members name value).map Prod.fst).Nodup := by
  induction members with
  | nil => exact List.nodup_singleton name
  | cons first rest ih =>
    obtain ⟨other, old⟩ := first
    obtain ⟨hother, hrest⟩ := List.nodup_cons.mp h
    rw [putMember]
    split
    · next heq => exact List.nodup_cons.mpr ⟨heq ▸ hother, hrest⟩
    · next hne =>
      refine List.nodup_cons.mpr ⟨fun hmem => ?_, ih hrest⟩
      obtain ⟨member, hmember, hname⟩ := List.mem_map.mp hmem
      rcases mem_putMember hmember with hmember | rfl
      · exact hother (hname ▸ List.mem_map_of_mem hmember)
      · exact hne hname.symm

/-- United members have distinct names, and each is one of the members that were united. -/
theorem uniteMembers_invariant (members : List (String × Json)) :
    ((uniteMembers members).map Prod.fst).Nodup ∧
      ∀ member ∈ uniteMembers members, member ∈ members := by
  refine List.foldlRecOn
    (motive := fun united => (united.map Prod.fst).Nodup ∧ ∀ member ∈ united, member ∈ members)
    members _ ⟨List.nodup_nil, List.forall_mem_nil _⟩ ?_
  rintro united ⟨hnames, hunited⟩ ⟨name, value⟩ hfirst
  refine ⟨nodup_putMember hnames name value, fun member hmember => ?_⟩
  rcases mem_putMember hmember with hmember | rfl
  · exact hunited member hmember
  · exact hfirst

/-- A reader of values of which no object has two members of one name. -/
def ValueReader.ReadsDistinctNames (nested : ValueReader) : Prop :=
  ∀ {text value rest}, nested.read text = some (value, rest) → value.HasDistinctNames

section

variable {nested : ValueReader} (hnested : nested.ReadsDistinctNames) {text rest : List Char}

include hnested

/-- The elements of an array have distinct names if the values in them do. -/
theorem hasDistinctNames_of_readElements {values : List Json}
    (h : readElements nested text = some (values, rest)) :
    ∀ value ∈ values, value.HasDistinctNames := by
  fun_induction readElements nested text generalizing values rest with
  | case1 => contradiction
  | case2 text value r hv r' hr =>
    obtain ⟨rfl, -⟩ := Prod.mk.inj (Option.some.inj h)
    exact List.forall_mem_singleton.mpr (hnested hv)
  | case3 text value r hv r' hr ih =>
    obtain ⟨⟨vs, r''⟩, hm, he⟩ := Option.map_eq_some_iff.1 h
    obtain ⟨rfl, -⟩ := Prod.mk.inj he
    exact List.forall_mem_cons.mpr ⟨hnested hv, ih hm⟩
  | case4 => contradiction

/-- The values of members have distinct names if the values in them do. -/
theorem hasDistinctNames_of_readMembers {members : List (String × Json)}
    (h : readMembers nested text = some (members, rest)) :
    ∀ member ∈ members, member.2.HasDistinctNames := by
  fun_induction readMembers nested text generalizing members rest with
  | case1 => contradiction
  | case2 => contradiction
  | case3 text name r₁ hn value r hv r' hr =>
    obtain ⟨rfl, -⟩ := Prod.mk.inj (Option.some.inj h)
    exact List.forall_mem_singleton.mpr (hnested hv)
  | case4 text name r₁ hn value r hv r' hr ih =>
    obtain ⟨⟨ms, r''⟩, hm, he⟩ := Option.map_eq_some_iff.1 h
    obtain ⟨rfl, -⟩ := Prod.mk.inj he
    exact List.forall_mem_cons.mpr ⟨hnested hv, ih hm⟩
  | case5 => contradiction

/-- An array that is read has distinct names. -/
theorem hasDistinctNames_of_readArray {value : Json}
    (h : readArray nested text = some (value, rest)) : value.HasDistinctNames := by
  unfold readArray at h
  split at h
  · obtain ⟨rfl, -⟩ := Prod.mk.inj (Option.some.inj h)
    exact Json.hasDistinctNames_array.mpr (List.forall_mem_nil _)
  · obtain ⟨⟨values, r⟩, hv, he⟩ := Option.map_eq_some_iff.1 h
    obtain ⟨rfl, -⟩ := Prod.mk.inj he
    exact Json.hasDistinctNames_array.mpr (hasDistinctNames_of_readElements hnested hv)

/-- An object that is read has distinct names, since equal ones are united. -/
theorem hasDistinctNames_of_readObject {value : Json}
    (h : readObject nested text = some (value, rest)) : value.HasDistinctNames := by
  unfold readObject at h
  split at h
  · obtain ⟨rfl, -⟩ := Prod.mk.inj (Option.some.inj h)
    exact Json.hasDistinctNames_object.mpr ⟨List.nodup_nil, List.forall_mem_nil _⟩
  · obtain ⟨⟨members, r⟩, hm, he⟩ := Option.map_eq_some_iff.1 h
    obtain ⟨rfl, -⟩ := Prod.mk.inj he
    obtain ⟨hnames, hfrom⟩ := uniteMembers_invariant members
    have hvalues := hasDistinctNames_of_readMembers hnested hm
    exact Json.hasDistinctNames_object.mpr
      ⟨hnames, fun member hmember => hvalues member (hfrom member hmember)⟩

end

/-- What is read as a scalar is no container. -/
theorem isContainer_of_readScalar {text rest : List Char} {value : Json}
    (h : readScalar text = some (value, rest)) : value.isContainer = false := by
  unfold readScalar at h
  split at h
  case h_1 | h_5 =>
    obtain ⟨_, -, he⟩ := Option.map_eq_some_iff.1 h
    obtain ⟨rfl, -⟩ := Prod.mk.inj he
    rfl
  all_goals
    obtain ⟨rfl, -⟩ := Prod.mk.inj (Option.some.inj h)
    rfl

/-- Readers of values read distinct names, by induction on their levels. -/
theorem readsDistinctNames_valueReader (levels : Nat) :
    (valueReader levels).ReadsDistinctNames := by
  induction levels with
  | zero =>
    intro text value rest h
    exact Json.hasDistinctNames_of_not_isContainer (isContainer_of_readScalar h)
  | succ levels ih =>
    intro text value rest h
    simp only [valueReader] at h
    split at h
    · exact hasDistinctNames_of_readArray ih h
    · exact hasDistinctNames_of_readObject ih h
    · exact Json.hasDistinctNames_of_not_isContainer (isContainer_of_readScalar h)

/-- In a document that is read no object has two members of one name. -/
theorem Json.hasDistinctNames_of_read? {text : String} {root : Json}
    (h : Json.read? text = some root) : root.HasDistinctNames := by
  unfold Json.read? at h
  split at h
  · next value rest hread =>
    split at h
    · obtain rfl := Option.some.inj h
      exact readsDistinctNames_valueReader jsonDepthLimit hread
    · contradiction
  · contradiction

end JsonSelect
