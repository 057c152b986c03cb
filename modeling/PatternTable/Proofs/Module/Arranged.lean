import PatternTable.Proofs.Array.Ordered
import PatternTable.Proofs.Module.Replay

/-!
# Values with rearranged arrays

Elements can be added between those of every array inside a value. An expression still leads to an
array, if the arrays on the way keep every element that they had at the position that the expression
has for it. An assignment to an array changes how no other array is arranged.

* `Value.rearrange`: a value with the elements of its arrays arranged in some way.
* `Value.Placed`: every array inside a value carries the path that leads to it.

Results:
* `Value.Placed.leadsTo`: what the expression of an array evaluates to in a rearranged value, and
  what assigning to it does.
* `Rule.placed_valueWith`, `Rule.holds_valueWith`: the value of a rule is placed and has the arrays
  that are inside the rule.
-/

namespace PatternTable

namespace Value

mutual

/-- A value in which the elements of every array are arranged in some way. -/
def rearrange (arrange : AccessPath → List Value → List Value) : Value → Value
  | .expression code => .expression code
  | .text content => .text content
  | .array source elements => .array source (arrange source (rearrangeElements arrange elements))
  | .object members => .object (rearrangeMembers arrange members)

/-- Elements in which those of every array are arranged in some way. -/
def rearrangeElements (arrange : AccessPath → List Value → List Value) : List Value → List Value
  | [] => []
  | value :: values => value.rearrange arrange :: rearrangeElements arrange values

/-- Members in which the elements of every array are arranged in some way. -/
def rearrangeMembers (arrange : AccessPath → List Value → List Value) :
    List (String × Value) → List (String × Value)
  | [] => []
  | (name, value) :: members =>
    (name, value.rearrange arrange) :: rearrangeMembers arrange members

end

theorem rearrangeElements_eq (arrange : AccessPath → List Value → List Value)
    (elements : List Value) :
    rearrangeElements arrange elements = elements.map (rearrange arrange) := by
  induction elements with
  | nil => rfl
  | cons value elements ih => rw [rearrangeElements, ih, List.map_cons]

theorem rearrangeMembers_eq (arrange : AccessPath → List Value → List Value)
    (members : List (String × Value)) : rearrangeMembers arrange members =
      members.map fun (name, value) => (name, value.rearrange arrange) := by
  induction members with
  | nil => rfl
  | cons member members ih => rw [rearrangeMembers, ih, List.map_cons]

mutual

/-- A value does not change if its arrays do not. -/
theorem rearrange_id : (value : Value) → value.rearrange (fun _ elements => elements) = value
  | .expression _ => by rw [rearrange]
  | .text _ => by rw [rearrange]
  | .array _ elements => by rw [rearrange, rearrangeElements_id elements]
  | .object members => by rw [rearrange, rearrangeMembers_id members]

theorem rearrangeElements_id : (elements : List Value) →
    rearrangeElements (fun _ elements => elements) elements = elements
  | [] => rfl
  | value :: values => by rw [rearrangeElements, rearrange_id value, rearrangeElements_id values]

theorem rearrangeMembers_id : (members : List (String × Value)) →
    rearrangeMembers (fun _ elements => elements) members = members
  | [] => rfl
  | (_, value) :: members => by
    rw [rearrangeMembers, rearrange_id value, rearrangeMembers_id members]

end

/-- Inside a value, there is an array with some elements. -/
inductive Holds (array : AccessPath) (elements : List Value) : Value → Prop where
  | here : Holds array elements (.array array elements)
  | element {source : AccessPath} {values : List Value} {value : Value} (hmem : value ∈ values)
    (h : Holds array elements value) : Holds array elements (.array source values)
  | member {members : List (String × Value)} {name : String} {value : Value}
    (hmem : (name, value) ∈ members) (h : Holds array elements value) :
    Holds array elements (.object members)

/-- A value is no array and no object. -/
def IsFlat : Value → Prop
  | .expression _ => True
  | .text _ => True
  | .array _ _ => False
  | .object _ => False

theorem IsFlat.not_holds {value : Value} (h : value.IsFlat) {array : AccessPath}
    {elements : List Value} : ¬ value.Holds array elements := by
  cases value with
  | expression => nofun
  | text => nofun
  | array => exact h.elim
  | object => exact h.elim

theorem IsFlat.rearrange_eq {value : Value} (h : value.IsFlat)
    (arrange : AccessPath → List Value → List Value) : value.rearrange arrange = value := by
  cases value with
  | expression => rfl
  | text => rfl
  | array => exact h.elim
  | object => exact h.elim

/-! ## Values with their paths -/

/-- The value at a path is that of a rule: every array inside it carries the path that leads to it,
    and has an element for each of the indices that are recorded of it. -/
inductive Placed (native : Arrays) : AccessPath → Value → Prop where
  | flat {path : AccessPath} {value : Value} (h : value.IsFlat) : Placed native path value
  | array {path : AccessPath} {indices : List Nat} {elements : List Value}
    (hlookup : native.lookup path = some indices) (hnodup : indices.Nodup)
    (hlength : indices.length = elements.length)
    (h : ∀ (place index : Nat) (value : Value), indices[place]? = some index →
      elements[place]? = some value → Placed native (path.index index) value) :
    Placed native path (.array path elements)
  /-- The object of a rule: its own members, and those for its fields. -/
  | rule {path : AccessPath} {own : List (String × Value)} {fields : List (Field × Value)}
    (hflat : ∀ member ∈ own, member.2.IsFlat)
    (hown : ∀ field : Field, field.name ∉ own.map Prod.fst)
    (hnodup : (fields.map Prod.fst).Nodup)
    (h : ∀ field value, (field, value) ∈ fields → Placed native (path.field field) value) :
    Placed native path (.object (own ++ fields.map fun member => (member.1.name, member.2)))
  /-- The object of the groups of a capture field. -/
  | groups {path : AccessPath} {groups : List (Nat × Value)} (hnodup : (groups.map Prod.fst).Nodup)
    (h : ∀ number value, (number, value) ∈ groups → Placed native (path.group number) value) :
    Placed native path (.object (groups.map fun member => (toString member.1, member.2)))

variable {native : Arrays} {arrange other : AccessPath → List Value → List Value}

theorem rearrange_rule {own : List (String × Value)} {fields : List (Field × Value)}
    (hflat : ∀ member ∈ own, member.2.IsFlat) :
    (object (own ++ fields.map fun member => (member.1.name, member.2))).rearrange arrange =
      .object (own ++ fields.map fun member => (member.1.name, member.2.rearrange arrange)) := by
  rw [rearrange, rearrangeMembers_eq, List.map_append, List.map_map]
  congr 2
  conv_rhs => rw [← List.map_id own]
  refine List.map_congr_left fun member hmember => ?_
  exact congrArg (Prod.mk member.1) ((hflat member hmember).rearrange_eq arrange)

theorem rearrange_groups {groups : List (Nat × Value)} :
    (object (groups.map fun member => (toString member.1, member.2))).rearrange arrange =
      .object (groups.map fun member => (toString member.1, member.2.rearrange arrange)) := by
  rw [rearrange, rearrangeMembers_eq, List.map_map]
  rfl

theorem rearrange_array {source : AccessPath} {elements : List Value} :
    (array source elements).rearrange arrange =
      .array source (arrange source (elements.map (rearrange arrange))) := by
  rw [rearrange, rearrangeElements_eq]

/-! ### Parts -/

theorem exists_index {indices : List Nat} {values : List Value}
    (hlength : indices.length = values.length) {place : Nat} {value : Value}
    (h : values[place]? = some value) : ∃ index, indices[place]? = some index :=
  ⟨_, List.getElem?_eq_getElem (hlength ▸ (List.getElem?_eq_some_iff.1 h).1)⟩

theorem exists_place {indices : List Nat} {values : List Value}
    (hlength : indices.length = values.length) {value : Value} (h : value ∈ values) :
    ∃ place index : Nat, indices[place]? = some index ∧ values[place]? = some value := by
  obtain ⟨place, hvalue⟩ := List.mem_iff_getElem?.1 h
  obtain ⟨index, hindex⟩ := exists_index hlength hvalue
  exact ⟨place, index, hindex, hvalue⟩

theorem Holds.exists_field {own : List (String × Value)} {fields : List (Field × Value)}
    {array : AccessPath} {elements : List Value} (hflat : ∀ member ∈ own, member.2.IsFlat)
    (h : (object (own ++ fields.map fun member => (member.1.name, member.2))).Holds array
      elements) : ∃ field value, (field, value) ∈ fields ∧ value.Holds array elements := by
  cases h with
  | member hmem h =>
    obtain hmem | hmem := List.mem_append.1 hmem
    · exact absurd h (hflat _ hmem).not_holds
    · obtain ⟨⟨field, value⟩, hfield, heq⟩ := List.mem_map.1 hmem
      obtain ⟨-, rfl⟩ := Prod.mk.inj heq
      exact ⟨field, value, hfield, h⟩

theorem Holds.exists_group {groups : List (Nat × Value)} {array : AccessPath}
    {elements : List Value}
    (h : (object (groups.map fun member => (toString member.1, member.2))).Holds array elements) :
    ∃ number value, (number, value) ∈ groups ∧ value.Holds array elements := by
  cases h with
  | member hmem h =>
    obtain ⟨⟨number, value⟩, hgroup, heq⟩ := List.mem_map.1 hmem
    obtain ⟨-, rfl⟩ := Prod.mk.inj heq
    exact ⟨number, value, hgroup, h⟩

namespace Placed

variable {path : AccessPath} {value : Value}

/-- The arrays inside a value are below its path. -/
theorem path_below (h : Placed native path value) {array : AccessPath} {elements : List Value}
    (hholds : value.Holds array elements) : path.Below array := by
  induction h with
  | flat h => exact absurd hholds h.not_holds
  | array hlookup hnodup hlength h ih =>
    cases hholds with
    | here => exact .refl _
    | element hmem hinner =>
      obtain ⟨place, index, hindex, hvalue⟩ := exists_place hlength hmem
      exact (ih place index _ hindex hvalue hinner).of_extend
  | rule hflat hown hnodup h ih =>
    obtain ⟨field, value, hfield, hinner⟩ := hholds.exists_field hflat
    exact (ih field value hfield hinner).of_extend
  | groups hnodup h ih =>
    obtain ⟨number, value, hgroup, hinner⟩ := hholds.exists_group
    exact (ih number value hgroup hinner).of_extend

/-- How a value is rearranged depends only on the arrays below its path, with as many elements as
    they have indices. -/
theorem rearrange_congr (h : Placed native path value)
    (hagree : ∀ array indices elements, path.Below array → native.lookup array = some indices →
      indices.length = elements.length → arrange array elements = other array elements) :
    value.rearrange arrange = value.rearrange other := by
  induction h with
  | flat h => rw [h.rearrange_eq, h.rearrange_eq]
  | @array path indices elements hlookup hnodup hlength h ih =>
    have helements : elements.map (rearrange arrange) = elements.map (rearrange other) := by
      refine List.map_congr_left fun value hmem => ?_
      obtain ⟨place, index, hindex, hvalue⟩ := exists_place hlength hmem
      exact ih place index value hindex hvalue fun array indices elements hbelow =>
        hagree array indices elements hbelow.of_extend
    rw [rearrange_array, rearrange_array, helements,
      hagree path indices _ (.refl path) hlookup (by rw [hlength, List.length_map])]
  | rule hflat hown hnodup h ih =>
    rw [rearrange_rule hflat, rearrange_rule hflat]
    refine congrArg (fun members => object (_ ++ members)) (List.map_congr_left ?_)
    rintro ⟨field, value⟩ hmem
    exact congrArg (Prod.mk field.name) (ih field value hmem
      fun array indices elements hbelow => hagree array indices elements hbelow.of_extend)
  | groups hnodup h ih =>
    rw [rearrange_groups, rearrange_groups]
    refine congrArg object (List.map_congr_left ?_)
    rintro ⟨number, value⟩ hmem
    exact congrArg (Prod.mk (toString number)) (ih number value hmem
      fun array indices elements hbelow => hagree array indices elements hbelow.of_extend)

end Placed

/-! ## Expressions -/

/-- An array is arranged so that the element for an index of the array stands at a position. -/
def Keeps (native : Arrays) (position : AccessPath → Nat → Nat)
    (arrange : AccessPath → List Value → List Value) : Prop :=
  ∀ array indices elements, native.lookup array = some indices →
    indices.length = elements.length → ∀ (place index : Nat) (value : Value),
      indices[place]? = some index → elements[place]? = some value →
        (arrange array elements)[position array index]? = some value ∧
        ∀ changed, (arrange array elements).set (position array index) changed =
          arrange array (elements.set place changed)

/-- The expression of an array leads, from the rearranged value at a path, to the rearranged array,
    and an assignment of the array arranged in another way makes the value in which it is. -/
def LeadsTo (position : AccessPath → Nat → Nat) (arrange : AccessPath → List Value → List Value)
    (path : AccessPath) (value : Value) (array : AccessPath) (elements : List Value) : Prop :=
  ∃ accesses put, array.accesses position = path.accesses position ++ accesses ∧
    Focus accesses (value.rearrange arrange)
      (.array array (arrange array (elements.map (rearrange arrange)))) put ∧
    ∀ other, (∀ path, path ≠ array → other path = arrange path) →
      put (.array array (other array (elements.map (rearrange arrange)))) = value.rearrange other

variable {position : AccessPath → Nat → Nat} {path array : AccessPath} {elements : List Value}

/-- A value that the array is not below does not change. -/
theorem Placed.rearrange_of_not_below {value : Value} (h : Placed native path value)
    (hbelow : ¬ path.Below array) (hagree : ∀ path, path ≠ array → other path = arrange path) :
    value.rearrange other = value.rearrange arrange :=
  h.rearrange_congr fun inner _ _ hinner _ _ => by
    rw [hagree inner fun heq => hbelow (heq ▸ hinner)]

theorem leadsTo_self {indices : List Nat} (hlength : indices.length = elements.length)
    (h : ∀ (place index : Nat) (value : Value), indices[place]? = some index →
      elements[place]? = some value → Placed native (path.index index) value) :
    LeadsTo position arrange path (.array path elements) path elements := by
  refine ⟨[], id, (List.append_nil _).symm, ?_, fun other hagree => ?_⟩
  · rw [rearrange_array]
    exact .nil _
  · rw [rearrange_array]
    refine congrArg (fun values => Value.array path (other path values))
      (List.map_congr_left fun value hmem => ?_)
    obtain ⟨place, index, hindex, hvalue⟩ := exists_place hlength hmem
    exact ((h place index value hindex hvalue).rearrange_of_not_below
      (AccessPath.not_extend_below path _) hagree).symm

/-- Of the elements of an array, only the one that another array is inside of changes with it. -/
theorem set_map_rearrange {indices : List Nat} {values : List Value} {place index : Nat}
    {value : Value} (hnodup : indices.Nodup) (hlength : indices.length = values.length)
    (hplaced : ∀ (place index : Nat) (value : Value), indices[place]? = some index →
      values[place]? = some value → Placed native (path.index index) value)
    (hindex : indices[place]? = some index) (hvalue : values[place]? = some value)
    (hbelow : (path.index index).Below array)
    (hagree : ∀ path, path ≠ array → other path = arrange path) :
    (values.map (rearrange arrange)).set place (value.rearrange other) =
      values.map (rearrange other) := by
  refine List.ext_getElem? fun sibling => ?_
  obtain rfl | hne := eq_or_ne sibling place
  · have hlt := (List.getElem?_eq_some_iff.1 hvalue).1
    rw [List.getElem?_set_self (by rwa [List.length_map]), List.getElem?_map, hvalue,
      Option.map_some]
  · rw [List.getElem?_set_ne hne.symm, List.getElem?_map, List.getElem?_map]
    refine Option.map_congr fun inner hinner => ?_
    obtain ⟨found, hfound⟩ := exists_index hlength hinner
    refine ((hplaced sibling found inner hfound hinner).rearrange_of_not_below
      (fun hother => hne ?_) hagree).symm
    have hstep := Step.index.inj (AccessPath.step_eq_of_below hother hbelow)
    exact (List.getElem?_inj (List.getElem?_eq_some_iff.1 hfound).1 hnodup).1
      (hfound.trans (hstep ▸ hindex.symm))

theorem LeadsTo.of_element {indices : List Nat} {values : List Value} {place index : Nat}
    {value : Value} (hkeeps : Keeps native position arrange)
    (hlookup : native.lookup path = some indices) (hnodup : indices.Nodup)
    (hlength : indices.length = values.length)
    (hplaced : ∀ (place index : Nat) (value : Value), indices[place]? = some index →
      values[place]? = some value → Placed native (path.index index) value)
    (hindex : indices[place]? = some index) (hvalue : values[place]? = some value)
    (hbelow : (path.index index).Below array)
    (h : LeadsTo position arrange (path.index index) value array elements) :
    LeadsTo position arrange path (.array path values) array elements := by
  obtain ⟨accesses, put, haccesses, hfocus, hput⟩ := h
  have hmap : indices.length = (values.map (rearrange arrange)).length := by
    rw [List.length_map, hlength]
  obtain ⟨hget, hset⟩ := hkeeps path indices _ hlookup hmap place index
    (value.rearrange arrange) hindex (by rw [List.getElem?_map, hvalue, Option.map_some])
  refine ⟨.number (position path index) :: accesses, _, ?_,
    by rw [rearrange_array]; exact .cons (opens_element path hget) hfocus, fun other hagree => ?_⟩
  · rw [haccesses, AccessPath.index, AccessPath.accesses_extend, List.append_assoc]
    rfl
  · have hvalues := set_map_rearrange hnodup hlength hplaced hindex hvalue hbelow hagree
    have hpath : path ≠ array := fun heq => AccessPath.not_extend_below _ _ (heq ▸ hbelow)
    rw [Function.comp_apply, hput other hagree, hset, hvalues, rearrange_array, hagree path hpath]

/-- A member of an object that is the value at the path with one more step. -/
theorem LeadsTo.of_member {α : Type} (own : List (String × Value)) {list : List (α × Value)}
    {name : α → String} {step : α → Step} {key : α} {value : Value} {access : Access}
    (hname : Function.Injective name) (hstep : Function.Injective step)
    (hown : ∀ a, name a ∉ own.map Prod.fst) (hnodup : (list.map Prod.fst).Nodup)
    (hplaced : ∀ a value, (a, value) ∈ list → Placed native (path.extend (step a)) value)
    (haccess : ∀ {members part put}, Opens (.member (name key)) (object members) part put →
      Opens access (object members) part put)
    (hextend : (path.extend (step key)).accesses position = path.accesses position ++ [access])
    (hrearrange : ∀ arrange : AccessPath → List Value → List Value,
      (object (own ++ list.map fun member => (name member.1, member.2))).rearrange arrange =
        object (own ++ list.map fun member => (name member.1, member.2.rearrange arrange)))
    (hmem : (key, value) ∈ list) (hbelow : (path.extend (step key)).Below array)
    (h : LeadsTo position arrange (path.extend (step key)) value array elements) :
    LeadsTo position arrange path
      (object (own ++ list.map fun member => (name member.1, member.2))) array elements := by
  obtain ⟨accesses, put, haccesses, hfocus, hput⟩ := h
  have hnames : (list.map fun member => name member.1).Nodup := by
    have hmap := hnodup.map hname
    rwa [List.map_map] at hmap
  obtain ⟨putMember, hopens, hputMember⟩ := exists_opens_append_map own hnames hmem (hown key)
    fun member => member.2.rearrange arrange
  refine ⟨access :: accesses, putMember ∘ put, ?_,
    by rw [hrearrange]; exact .cons (haccess hopens) hfocus, fun other hagree => ?_⟩
  · rw [haccesses, hextend, List.append_assoc]
    rfl
  · rw [Function.comp_apply, hput other hagree, hrearrange]
    refine hputMember (fun member => member.2.rearrange other) ?_
    rintro ⟨sibling, inner⟩ hsibling hne
    refine ((hplaced sibling inner hsibling).rearrange_of_not_below (fun hother => hne ?_)
      hagree).symm
    rw [hstep (AccessPath.step_eq_of_below hother hbelow)]

/-- What the expression of an array inside a value evaluates to after the value is rearranged. -/
theorem Placed.leadsTo {value : Value} (h : Placed native path value)
    (hkeeps : Keeps native position arrange) (hholds : value.Holds array elements) :
    LeadsTo position arrange path value array elements := by
  induction h with
  | flat h => exact absurd hholds h.not_holds
  | array hlookup hnodup hlength h ih =>
    cases hholds with
    | here => exact leadsTo_self hlength h
    | element hmem hinner =>
      obtain ⟨place, index, hindex, hvalue⟩ := exists_place hlength hmem
      exact .of_element hkeeps hlookup hnodup hlength h hindex hvalue
        ((h place index _ hindex hvalue).path_below hinner)
        (ih place index _ hindex hvalue hinner)
  | @rule path own fields hflat hown hnodup h ih =>
    obtain ⟨field, value, hfield, hinner⟩ := hholds.exists_field hflat
    exact .of_member own Field.name_injective (fun _ _ => Step.field.inj) hown hnodup h id
      (AccessPath.accesses_extend position path (.field field))
      (fun arrange => rearrange_rule hflat) hfield ((h field value hfield).path_below hinner)
      (ih field value hfield hinner)
  | @groups path groups hnodup h ih =>
    obtain ⟨number, value, hgroup, hinner⟩ := hholds.exists_group
    exact .of_member [] toString_injective (fun _ _ => Step.group.inj) (fun _ => List.not_mem_nil)
      hnodup h opens_group (AccessPath.accesses_extend position path (.group number))
      (fun arrange => rearrange_groups) hgroup ((h number value hgroup).path_below hinner)
      (ih number value hgroup hinner)

end Value

/-! ## The values of rules -/

namespace Rule

variable {context : Context} {standing : Standing} {native : Arrays}

theorem isFlat_of_mem_ownMembers {rule : Rule} {path : AccessPath} {member : String × Value}
    (h : member ∈ context.ownMembers rule path) : member.2.IsFlat := by
  obtain ⟨item, -, hmember⟩ := List.mem_filterMap.1 h
  unfold Item.member? at hmember
  split at hmember
  · rw [← Option.some.inj hmember]
    trivial
  · rw [← Option.some.inj hmember]
    trivial
  · simp at hmember

/-- The members for the fields of a rule, each with its field. -/
theorem exists_fields (context : Context) (standing : Standing) (rule : Rule) (path : AccessPath) :
    ∃ fields : List (Field × Value),
      rule.fieldMembers context standing path Field.all =
        fields.map (fun member => (member.1.name, member.2)) ∧
      (fields.map Prod.fst).Nodup ∧ ∀ field value, (field, value) ∈ fields →
        rule.fieldMember context standing path field = some value := by
  refine ⟨Field.all.filterMap fun field =>
    (rule.fieldMember context standing path field).map (Prod.mk field), ?_, ?_, ?_⟩
  · rw [fieldMembers, List.map_filterMap, List.filterMap_eq_flatMap_toList]
    refine List.flatMap_congr fun field _ => ?_
    rw [Option.map_map]
    rfl
  · rw [List.Nodup, List.pairwise_map, List.pairwise_filterMap]
    have hall : Field.all.Nodup := by decide
    refine hall.imp fun {field sibling} hne member hmember other hother => ?_
    obtain ⟨_, -, rfl⟩ := Option.map_eq_some_iff.1 hmember
    obtain ⟨_, -, rfl⟩ := Option.map_eq_some_iff.1 hother
    exact hne
  · intro field value hmem
    obtain ⟨_, -, hmember⟩ := List.mem_filterMap.1 hmem
    obtain ⟨_, hvalue, heq⟩ := Option.map_eq_some_iff.1 hmember
    obtain ⟨rfl, rfl⟩ := Prod.mk.inj heq
    exact hvalue

/-- An array is placed if the rules in it are. -/
theorem placed_cellsWith {array : AccessPath} {entries : List Rule}
    (hlookup : native.lookup array =
      some (Cells.filled (cellsWith context standing array entries)))
    (h : ∀ index, ∀ entry : Rule, entries[index]? = some entry → entry.isReference = false →
      Value.Placed native (array.index index)
        (entry.valueWith context standing (array.index index))) :
    Value.Placed native array
      (.array array (cellsWith context standing array entries).reduceOption) := by
  have hcells : List.Forall₂ (fun index value => Value.Placed native (array.index index) value)
      (Cells.filled (cellsWith context standing array entries))
      (cellsWith context standing array entries).reduceOption := by
    refine Cells.forall₂_filled fun index value hcell => ?_
    rw [getElem?_cellsWith, Option.map_eq_some_iff] at hcell
    obtain ⟨entry, hget, hcell⟩ := hcell
    rw [Standing.cell] at hcell
    cases hreference : entry.reference with
    | none =>
      simp only [hreference, Option.some.injEq] at hcell
      exact hcell ▸ h index entry hget (by rw [isReference, hreference]; rfl)
    | some spelling =>
      simp only [hreference, Option.map_eq_some_iff] at hcell
      obtain ⟨_, -, rfl⟩ := hcell
      exact .flat trivial
  refine .array hlookup ((Cells.filledFrom_sorted 0 _).imp Nat.ne_of_lt) hcells.length_eq ?_
  intro place index value hindex hvalue
  obtain ⟨hlt, rfl⟩ := List.getElem?_eq_some_iff.1 hindex
  obtain ⟨hlt', rfl⟩ := List.getElem?_eq_some_iff.1 hvalue
  exact hcells.get hlt hlt'

/-- The object of some groups is placed if the rules in it are. -/
theorem placed_groups {path : AccessPath} {groups : List (Nat × Rule)}
    (hnodup : (groups.map Prod.fst).Nodup)
    (h : ∀ group ∈ groups, Value.Placed native (path.group group.1)
      (group.2.valueWith context standing (path.group group.1))) :
    Value.Placed native path (.object (groups.map fun (number, inner) =>
      (toString number, inner.valueWith context standing (path.group number)))) := by
  have heq : (groups.map fun (number, inner) =>
      (toString number, inner.valueWith context standing (path.group number))) =
        (groups.map fun group =>
          (group.1, group.2.valueWith context standing (path.group group.1))).map
          fun member => (toString member.1, member.2) := by
    rw [List.map_map]
    rfl
  rw [heq]
  refine .groups (by rwa [List.map_map]) fun number value hmem => ?_
  obtain ⟨group, hgroup, hvalue⟩ := List.mem_map.1 hmem
  obtain ⟨rfl, rfl⟩ := Prod.mk.inj hvalue
  exact h group hgroup

/-- The value of a rule is placed if what is recorded of its arrays are the cells that are
    filled. -/
theorem placed_valueWith {rule : Rule} {path : AccessPath}
    (h : ∀ array entries, rule.HasArray path array entries → native.lookup array =
      some (Cells.filled (cellsWith context standing array entries))) :
    Value.Placed native path (rule.valueWith context standing path) := by
  induction rule using Rule.induction generalizing path with
  | step rule groups entries =>
    cases hrule : rule.isReference with
    | true =>
      have harray := placed_cellsWith (h _ _ (.lone hrule)) fun index entry hget hentry => by
        rw [List.mem_singleton.1 (List.mem_of_getElem? hget), hrule] at hentry
        cases hentry
      rw [valueWith_of_isReference hrule]
      refine @Value.Placed.rule native path [] [(.patterns, _)] nofun (fun _ => List.not_mem_nil)
        (List.nodup_singleton _) fun field value hmem => ?_
      obtain ⟨rfl, rfl⟩ := Prod.mk.inj (List.mem_singleton.1 hmem)
      exact harray
    | false =>
      obtain ⟨fields, hfields, hnodup, hmember⟩ := exists_fields context standing rule path
      rw [valueWith_of_not_isReference hrule, hfields]
      refine .rule (fun _ => isFlat_of_mem_ownMembers) (name_not_mem_ownMembers rule path) hnodup
        fun field value hmem => ?_
      have hvalue := hmember field value hmem
      by_cases hfield : field = .patterns
      · subst hfield
        obtain ⟨rules, hrules, rfl⟩ := Option.map_eq_some_iff.1 hvalue
        exact placed_cellsWith (h _ _ (.own hrule hrules)) fun index entry hget hentry =>
          entries rules hrules entry (List.mem_of_getElem? hget) fun array inner harray =>
            h array inner (.entry hrule hrules hget hentry harray)
      · rw [fieldMember_of_ne hfield, Option.map_eq_some_iff] at hvalue
        obtain ⟨members, hmembers, rfl⟩ := hvalue
        refine placed_groups (sortedGroups_nodup members) ?_
        rintro ⟨number, inner⟩ hinner
        obtain ⟨key, hentry, -⟩ := mem_sortedGroups hinner
        exact groups field members hmembers (key, inner) hentry fun array rules harray =>
          h array rules (.group hrule hmembers hinner harray)

/-! ### Arrays -/

/-- The member for a field of a rule is a member of its object. -/
theorem holds_of_fieldMember {rule : Rule} (hrule : rule.isReference = false) {path : AccessPath}
    {field : Field} {value : Value}
    (hvalue : rule.fieldMember context standing path field = some value) {array : AccessPath}
    {elements : List Value} (h : value.Holds array elements) :
    (rule.valueWith context standing path).Holds array elements := by
  have hfield : field ∈ Field.all := by cases field <;> decide
  have hmem : (field.name, value) ∈ rule.fieldMembers context standing path Field.all := by
    refine List.mem_flatMap.2 ⟨field, hfield, ?_⟩
    rw [hvalue]
    exact List.mem_singleton_self _
  rw [valueWith_of_not_isReference hrule]
  exact .member (List.mem_append_right _ hmem) h

/-- The value of a rule has the arrays that are inside the rule. -/
theorem holds_valueWith {rule : Rule} {path array : AccessPath} {entries : List Rule}
    (h : rule.HasArray path array entries) : (rule.valueWith context standing path).Holds array
      (cellsWith context standing array entries).reduceOption := by
  induction h with
  | lone hrule =>
    rw [valueWith_of_isReference hrule]
    exact .member (List.mem_singleton_self _) .here
  | own hrule hrules =>
    exact holds_of_fieldMember hrule (fieldMember_of_patterns hrules _) .here
  | group hrule hgroups hinner h ih =>
    exact holds_of_fieldMember hrule (fieldMember_of_groups hgroups _)
      (.member (List.mem_map_of_mem hinner) ih)
  | entry hrule hrules hget hinner h ih =>
    refine holds_of_fieldMember hrule (fieldMember_of_patterns hrules _) (.element ?_ ih)
    obtain ⟨_, hopens, -⟩ := exists_opens_entry hget hinner
    exact List.mem_of_getElem? hopens.get

end Rule

end PatternTable
