import PatternTable.Proofs.Module.Loaded

/-!
# The expression of an array

The expression of an array leads, in the value of a rule that the array is inside of, to the
elements that stand in the array, if the position in every array that it passes through is the
number of elements before the one that it takes. An assignment there changes nothing else.

Results:
* `Rule.leadsTo_of_hasArray`: what the expression of an array evaluates to, and what assigning to it
  does.
-/

namespace PatternTable

/-- What stands in all arrays but one is the same. -/
def Standing.AgreeOff (array : AccessPath) (standing other : Standing) : Prop :=
  ∀ path, path ≠ array → ∀ index spelling, standing path index spelling = other path index spelling

namespace Rule

variable {context : Context} {standing other : Standing} {array : AccessPath}

/-! ## What an array does not change -/

theorem valueWith_of_not_below {rule : Rule} {path : AccessPath}
    (h : Standing.AgreeOff array standing other) (hbelow : ¬ path.Below array) :
    rule.valueWith context standing path = rule.valueWith context other path := by
  refine valueWith_congr fun path entries harray => h path ?_
  rintro rfl
  exact hbelow (hasArray_below harray)

theorem fieldMember_of_not_below {rule : Rule} {path : AccessPath} {field : Field}
    (h : Standing.AgreeOff array standing other) (hbelow : ¬ (path.field field).Below array) :
    rule.fieldMember context standing path field = rule.fieldMember context other path field := by
  refine fieldMember_congr ?_ ?_
  · exact fun groups _ number inner _ => valueWith_of_not_below h fun hinner =>
      hbelow hinner.of_extend
  · rintro rfl rules -
    refine cellsWith_congr (h _ ?_) fun index entry _ _ => valueWith_of_not_below h fun hentry =>
      hbelow hentry.of_extend
    rintro rfl
    exact hbelow (.refl _)

/-! ## Fields -/

theorem name_not_mem_ownMembers (rule : Rule) (path : AccessPath) (field : Field) :
    field.name ∉ (context.ownMembers rule path).map Prod.fst := by
  rw [Context.ownMembers, List.mem_map]
  rintro ⟨⟨key, value⟩, hmem, rfl⟩
  obtain ⟨item, hitem, hmember⟩ := List.mem_filterMap.1 hmem
  unfold Item.member? at hmember
  split at hmember
  · obtain ⟨rfl, rfl⟩ := by simpa using hmember
    exact Context.ownItems_key hitem field rfl
  · obtain ⟨rfl, rfl⟩ := by simpa using hmember
    exact Context.ownItems_key hitem field rfl
  · simp at hmember

/-- The field of a rule is a member of its value, and no other member depends on it. -/
theorem exists_opens_field {rule : Rule} {path : AccessPath} {field : Field} {value : Value}
    (hrule : rule.isReference = false)
    (hvalue : rule.fieldMember context standing path field = some value) :
    ∃ put, Value.Opens (.member field.name) (rule.valueWith context standing path) value put ∧
      ∀ other value', (∀ sibling ≠ field, rule.fieldMember context standing path sibling =
          rule.fieldMember context other path sibling) →
        rule.fieldMember context other path field = some value' →
          put value' = rule.valueWith context other path := by
  have hmem : field ∈ Field.all := by cases field <;> decide
  obtain ⟨before, after, hall⟩ := List.append_of_mem hmem
  have hnodup : (before ++ field :: after).Nodup := by
    rw [← hall]
    decide
  obtain ⟨-, hafter, hbefore⟩ := List.nodup_append.1 hnodup
  rw [List.nodup_cons] at hafter
  have hsplit (standing : Standing) (value : Value)
      (h : rule.fieldMember context standing path field = some value) :
      rule.valueWith context standing path = .object
        ((context.ownMembers rule path ++ rule.fieldMembers context standing path before) ++
          (field.name, value) :: rule.fieldMembers context standing path after) := by
    rw [valueWith_of_not_isReference hrule, hall, fieldMembers, List.flatMap_append,
      List.flatMap_cons, h, List.append_assoc]
    rfl
  have hname : field.name ∉ (context.ownMembers rule path ++
      rule.fieldMembers context standing path before).map Prod.fst := by
    rw [List.map_append, List.mem_append, not_or]
    refine ⟨name_not_mem_ownMembers rule path field, fun hname => ?_⟩
    obtain ⟨member, hmember, hname⟩ := List.mem_map.1 hname
    obtain ⟨sibling, hsibling, hmember⟩ := List.mem_flatMap.1 hmember
    rw [Option.mem_toList, Option.map_eq_some_iff] at hmember
    obtain ⟨_, -, rfl⟩ := hmember
    exact hbefore sibling hsibling field List.mem_cons_self (Field.name_injective hname)
  refine ⟨_, by rw [hsplit standing value hvalue]; exact Value.opens_member value hname, ?_⟩
  intro other value' hsiblings hvalue'
  have hmembers (siblings : List Field) (h : ∀ sibling ∈ siblings, sibling ≠ field) :
      rule.fieldMembers context standing path siblings =
        rule.fieldMembers context other path siblings :=
    List.flatMap_congr fun sibling hmem => by rw [hsiblings sibling (h sibling hmem)]
  rw [hsplit other value' hvalue',
    hmembers before fun sibling hmem => hbefore sibling hmem field List.mem_cons_self,
    hmembers after fun sibling hmem heq => hafter.1 (heq ▸ hmem)]

/-! ## Groups and entries -/

theorem exists_opens_group {path : AccessPath} {groups : List (Nat × Rule)} {number : Nat}
    {inner : Rule} (hnodup : (groups.map Prod.fst).Nodup) (hinner : (number, inner) ∈ groups) :
    ∃ put, Value.Opens (.number number)
        (.object (groups.map fun (number, inner) =>
          (toString number, inner.valueWith context standing (path.group number))))
        (inner.valueWith context standing (path.group number)) put ∧
      ∀ other, (∀ sibling, ∀ rule : Rule, sibling ≠ number →
          rule.valueWith context standing (path.group sibling) =
            rule.valueWith context other (path.group sibling)) →
        put (inner.valueWith context other (path.group number)) =
          .object (groups.map fun (number, inner) =>
            (toString number, inner.valueWith context other (path.group number))) := by
  have hnames : (groups.map fun group => toString group.1).Nodup := by
    have hmap := hnodup.map toString_injective
    rw [List.map_map] at hmap
    exact hmap
  obtain ⟨put, hopens, hput⟩ := Value.exists_opens_map hnames hinner
    fun (number, inner) => inner.valueWith context standing (path.group number)
  refine ⟨put, Value.opens_group hopens, fun other hsiblings => ?_⟩
  refine hput (fun (number, inner) => inner.valueWith context other (path.group number)) ?_
  rintro ⟨sibling, rule⟩ - hne
  exact hsiblings sibling rule fun heq => hne (congrArg toString heq)

theorem exists_opens_entry {path : AccessPath} {rules : List Rule} {index : Nat} {inner : Rule}
    (hget : rules[index]? = some inner) (hinner : inner.isReference = false) :
    ∃ put, Value.Opens
        (.number (((cellsWith context standing path rules).take index).reduceOption.length))
        (.array path (cellsWith context standing path rules).reduceOption)
        (inner.valueWith context standing (path.index index)) put ∧
      ∀ other, (∀ index spelling, standing path index spelling = other path index spelling) →
        (∀ sibling, ∀ rule : Rule, sibling ≠ index →
          rule.valueWith context standing (path.index sibling) =
            rule.valueWith context other (path.index sibling)) →
        put (inner.valueWith context other (path.index index)) =
          .array path (cellsWith context other path rules).reduceOption := by
  have hreference : inner.reference = none := by simpa [isReference] using hinner
  have hcell (standing : Standing) : (cellsWith context standing path rules)[index]? =
      some (some (inner.valueWith context standing (path.index index))) := by
    rw [getElem?_cellsWith, hget, Option.map_some, Standing.cell]
    simp only [hreference]
  refine ⟨_, Value.opens_element path (Cells.getElem?_reduceOption (hcell standing)), ?_⟩
  intro other hpath hsiblings
  rw [Cells.set_reduceOption (hcell standing)]
  congr 2
  refine List.ext_getElem? fun sibling => ?_
  by_cases hsibling : sibling = index
  · subst hsibling
    rw [hcell other, List.getElem?_set_self]
    exact (List.getElem?_eq_some_iff.1 (hcell standing)).1
  · rw [List.getElem?_set_ne (Ne.symm hsibling), getElem?_cellsWith, getElem?_cellsWith]
    refine Option.map_congr fun rule _ => ?_
    rw [Standing.cell, Standing.cell]
    cases rule.reference with
    | none => simp only [hsiblings sibling rule hsibling]
    | some spelling => simp only [hpath]

/-! ## Arrays -/

/-- In the arrays inside a rule that the path to a target passes through, the position of the entry
    that it takes is the number of the elements before. -/
def Positions (context : Context) (standing : Standing) (position : AccessPath → Nat → Nat)
    (target : AccessPath) (rule : Rule) (path : AccessPath) : Prop :=
  ∀ array index, (array, index) ∈ target.sites → ∀ entries, rule.HasArray path array entries →
    position array index =
      ((cellsWith context standing array entries).take index).reduceOption.length

variable {position : AccessPath → Nat → Nat}

/-- What another standing makes of one array changes no field but the one that the array is in. -/
theorem siblings_of_agreeOff {rule : Rule} {path : AccessPath} {field : Field}
    (hagree : Standing.AgreeOff array standing other) (hbelow : (path.field field).Below array) :
    ∀ sibling ≠ field, rule.fieldMember context standing path sibling =
      rule.fieldMember context other path sibling :=
  fun _ hne => fieldMember_of_not_below hagree fun hsibling =>
    hne (Step.field.inj (AccessPath.step_eq_of_below hsibling hbelow))

/-- The expression of an array leads, from the value of the rule at a path, to the elements that
    stand in the array, and an assignment of what another standing makes of the array makes what it
    makes of the rule. -/
def LeadsTo (context : Context) (standing : Standing) (position : AccessPath → Nat → Nat)
    (rule : Rule) (path array : AccessPath) (entries : List Rule) : Prop :=
  ∃ accesses put, array.accesses position = path.accesses position ++ accesses ∧
    Value.Focus accesses (rule.valueWith context standing path)
      (.array array (cellsWith context standing array entries).reduceOption) put ∧
    ∀ other, Standing.AgreeOff array standing other →
      put (.array array (cellsWith context other array entries).reduceOption) =
        rule.valueWith context other path

theorem leadsTo_lone {rule : Rule} {path : AccessPath} (hrule : rule.isReference = true) :
    rule.LeadsTo context standing position path (path.field .patterns) [rule] := by
  refine ⟨[.member Field.patterns.name], (fun value => .object [("patterns", value)]) ∘ id,
    path.accesses_extend position (.field .patterns), ?_, fun other _ => ?_⟩
  · rw [valueWith_of_isReference hrule]
    exact .cons ⟨rfl, fun _ => rfl⟩ (.nil _)
  · rw [valueWith_of_isReference hrule]
    rfl

theorem leadsTo_own {rule : Rule} {path : AccessPath} {rules : List Rule}
    (hrule : rule.isReference = false) (hrules : rule.patterns = some rules) :
    rule.LeadsTo context standing position path (path.field .patterns) rules := by
  obtain ⟨put, hopens, hput⟩ := exists_opens_field hrule (fieldMember_of_patterns hrules path)
  refine ⟨[.member Field.patterns.name], put ∘ id,
    path.accesses_extend position (.field .patterns), .cons hopens (.nil _),
    fun other hagree => ?_⟩
  exact hput other _ (siblings_of_agreeOff hagree (.refl _)) (fieldMember_of_patterns hrules path)

theorem LeadsTo.of_group {rule inner : Rule} {path : AccessPath} {field : Field}
    {groups : List (String × Rule)} {number : Nat} {entries : List Rule}
    (hrule : rule.isReference = false) (hgroups : rule.groups field = some groups)
    (hinner : (number, inner) ∈ sortedGroups groups)
    (hbelow : ((path.field field).group number).Below array)
    (h : inner.LeadsTo context standing position ((path.field field).group number) array entries) :
    rule.LeadsTo context standing position path array entries := by
  obtain ⟨accesses, put, haccesses, hfocus, hput⟩ := h
  obtain ⟨putField, hfield, hputField⟩ :=
    exists_opens_field hrule (fieldMember_of_groups hgroups path)
  obtain ⟨putGroup, hgroup, hputGroup⟩ :=
    exists_opens_group (sortedGroups_nodup groups) hinner
  refine ⟨.member field.name :: .number number :: accesses, putField ∘ putGroup ∘ put, ?_,
    .cons hfield (.cons hgroup hfocus), fun other hagree => ?_⟩
  · rw [haccesses, AccessPath.group, AccessPath.field, AccessPath.accesses_extend,
      AccessPath.accesses_extend, List.append_assoc, List.append_assoc]
    rfl
  · have hgroups' : ∀ sibling, ∀ rule : Rule, sibling ≠ number →
        rule.valueWith context standing ((path.field field).group sibling) =
          rule.valueWith context other ((path.field field).group sibling) :=
      fun sibling rule hne => valueWith_of_not_below hagree fun hsibling =>
        hne (Step.group.inj (AccessPath.step_eq_of_below hsibling hbelow))
    simp only [Function.comp_apply]
    rw [hput other hagree, hputGroup other hgroups']
    exact hputField other _ (siblings_of_agreeOff hagree hbelow.of_extend)
      (fieldMember_of_groups hgroups path)

theorem LeadsTo.of_entry {rule inner : Rule} {path : AccessPath} {rules : List Rule} {index : Nat}
    {entries : List Rule} (hrule : rule.isReference = false)
    (hrules : rule.patterns = some rules) (hget : rules[index]? = some inner)
    (hinner : inner.isReference = false) (hposition : position (path.field .patterns) index =
      ((cellsWith context standing (path.field .patterns) rules).take index).reduceOption.length)
    (hbelow : ((path.field .patterns).index index).Below array)
    (h : inner.LeadsTo context standing position ((path.field .patterns).index index) array
      entries) :
    rule.LeadsTo context standing position path array entries := by
  obtain ⟨accesses, put, haccesses, hfocus, hput⟩ := h
  obtain ⟨putField, hfield, hputField⟩ :=
    exists_opens_field hrule (fieldMember_of_patterns hrules path)
  obtain ⟨putEntry, hentry, hputEntry⟩ := exists_opens_entry hget hinner
  rw [← hposition] at hentry
  refine ⟨.member Field.patterns.name ::
      .number (position (path.field .patterns) index) :: accesses,
    putField ∘ putEntry ∘ put, ?_, .cons hfield (.cons hentry hfocus), fun other hagree => ?_⟩
  · rw [haccesses, AccessPath.index, AccessPath.field, AccessPath.accesses_extend,
      AccessPath.accesses_extend, List.append_assoc, List.append_assoc]
    rfl
  · have hpath : ∀ index spelling, standing (path.field .patterns) index spelling =
        other (path.field .patterns) index spelling := by
      refine hagree _ ?_
      rintro rfl
      exact AccessPath.not_extend_below _ _ hbelow
    have hentries : ∀ sibling, ∀ rule : Rule, sibling ≠ index →
        rule.valueWith context standing ((path.field .patterns).index sibling) =
          rule.valueWith context other ((path.field .patterns).index sibling) :=
      fun sibling rule hne => valueWith_of_not_below hagree fun hsibling =>
        hne (Step.index.inj (AccessPath.step_eq_of_below hsibling hbelow))
    simp only [Function.comp_apply]
    rw [hput other hagree, hputEntry other hpath hentries]
    exact hputField other _ (siblings_of_agreeOff hagree hbelow.of_extend)
      (fieldMember_of_patterns hrules path)

theorem leadsTo_of_hasArray {rule : Rule} {path : AccessPath} {entries : List Rule}
    (h : rule.HasArray path array entries)
    (hposition : rule.Positions context standing position array path) :
    rule.LeadsTo context standing position path array entries := by
  induction h with
  | lone hrule => exact leadsTo_lone hrule
  | own hrule hrules => exact leadsTo_own hrule hrules
  | group hrule hgroups hinner h ih =>
    refine .of_group hrule hgroups hinner (hasArray_below h) (ih ?_)
    exact fun passed index hsite entries hpassed =>
      hposition passed index hsite entries (.group hrule hgroups hinner hpassed)
  | entry hrule hrules hget hinner h ih =>
    have hbelow := hasArray_below h
    refine .of_entry hrule hrules hget hinner ?_ hbelow (ih ?_)
    · exact hposition _ _ (AccessPath.mem_sites_iff.2 hbelow) _ (.own hrule hrules)
    · exact fun passed index hsite entries hpassed =>
        hposition passed index hsite entries (.entry hrule hrules hget hinner hpassed)

end Rule

end PatternTable
