import PatternTable.Proofs.Identifier
import PatternTable.Proofs.Module.Focus
import PatternTable.Proofs.Module.Statements
import PatternTable.Proofs.Table.Patches

/-!
# Patches at run time

While the statements of a table run, its module is that of the grammar without the includes that are
still missing, and the arrays that the statements were planned with hold the source indices of what
stands in the arrays of the module. One statement brings one include back.

Results:
* `Grammar.execute_statement`: what one statement does.
* `Grammar.run_statements`, `Grammar.run_externalGroups`: what the statements for some patches do.
-/

namespace PatternTable

/-! ## Arrays -/

namespace Arrays

theorem lookup_insert_self (arrays : Arrays) (array : AccessPath) (index : Nat) :
    (arrays.insert array index).lookup array =
      some (insertIndex index ((arrays.lookup array).getD [])) := by
  induction arrays with
  | nil => rw [insert, List.lookup_cons_self, List.lookup_nil, Option.getD_none, insertIndex]
  | cons entry arrays ih =>
    rcases entry with ⟨other, indices⟩
    rw [insert]
    by_cases heq : other = array
    · subst heq
      rw [if_pos rfl, List.lookup_cons_self, List.lookup_cons_self, Option.getD_some]
    · have hbeq : (array == other) = false := beq_eq_false_iff_ne.2 (Ne.symm heq)
      simp only [if_neg heq, List.lookup_cons, hbeq]
      exact ih

theorem lookup_insert_of_ne {arrays : Arrays} {array other : AccessPath} (h : other ≠ array)
    (index : Nat) : (arrays.insert array index).lookup other = arrays.lookup other := by
  have hbeq : (other == array) = false := beq_eq_false_iff_ne.2 h
  induction arrays with
  | nil => simp only [insert, List.lookup_cons, hbeq]
  | cons entry arrays ih =>
    rcases entry with ⟨first, indices⟩
    rw [insert]
    by_cases heq : first = array
    · subst heq
      rw [if_pos rfl]
      simp only [List.lookup_cons, hbeq]
    · simp only [if_neg heq, List.lookup_cons, ih]

theorem lookup_ofTable (table : Table) (array : AccessPath) : (ofTable table).lookup array =
    (table.trail.arrays.lookup array).map fun indices => indices.foldr insertIndex [] := by
  rw [ofTable]
  induction table.trail.arrays with
  | nil => rfl
  | cons entry arrays ih =>
    rcases entry with ⟨other, indices⟩
    simp only [List.map_cons, List.lookup_cons, ih]
    cases array == other <;> rfl

end Arrays

/-- The way that a statement adds an element brings it to its cell. -/
theorem PatchKind.apply_planned {cells : List (Option Value)} {index : Nat}
    (h : cells[index]? = some none) (added : Value) :
    PatchKind.apply
      (if Arrays.rank index (Cells.filled cells) = (Cells.filled cells).length then .push
        else .splice (Arrays.rank index (Cells.filled cells))) [added] cells.reduceOption =
      some (cells.set index (some added)).reduceOption := by
  rw [Cells.rank_filled, Cells.filled, Cells.length_filledFrom, Cells.reduceOption_set h,
    Cells.reduceOption_of_none h]
  exact apply_append _ _ added

/-! ## Missing includes -/

namespace Standing

variable {document : Document} {missing : List (AccessPath × Nat)} {array : AccessPath}
  {index : Nat}

theorem without_of_mem (h : (array, index) ∈ missing) (spelling : String) :
    without document missing array index spelling = none := by
  rw [without, if_pos (List.contains_iff_mem.2 h)]

theorem without_of_not_mem (h : (array, index) ∉ missing) (spelling : String) :
    without document missing array index spelling = some (includeExpression document spelling) := by
  rw [without, if_neg (mt List.contains_iff_mem.1 h)]

theorem without_cons_of_ne {site : AccessPath × Nat} (h : (array, index) ≠ site)
    (spelling : String) : without document (site :: missing) array index spelling =
      without document missing array index spelling := by
  have hbeq : ((array, index) == site) = false := beq_eq_false_iff_ne.2 h
  rw [without, without, List.contains_cons, hbeq, Bool.false_or]

/-- What stands when an include is back is what stood before, in all other arrays. -/
theorem agreeOff_without (document : Document) (missing : List (AccessPath × Nat))
    (array : AccessPath) (index : Nat) :
    AgreeOff array (without document ((array, index) :: missing)) (without document missing) :=
  fun _ hpath _ spelling =>
    without_cons_of_ne (fun heq => hpath (congrArg Prod.fst heq)) spelling

end Standing

namespace Rule

variable {context : Context} {missing : List (AccessPath × Nat)} {array : AccessPath}
  {index : Nat} {entries : List Rule} {entry : Rule} {spelling : String}

/-- The cells that are filled are those of rules and of the includes that stand. -/
theorem map_isSome_cellsWith (context : Context) (standing : Standing) (array : AccessPath)
    (entries : List Rule) : (cellsWith context standing array entries).map Option.isSome =
      entries.zipIdx.map fun (entry, index) =>
        entry.reference.all fun spelling => (standing array index spelling).isSome := by
  refine List.ext_getElem? fun index => ?_
  rw [List.getElem?_map, getElem?_cellsWith, List.getElem?_map, List.getElem?_zipIdx]
  cases entries[index]? with
  | none => rfl
  | some entry =>
    simp only [Option.map_some, Standing.cell, Nat.zero_add]
    cases entry.reference <;> simp

theorem filled_cellsWith_congr {standing other : Standing}
    (h : ∀ index spelling, standing array index spelling = other array index spelling) :
    Cells.filled (cellsWith context standing array entries) =
      Cells.filled (cellsWith context other array entries) := by
  refine Cells.filledFrom_congr ?_ 0
  rw [map_isSome_cellsWith, map_isSome_cellsWith]
  simp only [h]

theorem cellsWith_of_missing {standing : Standing} (hget : entries[index]? = some entry)
    (hreference : entry.reference = some spelling) (h : standing array index spelling = none) :
    (cellsWith context standing array entries)[index]? = some none := by
  rw [getElem?_cellsWith, hget, Option.map_some, Standing.cell]
  simp only [hreference, h, Option.map_none]

/-- Of the cells of an array, only that of the include that is back changes. -/
theorem cellsWith_without (hget : entries[index]? = some entry)
    (hreference : entry.reference = some spelling) (h : (array, index) ∉ missing) :
    cellsWith context (Standing.without context.document missing) array entries =
      (cellsWith context (Standing.without context.document ((array, index) :: missing)) array
        entries).set index (some (.expression (includeExpression context.document spelling))) := by
  have hlt : index < entries.length := (List.getElem?_eq_some_iff.1 hget).1
  have hbelow (other : Nat) : ¬ (array.index other).Below array :=
    AccessPath.not_extend_below array (.index other)
  refine List.ext_getElem? fun other => ?_
  by_cases heq : other = index
  · subst heq
    rw [List.getElem?_set_self (by rw [length_cellsWith]; exact hlt), getElem?_cellsWith, hget,
      Option.map_some, Standing.cell]
    simp only [hreference, Standing.without_of_not_mem h, Option.map_some]
  · rw [List.getElem?_set_ne (Ne.symm heq), getElem?_cellsWith, getElem?_cellsWith]
    refine Option.map_congr fun rule _ => ?_
    rw [Standing.cell, Standing.cell]
    cases rule.reference with
    | none =>
      simp only
      rw [valueWith_of_not_below (Standing.agreeOff_without context.document missing array index)
        (hbelow other)]
    | some spelling =>
      have hne : (array, other) ≠ (array, index) := fun h => heq (congrArg Prod.snd h)
      simp only [Standing.without_cons_of_ne hne]

end Rule

/-! ## Modules -/

namespace Grammar

/-- The module of a grammar, when it is known what stands in its arrays. -/
def moduleWith (config : Config) (document : Document) (grammar : Grammar) (standing : Standing) :
    Value :=
  .object ((grammar.origins document).map fun origin =>
    (origin.identifier,
      origin.rule.valueWith (origin.context config document) standing origin.path))

/-- The arrays that statements are planned with hold the source indices of what stands. -/
def Follows (config : Config) (document : Document) (grammar : Grammar) (standing : Standing)
    (arrays : Arrays) : Prop :=
  ∀ origin ∈ grammar.origins document, ∀ array entries,
    origin.rule.HasArray origin.path array entries → arrays.lookup array =
      some (Cells.filled
        (Rule.cellsWith (origin.context config document) standing array entries))

/-- At a site, an array of the grammar has an include that is made with a reference. -/
def Includes (document : Document) (grammar : Grammar) (site : AccessPath × Nat)
    (reference : String) : Prop :=
  ∃ origin ∈ grammar.origins document, ∃ entries entry spelling,
    origin.rule.HasArray origin.path site.1 entries ∧ entries[site.2]? = some entry ∧
      entry.reference = some spelling ∧ reference = includeExpression document spelling

variable {config : Config} {document : Document} {grammar : Grammar} {standing : Standing}
  {arrays : Arrays}

/-! ## The definition that an array is in -/

theorem eq_of_hasArray (h : grammar.keyCause? document = none) {origin other : Origin}
    (horigin : origin ∈ grammar.origins document) (hother : other ∈ grammar.origins document)
    {array : AccessPath} {entries entries' : List Rule}
    (harray : origin.rule.HasArray origin.path array entries)
    (harray' : other.rule.HasArray other.path array entries') :
    origin = other ∧ entries = entries' := by
  have hstop : (origin, .filled array entries) = (other, Visit.filled array entries') :=
    stop_eq_of_site_eq h (mem_stops_iff.2 ⟨horigin, Rule.filled_mem_visits_iff.2 harray⟩)
      (mem_stops_iff.2 ⟨hother, Rule.filled_mem_visits_iff.2 harray'⟩) rfl rfl
  simpa using hstop

/-- The definition of an origin is a member of the module, and no other member depends on an array
    inside it. -/
theorem exists_opens_origin (h : grammar.keyCause? document = none) {origin : Origin}
    (horigin : origin ∈ grammar.origins document) :
    ∃ put, Value.Opens (.member origin.identifier) (grammar.moduleWith config document standing)
        (origin.rule.valueWith (origin.context config document) standing origin.path) put ∧
      ∀ array other, origin.path.Below array → Standing.AgreeOff array standing other →
        put (origin.rule.valueWith (origin.context config document) other origin.path) =
          grammar.moduleWith config document other := by
  obtain ⟨put, hopens, hput⟩ := Value.exists_opens_map (origins_identifiers_nodup h) horigin
    fun origin => origin.rule.valueWith (origin.context config document) standing origin.path
  refine ⟨put, hopens, fun array other hbelow hagree => ?_⟩
  refine hput (fun origin => origin.rule.valueWith (origin.context config document) other
    origin.path) fun sibling _ hne => ?_
  refine Rule.valueWith_of_not_below hagree fun hsibling => hne ?_
  exact hsibling.root.symm.trans hbelow.root

theorem Follows.positions (h : grammar.Follows config document standing arrays) {origin : Origin}
    (horigin : origin ∈ grammar.origins document) (target : AccessPath) :
    origin.rule.Positions (origin.context config document) standing arrays.position target
      origin.path := by
  intro array index _ entries harray
  rw [Arrays.position, h origin horigin array entries harray]
  exact Cells.rank_filled index _

/-- From the module, the accesses of an array lead to what stands in the array. -/
theorem focus_of_hasArray (h : grammar.keyCause? document = none)
    (hfollows : grammar.Follows config document standing arrays) {origin : Origin}
    (horigin : origin ∈ grammar.origins document) {array : AccessPath} {entries : List Rule}
    (harray : origin.rule.HasArray origin.path array entries) :
    ∃ put, Value.Focus (.member array.root :: array.accesses arrays.position)
        (grammar.moduleWith config document standing)
        (.array array (Rule.cellsWith (origin.context config document) standing array
          entries).reduceOption) put ∧
      ∀ other, Standing.AgreeOff array standing other →
        put (.array array (Rule.cellsWith (origin.context config document) other array
          entries).reduceOption) = grammar.moduleWith config document other := by
  obtain ⟨putMember, hmember, hputMember⟩ := exists_opens_origin h horigin
  obtain ⟨accesses, put, haccesses, hfocus, hput⟩ :=
    Rule.leadsTo_of_hasArray harray (hfollows.positions horigin array)
  have hbelow := Rule.hasArray_below harray
  have hroot : array.root = origin.identifier := hbelow.root
  refine ⟨putMember ∘ put, ?_, fun other hagree => ?_⟩
  · rw [hroot, haccesses]
    exact .cons hmember hfocus
  · rw [Function.comp_apply, hput other hagree]
    exact hputMember array other hbelow hagree

/-- The expression of an array leads to what stands in the array. -/
theorem exists_focus (h : grammar.keyCause? document = none)
    (hfollows : grammar.Follows config document standing arrays) {origin : Origin}
    (horigin : origin ∈ grammar.origins document) {array : AccessPath} {entries : List Rule}
    (harray : origin.rule.HasArray origin.path array entries) {statement : PatchStatement}
    (htarget : statement.target = array.renderWith arrays.position) :
    ∃ accesses put, statement.accesses? = some accesses ∧
      Value.Focus accesses (grammar.moduleWith config document standing)
        (.array array (Rule.cellsWith (origin.context config document) standing array
          entries).reduceOption) put ∧
      ∀ other, Standing.AgreeOff array standing other →
        put (.array array (Rule.cellsWith (origin.context config document) other array
          entries).reduceOption) = grammar.moduleWith config document other := by
  obtain ⟨put, hfocus, hput⟩ := focus_of_hasArray h hfollows horigin harray
  have hroot : array.root = origin.identifier := (Rule.hasArray_below harray).root
  have hisRoot : Access.IsRoot array.root := by
    rw [hroot]
    exact isRoot_of_origin horigin
  refine ⟨_, put, ?_, hfocus, hput⟩
  rw [PatchStatement.accesses?, htarget, Access.read_renderWith hisRoot, Option.map_some,
    Access.root_renderWith hisRoot]

/-! ## Statements -/

variable {α : Type} {missing : List (AccessPath × Nat)}

/-- A statement for an include that is missing evaluates to the array of the include, and brings the
    include back. -/
theorem execute_statement (h : grammar.keyCause? document = none) {patch : Patch α}
    {reference : String} (hincludes : grammar.Includes document patch.site reference)
    (hfresh : patch.site ∉ missing)
    (hfollows : grammar.Follows config document
      (Standing.without document (patch.site :: missing)) arrays) :
    (arrays.statement patch reference).execute
        (grammar.moduleWith config document (Standing.without document (patch.site :: missing))) =
      some (patch.array,
        grammar.moduleWith config document (Standing.without document missing)) := by
  obtain ⟨origin, horigin, entries, entry, spelling, harray, hget, hreference, rfl⟩ := hincludes
  change origin.rule.HasArray origin.path patch.array entries at harray
  have hcell : (Rule.cellsWith (origin.context config document)
      (Standing.without document (patch.site :: missing)) patch.array entries)[patch.index]? =
        some none :=
    Rule.cellsWith_of_missing hget hreference
      (Standing.without_of_mem List.mem_cons_self spelling)
  have htarget : (arrays.statement patch (includeExpression document spelling)).target =
      patch.array.renderWith arrays.position := rfl
  obtain ⟨accesses, put, haccesses, hfocus, hput⟩ :=
    exists_focus h hfollows horigin harray htarget
  rw [PatchStatement.execute_of_focus haccesses hfocus, Arrays.statement,
    hfollows origin horigin patch.array entries harray, Option.getD_some, List.map_singleton]
  simp only
  rw [PatchKind.apply_planned hcell, Option.map_some,
    ← hput _ (Standing.agreeOff_without document missing patch.array patch.index)]
  exact congrArg (fun cells => some (patch.array, put (.array patch.array cells.reduceOption)))
    (Rule.cellsWith_without hget hreference hfresh).symm

/-- The arrays follow the module when a statement brings an include back. -/
theorem Follows.insert (h : grammar.keyCause? document = none) {patch : Patch α}
    {reference : String} (hincludes : grammar.Includes document patch.site reference)
    (hfresh : patch.site ∉ missing)
    (hfollows : grammar.Follows config document (Standing.without document (patch.site :: missing))
      arrays) :
    grammar.Follows config document (Standing.without document missing)
      (arrays.insert patch.array patch.index) := by
  intro other hother array rules hrules
  by_cases heq : array = patch.array
  · subst heq
    obtain ⟨origin, horigin, entries, entry, spelling, harray, hget, hreference, -⟩ := hincludes
    change origin.rule.HasArray origin.path patch.array entries at harray
    obtain ⟨rfl, rfl⟩ := eq_of_hasArray h horigin hother harray hrules
    have hlt : patch.index < (Rule.cellsWith (origin.context config document)
        (Standing.without document (patch.site :: missing)) patch.array entries).length := by
      rw [Rule.length_cellsWith]
      exact (List.getElem?_eq_some_iff.1 hget).1
    rw [Arrays.lookup_insert_self, hfollows origin horigin patch.array entries harray,
      Option.getD_some, Cells.insertIndex_filled hlt]
    exact congrArg (fun cells => some (Cells.filled cells))
      (Rule.cellsWith_without hget hreference hfresh).symm
  · rw [Arrays.lookup_insert_of_ne heq, hfollows other hother array rules hrules]
    exact congrArg some (Rule.filled_cellsWith_congr
      (Standing.agreeOff_without document missing patch.array patch.index array heq))

/-- The statements for some patches bring their includes back, and nothing else. -/
theorem run_statements (h : grammar.keyCause? document = none) {patches : List (Patch α × String)}
    (hincludes : ∀ patch ∈ patches, grammar.Includes document patch.1.site patch.2)
    (hnodup : (patches.map (fun patch => patch.1.site) ++ missing).Nodup)
    (hfollows : grammar.Follows config document
      (Standing.without document (patches.map (fun patch => patch.1.site) ++ missing)) arrays) :
    PatchStatement.run (arrays.run patches).1 (grammar.moduleWith config document
        (Standing.without document (patches.map (fun patch => patch.1.site) ++ missing))) =
      some (patches.map (fun patch => (patch.1.array, patch.2)),
        grammar.moduleWith config document (Standing.without document missing)) ∧
    grammar.Follows config document (Standing.without document missing)
      (arrays.run patches).2 := by
  induction patches generalizing arrays with
  | nil => exact ⟨rfl, hfollows⟩
  | cons patch patches ih =>
    rcases patch with ⟨patch, reference⟩
    simp only [List.forall_mem_cons, List.map_cons, List.cons_append, List.nodup_cons]
      at hincludes hnodup hfollows ⊢
    obtain ⟨hrun, hafter⟩ := ih hincludes.2 hnodup.2 (hfollows.insert h hincludes.1 hnodup.1)
    refine ⟨?_, hafter⟩
    rw [Arrays.run, PatchStatement.run_cons,
      execute_statement h hincludes.1 hnodup.1 hfollows, Option.bind_some]
    simp only
    rw [hrun]
    rfl

/-- The groups of statements for some documents bring the includes from them back. -/
theorem run_externalGroups (h : grammar.keyCause? document = none) {table : Table}
    {documents : List Document}
    (hincludes : ∀ patch ∈ documents.flatMap table.patchesInto,
      grammar.Includes document patch.site (table.externalReference patch))
    (hnodup : ((documents.flatMap table.patchesInto).map Patch.site).Nodup)
    (hfollows : grammar.Follows config document
      (Standing.without document ((documents.flatMap table.patchesInto).map Patch.site)) arrays) :
    PatchStatement.run ((table.externalGroups arrays documents).flatMap PatchGroup.statements)
        (grammar.moduleWith config document
          (Standing.without document ((documents.flatMap table.patchesInto).map Patch.site))) =
      some ((documents.flatMap table.patchesInto).map
          (fun patch => (patch.array, table.externalReference patch)),
        grammar.moduleWith config document (Standing.without document [])) := by
  induction documents generalizing arrays with
  | nil => rfl
  | cons other documents ih =>
    have hsites : ((table.patchesInto other).map fun patch =>
        (patch, table.externalReference patch)).map (fun patch => patch.1.site) =
          (table.patchesInto other).map Patch.site := by
      rw [List.map_map]
      rfl
    rw [List.flatMap_cons, List.forall_mem_append] at hincludes
    rw [List.flatMap_cons, List.map_append] at hnodup hfollows
    rw [← hsites] at hnodup hfollows
    obtain ⟨hrun, hafter⟩ := run_statements h (by simpa using hincludes.1) hnodup hfollows
    have hrest := ih hincludes.2 (List.nodup_append.1 hnodup).2.1 hafter
    rw [Table.externalGroups, List.flatMap_cons, List.flatMap_cons, PatchStatement.run_append]
    simp only
    rw [PatchStatement.run_merge, List.map_append, ← hsites, hrun, Option.bind_some]
    simp only
    rw [hrest, List.map_append, List.map_map]
    rfl

end Grammar

end PatternTable
