import PatternTable.Proofs.Module.Arranged

/-!
# Patches in any order

The statements for patches are planned one after the other, each from the indices that the arrays
hold by then. The order of the patches decides the positions in the statements and nothing else:
after every statement, each array is in the order of the source, and in the end it holds the same
elements whatever the order was.

A patch of an array that a table does not have is planned for an array of its own, which is empty at
first. In a module, no expression leads to such an array, so what becomes of the module is told for
patches of the arrays that the table has.

* `Arrays.patched`: the elements of an array with the references of its patches.
* `PatchStatement.runOn`: statements executed on arrays that are given by their paths.
* `Table.PlansAs`: what is planned for some patches that come in an order.

Results:
* `Arrays.After.insert`, `Arrays.After.run`: the arrays that statements are planned with, after one
  patch and after some.
* `Arrays.After.apply_statement`, `Arrays.After.runOn_run`: what one statement and what some do to
  arrays.
* `Grammar.execute_rearranged`, `Grammar.run_rearranged`: what they do to a module.
* `Table.plansAs_of_ofGrammar`: whatever the grammar, patches at different indices that their arrays
  do not have are planned alike in every order.
-/

namespace PatternTable

/-! ## Specification -/

/-- The source indices that an array holds. An array that is not known holds none. -/
def Arrays.held (arrays : Arrays) (array : AccessPath) : List Nat :=
  (arrays.lookup array).getD []

/-- The references that some patches add to an array, each with its source index. -/
def addedTo {α : Type} (patches : List (Patch α × String)) (array : AccessPath) :
    List (Nat × Value) :=
  patches.filterMap fun (patch, reference) =>
    if patch.array = array then some (patch.index, .expression reference) else none

namespace Arrays

/-- The elements of an array and the references that some patches add to it, each with its source
    index. -/
def marked {α : Type} (native : Arrays) (patches : List (Patch α × String)) (array : AccessPath)
    (elements : List Value) : List (Nat × Value) :=
  (native.held array).zip elements ++ addedTo patches array

/-- The elements of an array and the references that some patches add to it, in source order. -/
def patched {α : Type} (native : Arrays) (patches : List (Patch α × String)) (array : AccessPath)
    (elements : List Value) : List Value :=
  (ordered (native.marked patches array elements)).map Prod.snd

end Arrays

/-- The contents of arrays after some statements, each executed on the array with a path. -/
def PatchStatement.runOn : List (AccessPath × PatchStatement) → (AccessPath → List Value) →
    Option (AccessPath → List Value)
  | [], contents => some contents
  | (array, statement) :: statements, contents =>
    (statement.kind.apply (statement.references.map .expression) (contents array)).bind
      fun elements => runOn statements (Function.update contents array elements)

/-- What is planned for some patches when they come in an order. -/
structure Table.PlansAs {α : Type} (table : Table) (patches order : List (Patch α × String)) :
    Prop where
  /-- After any number of the patches, every array is followed by the ascending list of its native
      indices and of those that are patched. -/
  held : ∀ done left, order = done ++ left → ∀ array,
    let present := ((Arrays.ofTable table).run done).2.held array
    present.Pairwise (· < ·) ∧ ∀ index, index ∈ present ↔
      index ∈ table.nativeIndices array ∨ ∃ patch ∈ done, patch.1.site = (array, index)
  /-- The statement for a patch adds its reference to its array, where the index of the patch has to
      be among those that are held by then. -/
  statements : ∀ done patch reference left, order = done ++ (patch, reference) :: left →
    let arrays := ((Arrays.ofTable table).run done).2
    ∃ statement, ((Arrays.ofTable table).run order).1[done.length]? = some statement ∧
      statement.target = patch.array.renderWith arrays.position ∧
      statement.references = [reference] ∧
      statement.kind.IsFor patch.index (arrays.held patch.array)
  /-- There are no other statements. -/
  length : ((Arrays.ofTable table).run order).1.length = order.length
  /-- Executed on arrays with their native elements, each on the array of its patch, the statements
      make arrays that do not depend on the order. -/
  arrays : ∀ contents : AccessPath → List Value,
    (∀ array, (contents array).length = (table.nativeIndices array).length) →
      PatchStatement.runOn ((order.map fun patch => patch.1.array).zip
          ((Arrays.ofTable table).run order).1) contents =
        some fun array => Arrays.patched table.trail.arrays patches array (contents array)
  /-- Executed in the module of the table, the statements evaluate their targets to the arrays of
      their patches, and make a module that does not depend on the order. -/
  module : (∀ patch ∈ patches, patch.1.array ∈ table.trail.arrays.map Prod.fst) →
    PatchStatement.run ((Arrays.ofTable table).run order).1 table.loaded =
      some (order.map fun (patch, reference) => (patch.array, reference),
        table.loaded.rearrange (Arrays.patched table.trail.arrays patches))

/-! ## Additions -/

section

variable {α : Type} {patches others : List (Patch α × String)} {array : AccessPath}

theorem mem_addedTo_iff {index : Nat} {value : Value} :
    (index, value) ∈ addedTo patches array ↔ ∃ patch ∈ patches,
      patch.1.site = (array, index) ∧ value = .expression patch.2 := by
  rw [addedTo, List.mem_filterMap]
  refine exists_congr fun patch => and_congr_right fun _ => ?_
  simp only [Patch.site, Prod.mk.injEq]
  split
  · next h => simp [h, eq_comm]
  · next h => simp [h]

theorem addedTo_nodup (h : (patches.map fun patch => patch.1.site).Nodup) :
    ((addedTo patches array).map Prod.fst).Nodup := by
  rw [List.Nodup, List.pairwise_map] at h
  rw [addedTo, List.Nodup, List.pairwise_map, List.pairwise_filterMap]
  refine h.imp fun {patch other} hne added hadded added' hadded' heq => hne ?_
  obtain ⟨harray, hadded⟩ := Option.ite_none_right_eq_some.1 hadded
  obtain ⟨harray', hadded'⟩ := Option.ite_none_right_eq_some.1 hadded'
  rw [← Option.some.inj hadded, ← Option.some.inj hadded'] at heq
  exact Prod.ext (harray.trans harray'.symm) heq

theorem addedTo_append (patches others : List (Patch α × String)) (array : AccessPath) :
    addedTo (patches ++ others) array = addedTo patches array ++ addedTo others array :=
  List.filterMap_append

end

namespace Arrays

variable {α : Type} {native arrays : Arrays} {patches done : List (Patch α × String)}
  {patch : Patch α} {reference : String} {array : AccessPath} {elements : List Value}

/-- Some patches can be made on arrays: they are at different indices that the arrays do not
    hold. -/
structure Admits (native : Arrays) (patches : List (Patch α × String)) : Prop where
  ascending : ∀ array, (native.held array).Pairwise (· < ·)
  nodup : (patches.map fun patch => patch.1.site).Nodup
  fresh : ∀ patch ∈ patches, patch.1.index ∉ native.held patch.1.array

theorem Admits.of_append (h : native.Admits (patches ++ done)) : native.Admits patches :=
  ⟨h.ascending, (List.nodup_append.1 (List.map_append ▸ h.nodup)).1,
    fun patch hpatch => h.fresh patch (List.mem_append_left _ hpatch)⟩

theorem Admits.perm {order : List (Patch α × String)} (h : native.Admits patches)
    (hperm : order.Perm patches) : native.Admits order :=
  ⟨h.ascending, (hperm.map _).nodup_iff.2 h.nodup,
    fun patch hpatch => h.fresh patch (hperm.mem_iff.1 hpatch)⟩

theorem mem_map_fst_marked_iff (hlength : (native.held array).length = elements.length)
    {index : Nat} : index ∈ (native.marked patches array elements).map Prod.fst ↔
      index ∈ native.held array ∨ ∃ patch ∈ patches, patch.1.site = (array, index) := by
  rw [marked, List.map_append, List.mem_append, List.map_fst_zip hlength.le]
  refine or_congr_right ?_
  simp only [List.mem_map, Prod.exists, mem_addedTo_iff]
  constructor
  · rintro ⟨index, _, ⟨patch, reference, hmem, hsite, -⟩, rfl⟩
    exact ⟨patch, reference, hmem, hsite⟩
  · rintro ⟨patch, reference, hmem, hsite⟩
    exact ⟨index, _, ⟨patch, reference, hmem, hsite, rfl⟩, rfl⟩

theorem Admits.marked_nodup (h : native.Admits patches)
    (hlength : (native.held array).length = elements.length) :
    ((native.marked patches array elements).map Prod.fst).Nodup := by
  rw [marked, List.map_append, List.map_fst_zip hlength.le]
  refine List.nodup_append.2
    ⟨(h.ascending array).imp Nat.ne_of_lt, addedTo_nodup h.nodup, ?_⟩
  rintro index hnative _ hadded rfl
  obtain ⟨⟨_, value⟩, hmem, rfl⟩ := List.mem_map.1 hadded
  obtain ⟨patch, hpatch, hsite, -⟩ := mem_addedTo_iff.1 hmem
  obtain ⟨rfl, rfl⟩ := Prod.mk.inj hsite
  exact h.fresh patch hpatch hnative

theorem Admits.patched_eq_of_perm {order : List (Patch α × String)} (h : native.Admits patches)
    (hperm : order.Perm patches) (hlength : (native.held array).length = elements.length) :
    native.patched order array elements = native.patched patches array elements := by
  rw [patched, patched]
  refine congrArg (List.map Prod.snd) (ordered_eq_of_perm ((h.perm hperm).marked_nodup hlength) ?_)
  exact (hperm.filterMap _).append_left _

/-! ## The arrays that statements are planned with -/

theorem held_of_lookup {indices : List Nat} (h : arrays.lookup array = some indices) :
    arrays.held array = indices := by
  rw [held, h, Option.getD_some]

/-- Arrays hold their native indices and those of some patches. -/
structure After (native : Arrays) (done : List (Patch α × String)) (arrays : Arrays) : Prop where
  ascending : ∀ array, (arrays.held array).Pairwise (· < ·)
  mem_iff : ∀ array index, index ∈ arrays.held array ↔
    index ∈ native.held array ∨ ∃ patch ∈ done, patch.1.site = (array, index)
  known : ∀ array, (native.lookup array).isSome → (arrays.lookup array).isSome

theorem after_nil (h : ∀ array, (native.held array).Pairwise (· < ·)) :
    After native ([] : List (Patch α × String)) native :=
  ⟨h, by simp, fun _ => id⟩

theorem held_insert_self (arrays : Arrays) (array : AccessPath) (index : Nat) :
    (arrays.insert array index).held array = insertIndex index (arrays.held array) := by
  rw [held, lookup_insert_self, Option.getD_some, held]

theorem held_insert_of_ne {other : AccessPath} (h : other ≠ array) (index : Nat) :
    (arrays.insert array index).held other = arrays.held other := by
  rw [held, lookup_insert_of_ne h, held]

/-- What one patch preserves. -/
theorem After.insert (h : After native done arrays) (patch : Patch α) (reference : String) :
    After native (done ++ [(patch, reference)]) (arrays.insert patch.array patch.index) := by
  have hpatched (array : AccessPath) (index : Nat) :
      (∃ other ∈ done ++ [(patch, reference)], other.1.site = (array, index)) ↔
        (∃ other ∈ done, other.1.site = (array, index)) ∨ patch.site = (array, index) := by
    simp [or_and_right, exists_or]
  refine ⟨fun array => ?_, fun array index => ?_, fun array hknown => ?_⟩
  · obtain rfl | hne := eq_or_ne array patch.array
    · rw [held_insert_self]
      exact insertIndex_sorted _ _ (h.ascending _)
    · rw [held_insert_of_ne hne]
      exact h.ascending array
  · rw [hpatched, ← or_assoc, ← h.mem_iff]
    obtain rfl | hne := eq_or_ne array patch.array
    · rw [held_insert_self, mem_insertIndex, or_comm]
      simp [Patch.site, eq_comm]
    · rw [held_insert_of_ne hne]
      simp [Patch.site, hne.symm]
  · obtain rfl | hne := eq_or_ne array patch.array
    · rw [lookup_insert_self]
      rfl
    · rw [lookup_insert_of_ne hne]
      exact h.known array hknown

/-- What some patches preserve. -/
theorem After.run (h : After native done arrays) (patches : List (Patch α × String)) :
    After native (done ++ patches) (arrays.run patches).2 := by
  induction patches generalizing done arrays with
  | nil => simpa [Arrays.run] using h
  | cons patch patches ih =>
    have hrest := ih (h.insert patch.1 patch.2)
    rw [List.append_assoc] at hrest
    exact hrest

theorem After.map_fst_ordered (h : After native done arrays) (hadmits : native.Admits done)
    (hlength : (native.held array).length = elements.length) :
    (ordered (native.marked done array elements)).map Prod.fst = arrays.held array :=
  Arrays.map_fst_ordered (hadmits.marked_nodup hlength) (h.ascending array) fun index => by
    rw [h.mem_iff, mem_map_fst_marked_iff hlength]

theorem After.not_mem (h : After native done arrays)
    (hadmits : native.Admits (done ++ [(patch, reference)])) :
    patch.index ∉ arrays.held patch.array := by
  rw [h.mem_iff, not_or]
  refine ⟨hadmits.fresh (patch, reference) (List.mem_append_right _ List.mem_cons_self), ?_⟩
  rintro ⟨other, hother, hsite⟩
  have hnodup := hadmits.nodup
  rw [List.map_append, List.nodup_append] at hnodup
  exact hnodup.2.2 _ (List.mem_map_of_mem hother) patch.site (List.mem_singleton_self _) hsite

/-! ## Statements -/

theorem length_run (arrays : Arrays) (patches : List (Patch α × String)) :
    (arrays.run patches).1.length = patches.length := by
  induction patches generalizing arrays with
  | nil => rfl
  | cons patch patches ih =>
    exact congrArg Nat.succ (ih (arrays.insert patch.1.array patch.1.index))

/-- The statement for a patch is planned with the arrays after the patches before it. -/
theorem getElem?_run (arrays : Arrays) (done : List (Patch α × String)) (patch : Patch α)
    (reference : String) (left : List (Patch α × String)) :
    (arrays.run (done ++ (patch, reference) :: left)).1[done.length]? =
      some ((arrays.run done).2.statement patch reference) := by
  induction done generalizing arrays with
  | nil => rfl
  | cons other done ih => exact ih (arrays.insert other.1.array other.1.index)

/-- The statement for a patch adds its reference to the elements of its array, in source order. -/
theorem After.apply_statement (h : After native done arrays)
    (hadmits : native.Admits (done ++ [(patch, reference)]))
    (hlength : (native.held patch.array).length = elements.length) :
    (arrays.statement patch reference).kind.apply [.expression reference]
        (native.patched done patch.array elements) =
      some (native.patched (done ++ [(patch, reference)]) patch.array elements) := by
  have hkeys := h.map_fst_ordered hadmits.of_append hlength
  have hfresh : patch.index ∉ (native.marked done patch.array elements).map Prod.fst := by
    rw [mem_map_fst_marked_iff hlength, ← h.mem_iff]
    exact h.not_mem hadmits
  have hadded : native.marked (done ++ [(patch, reference)]) patch.array elements =
      native.marked done patch.array elements ++ [(patch.index, .expression reference)] := by
    have hlast : addedTo [(patch, reference)] patch.array =
        [(patch.index, .expression reference)] := by
      simp [addedTo]
    rw [marked, marked, addedTo_append, hlast, List.append_assoc]
  rw [patched, patched, hadded]
  exact PatchKind.apply_ordered (hadmits.of_append.marked_nodup hlength) hfresh hkeys _

/-- A patch adds to no other array. -/
theorem patched_of_ne {array : AccessPath} (h : array ≠ patch.array) (elements : List Value) :
    native.patched (done ++ [(patch, reference)]) array elements =
      native.patched done array elements := by
  have hnone : addedTo [(patch, reference)] array = [] := by
    simp [addedTo, h.symm]
  rw [patched, patched, marked, marked, addedTo_append, hnone, List.append_nil]

/-- The statements for some patches add their references to the contents of arrays. -/
theorem After.runOn_run (h : After native done arrays) (hadmits : native.Admits (done ++ patches))
    {contents : AccessPath → List Value}
    (hlength : ∀ array, (native.held array).length = (contents array).length) :
    PatchStatement.runOn
        ((patches.map fun patch => patch.1.array).zip (arrays.run patches).1)
        (fun array => native.patched done array (contents array)) =
      some fun array => native.patched (done ++ patches) array (contents array) := by
  induction patches generalizing done arrays with
  | nil =>
    rw [List.append_nil]
    rfl
  | cons first patches ih =>
    rcases first with ⟨patch, reference⟩
    rw [List.append_cons] at hadmits ⊢
    have hupdate : Function.update (fun array => native.patched done array (contents array))
        patch.array
        (native.patched (done ++ [(patch, reference)]) patch.array (contents patch.array)) =
      fun array => native.patched (done ++ [(patch, reference)]) array (contents array) := by
      funext array
      obtain rfl | hne := eq_or_ne array patch.array
      · rw [Function.update_self]
      · rw [Function.update_of_ne hne, patched_of_ne hne]
    have happly := h.apply_statement hadmits.of_append (hlength patch.array)
    rw [Arrays.run, List.map_cons, List.zip_cons_cons, PatchStatement.runOn]
    simp only
    rw [show (arrays.statement patch reference).references.map Value.expression =
      [.expression reference] from rfl, happly, Option.bind_some, hupdate]
    exact ih (h.insert patch reference) hadmits

/-! ## Modules -/

theorem zip_set {indices : List Nat} {place index : Nat} (h : indices[place]? = some index)
    (elements : List Value) (changed : Value) :
    indices.zip (elements.set place changed) =
      (indices.zip elements).set place (index, changed) := by
  induction indices generalizing place elements with
  | nil => simp at h
  | cons first indices ih =>
    cases elements with
    | nil => rfl
    | cons element elements =>
      cases place with
      | zero =>
        obtain rfl : first = index := by simpa using h
        rfl
      | succ place => exact congrArg (List.cons (first, element)) (ih (by simpa using h) elements)

/-- The positions that statements are planned with are those of the native elements. -/
theorem After.keeps (h : After native done arrays) (hadmits : native.Admits done) :
    Value.Keeps native arrays.position (native.patched done) := by
  intro array indices elements hlookup hlength place index value hindex hvalue
  have hheld := held_of_lookup hlookup
  have hheldLength : (native.held array).length = elements.length := hheld ▸ hlength
  have hnodup := hadmits.marked_nodup hheldLength
  have hkeys := h.map_fst_ordered hadmits hheldLength
  have hposition : arrays.position array index = rank index (arrays.held array) := by
    obtain ⟨present, hpresent⟩ := Option.isSome_iff_exists.1 (h.known array (by rw [hlookup]; rfl))
    rw [position, held_of_lookup hpresent, hpresent]
  have hzip : (indices.zip elements)[place]? = some (index, value) :=
    List.getElem?_zip_eq_some.2 ⟨hindex, hvalue⟩
  have hlt := (List.getElem?_eq_some_iff.1 hzip).1
  have hget : (native.marked done array elements)[place]? = some (index, value) := by
    rw [marked, hheld, List.getElem?_append_left hlt, hzip]
  refine ⟨?_, fun changed => ?_⟩
  · rw [hposition, ← hkeys, patched, List.getElem?_map,
      getElem?_ordered hnodup (List.mem_of_getElem? hget), Option.map_some]
  · have hset : native.marked done array (elements.set place changed) =
        (native.marked done array elements).set place (index, changed) := by
      rw [marked, marked, hheld, zip_set hindex, List.set_append_left _ _ hlt]
    rw [hposition, ← hkeys, patched, set_ordered hnodup hget, patched, hset]

theorem patched_nil (h : (native.held array).Pairwise (· < ·))
    (hlength : (native.held array).length = elements.length) :
    native.patched ([] : List (Patch α × String)) array elements = elements := by
  have hmarked : native.marked ([] : List (Patch α × String)) array elements =
      (native.held array).zip elements := List.append_nil _
  have hsorted : ((native.held array).zip elements).Pairwise
      fun element other => element.1 < other.1 := by
    rw [← List.map_fst_zip hlength.le, List.pairwise_map] at h
    exact h
  rw [patched, hmarked, ← eq_ordered hsorted (.refl _), List.map_snd_zip hlength.ge]

end Arrays

namespace Grammar

variable {config : Config} {document : Document} {grammar : Grammar} {standing : Standing}
  {native arrays : Arrays} {position : AccessPath → Nat → Nat}
  {arrange other : AccessPath → List Value → List Value} {α : Type}
  {patches done : List (Patch α × String)} {patch : Patch α} {reference : String}

theorem Follows.placed (h : grammar.Follows config document standing native) {origin : Origin}
    (horigin : origin ∈ grammar.origins document) :
    Value.Placed native origin.path
      (origin.rule.valueWith (origin.context config document) standing origin.path) :=
  Rule.placed_valueWith (h origin horigin)

theorem rearrange_moduleWith : (grammar.moduleWith config document standing).rearrange arrange =
    .object ((grammar.origins document).map fun origin => (origin.identifier,
      (origin.rule.valueWith (origin.context config document) standing origin.path).rearrange
        arrange)) := by
  rw [moduleWith, Value.rearrange, Value.rearrangeMembers_eq, List.map_map]
  rfl

/-- A module is rearranged in one way if every array with as many elements as it has indices is. -/
theorem rearrange_moduleWith_congr (h : grammar.Follows config document standing native)
    (hagree : ∀ array indices elements, native.lookup array = some indices →
      indices.length = elements.length → arrange array elements = other array elements) :
    (grammar.moduleWith config document standing).rearrange arrange =
      (grammar.moduleWith config document standing).rearrange other := by
  rw [rearrange_moduleWith, rearrange_moduleWith]
  refine congrArg Value.object (List.map_congr_left fun origin horigin => ?_)
  exact congrArg (Prod.mk origin.identifier) ((h.placed horigin).rearrange_congr
    fun array indices elements _ => hagree array indices elements)

theorem rearrange_moduleWith_patched_nil
    (hfollows : grammar.Follows config document standing native)
    (h : ∀ array, (native.held array).Pairwise (· < ·)) :
    (grammar.moduleWith config document standing).rearrange
        (native.patched ([] : List (Patch α × String))) =
      grammar.moduleWith config document standing := by
  conv_rhs => rw [← Value.rearrange_id (grammar.moduleWith config document standing)]
  exact rearrange_moduleWith_congr hfollows fun array indices elements hlookup hlength =>
    Arrays.patched_nil (h array) (Arrays.held_of_lookup hlookup ▸ hlength)

/-- From the rearranged module, the accesses of an array lead to the rearranged array. -/
theorem focus_rearranged (h : grammar.keyCause? document = none)
    (hfollows : grammar.Follows config document standing native)
    (hkeeps : Value.Keeps native position arrange) {origin : Origin}
    (horigin : origin ∈ grammar.origins document) {array : AccessPath} {entries : List Rule}
    (harray : origin.rule.HasArray origin.path array entries) :
    ∃ elements put, (native.held array).length = elements.length ∧
      Value.Focus (.member array.root :: array.accesses position)
        ((grammar.moduleWith config document standing).rearrange arrange)
        (.array array (arrange array elements)) put ∧
      ∀ other : AccessPath → List Value → List Value,
        (∀ path, path ≠ array → other path = arrange path) →
          put (.array array (other array elements)) =
            (grammar.moduleWith config document standing).rearrange other := by
  obtain ⟨accesses, put, haccesses, hfocus, hput⟩ :=
    (hfollows.placed horigin).leadsTo hkeeps (Rule.holds_valueWith harray)
  obtain ⟨putMember, hopens, hputMember⟩ := Value.exists_opens_map (origins_identifiers_nodup h)
    horigin fun origin =>
      (origin.rule.valueWith (origin.context config document) standing origin.path).rearrange
        arrange
  have hbelow := Rule.hasArray_below harray
  have hroot : array.root = origin.identifier := hbelow.root
  refine ⟨(Rule.cellsWith (origin.context config document) standing array
    entries).reduceOption.map (Value.rearrange arrange), putMember ∘ put, ?_, ?_,
    fun other hagree => ?_⟩
  · rw [Arrays.held_of_lookup (hfollows origin horigin array entries harray), Cells.filled,
      Cells.length_filledFrom, List.length_map]
  · rw [hroot, haccesses, rearrange_moduleWith]
    exact .cons hopens hfocus
  · rw [Function.comp_apply, hput other hagree, rearrange_moduleWith]
    refine hputMember (fun origin => (origin.rule.valueWith (origin.context config document)
      standing origin.path).rearrange other) fun sibling hsibling hne => ?_
    refine ((hfollows.placed hsibling).rearrange_of_not_below (fun hother => hne ?_) hagree).symm
    exact hother.root.symm.trans hbelow.root

/-- A statement evaluates to the array of its patch, and adds the reference of the patch to it. -/
theorem execute_rearranged (h : grammar.keyCause? document = none)
    (hfollows : grammar.Follows config document standing native)
    (hafter : Arrays.After native done arrays)
    (hadmits : native.Admits (done ++ [(patch, reference)])) {origin : Origin}
    (horigin : origin ∈ grammar.origins document) {entries : List Rule}
    (harray : origin.rule.HasArray origin.path patch.array entries) :
    (arrays.statement patch reference).execute
        ((grammar.moduleWith config document standing).rearrange (native.patched done)) =
      some (patch.array, (grammar.moduleWith config document standing).rearrange
        (native.patched (done ++ [(patch, reference)]))) := by
  obtain ⟨elements, put, hlength, hfocus, hput⟩ :=
    focus_rearranged h hfollows (hafter.keeps hadmits.of_append) horigin harray
  have hroot : Access.IsRoot patch.array.root := by
    rw [(Rule.hasArray_below harray).root]
    exact isRoot_of_origin horigin
  have haccesses : (arrays.statement patch reference).accesses? =
      some (.member patch.array.root :: patch.array.accesses arrays.position) := by
    rw [PatchStatement.accesses?, Arrays.statement, Access.read_renderWith hroot, Option.map_some,
      Access.root_renderWith hroot]
  rw [PatchStatement.execute_of_focus haccesses hfocus,
    show (arrays.statement patch reference).references.map Value.expression =
      [.expression reference] from rfl, hafter.apply_statement hadmits hlength, Option.map_some,
    hput _ fun path hne => funext fun _ => Arrays.patched_of_ne hne _]

/-- The statements for some patches add their references to the arrays of a module. -/
theorem run_rearranged (h : grammar.keyCause? document = none)
    (hfollows : grammar.Follows config document standing native)
    (hafter : Arrays.After native done arrays) (hadmits : native.Admits (done ++ patches))
    (hpatches : ∀ patch ∈ patches, ∃ origin ∈ grammar.origins document, ∃ entries,
      origin.rule.HasArray origin.path patch.1.array entries) :
    PatchStatement.run (arrays.run patches).1
        ((grammar.moduleWith config document standing).rearrange (native.patched done)) =
      some (patches.map fun (patch, reference) => (patch.array, reference),
        (grammar.moduleWith config document standing).rearrange
          (native.patched (done ++ patches))) := by
  induction patches generalizing done arrays with
  | nil =>
    rw [List.append_nil]
    rfl
  | cons first patches ih =>
    rcases first with ⟨patch, reference⟩
    rw [List.append_cons] at hadmits ⊢
    rw [List.forall_mem_cons] at hpatches
    obtain ⟨⟨origin, horigin, entries, harray⟩, hpatches⟩ := hpatches
    rw [Arrays.run, PatchStatement.run_cons,
      execute_rearranged h hfollows hafter hadmits.of_append horigin harray, Option.bind_some]
    simp only
    rw [ih (hafter.insert patch reference) hadmits hpatches]
    rfl

/-! ## Tables -/

/-- The recorded arrays of a table are those inside its definitions. -/
theorem exists_hasArray {array : AccessPath} {indices : List Nat}
    (h : (array, indices) ∈ (grammar.table config document).trail.arrays) :
    (∃ origin ∈ grammar.origins document, ∃ entries,
      origin.rule.HasArray origin.path array entries) ∧ indices.Pairwise (· < ·) := by
  rw [arrays_table, List.mem_filterMap] at h
  obtain ⟨⟨origin, visit⟩, hstop, hvisit⟩ := h
  obtain ⟨horigin, hvisits⟩ := mem_stops_iff.1 hstop
  cases visit with
  | filled array entries =>
    cases hvisit
    exact ⟨⟨origin, horigin, entries, Rule.filled_mem_visits_iff.1 hvisits⟩,
      Cells.filledFrom_sorted 0 _⟩
  | _ => simp [Context.arrayAt?] at hvisit

theorem exists_hasArray_of_mem {array : AccessPath}
    (h : array ∈ (grammar.table config document).trail.arrays.map Prod.fst) :
    ∃ origin ∈ grammar.origins document, ∃ entries,
      origin.rule.HasArray origin.path array entries := by
  obtain ⟨⟨array, indices⟩, hmem, rfl⟩ := List.mem_map.1 h
  exact (exists_hasArray hmem).1

/-- Statements are planned from the arrays as they are recorded. -/
theorem ofTable_table : Arrays.ofTable (grammar.table config document) =
    (grammar.table config document).trail.arrays := by
  rw [Arrays.ofTable]
  conv_rhs => rw [← List.map_id (grammar.table config document).trail.arrays]
  refine List.map_congr_left ?_
  rintro ⟨array, indices⟩ hmem
  exact congrArg (Prod.mk array) (foldr_insertIndex_eq (exists_hasArray hmem).2)

theorem held_ascending (array : AccessPath) :
    (Arrays.held (grammar.table config document).trail.arrays array).Pairwise (· < ·) := by
  rw [Arrays.held]
  cases hlookup : (grammar.table config document).trail.arrays.lookup array with
  | none => exact .nil
  | some indices =>
    obtain ⟨before, after, heq, -⟩ := List.lookup_eq_some_iff.1 hlookup
    exact (exists_hasArray (heq ▸ List.mem_append_right _ List.mem_cons_self)).2

end Grammar

namespace Table

/-- Whatever the grammar and whatever the order, patches at different indices that their arrays do
    not have are planned alike. -/
theorem plansAs_of_ofGrammar {config : Config} {document : Document} {grammar : Grammar}
    {table : Table} (hbuild : (ofGrammar config document grammar).1 = .ok table) {α : Type}
    {patches order : List (Patch α × String)}
    (hnodup : (patches.map fun patch => (patch.1.array, patch.1.index)).Nodup)
    (hfresh : ∀ patch ∈ patches, patch.1.index ∉ table.nativeIndices patch.1.array)
    (horder : order.Perm patches) : table.PlansAs patches order := by
  obtain ⟨-, hkeys, hsucceeds, rfl⟩ := ofGrammar_ok_iff.1 hbuild
  have hfollows := Grammar.follows_ofTable hkeys hsucceeds
  rw [Grammar.ofTable_table] at hfollows
  have hadmits : Arrays.Admits (grammar.table config document).trail.arrays patches :=
    ⟨Grammar.held_ascending, hnodup, hfresh⟩
  have hordered := hadmits.perm horder
  have hnil : Arrays.After (grammar.table config document).trail.arrays
      ([] : List (Patch α × String)) (grammar.table config document).trail.arrays :=
    Arrays.after_nil hordered.ascending
  constructor
  · intro done left hleft array
    rw [Grammar.ofTable_table]
    exact ⟨(hnil.run done).ascending array, (hnil.run done).mem_iff array⟩
  · intro done patch reference left hleft
    rw [hleft, List.append_cons] at hordered
    rw [Grammar.ofTable_table, hleft]
    exact ⟨_, Arrays.getElem?_run _ done patch reference left, rfl, rfl,
      PatchKind.isFor_planned ((hnil.run done).ascending patch.array)
        ((hnil.run done).not_mem hordered.of_append)⟩
  · exact Arrays.length_run _ order
  · intro contents hlength
    have hlength : ∀ array, (Arrays.held (grammar.table config document).trail.arrays array).length
        = (contents array).length := fun array => (hlength array).symm
    have hrun := hnil.runOn_run hordered hlength
    simp only [Arrays.patched_nil (hordered.ascending _) (hlength _), List.nil_append] at hrun
    rw [Grammar.ofTable_table, hrun]
    exact congrArg some (funext fun array => hadmits.patched_eq_of_perm horder (hlength array))
  · intro hknown
    have hrun := Grammar.run_rearranged hkeys hfollows hnil hordered fun patch hpatch =>
      Grammar.exists_hasArray_of_mem (hknown patch (horder.mem_iff.1 hpatch))
    rw [Grammar.rearrange_moduleWith_patched_nil hfollows hordered.ascending,
      List.nil_append] at hrun
    rw [Grammar.ofTable_table, Grammar.loaded_table hkeys hsucceeds, hrun]
    refine congrArg (fun state => some (_, state)) (Grammar.rearrange_moduleWith_congr hfollows ?_)
    exact fun array indices elements hlookup hlength =>
      hadmits.patched_eq_of_perm horder (Arrays.held_of_lookup hlookup ▸ hlength)

/-- Patches of an array and of another one inside it, in one order and in the opposite one. -/
theorem plansAs_of_ofGrammar_nested :
    let grammar : Grammar :=
      { repository := some [("list", {
          patterns := some [{ reference := some "source.other#x" },
            { patterns := some [{ reference := some "#list" }, { single := some "a" },
              { reference := some "#item" }] },
            { single := some "b" }, { reference := some "#list" }] }),
          ("item", { single := some "c" })] }
    let table := grammar.table {} ⟨"source.list"⟩
    let outer : AccessPath := ⟨"list", [.field .patterns]⟩
    let inner : AccessPath := ⟨"list", [.field .patterns, .index 1, .field .patterns]⟩
    let patches : List (Patch Unit × String) := [(⟨outer, 0, (), "source.other#x"⟩, "x"),
      (⟨inner, 2, (), "#item"⟩, "item"), (⟨outer, 3, (), "#list"⟩, "list"),
      (⟨inner, 0, (), "#list"⟩, "list")]
    (ofGrammar {} ⟨"source.list"⟩ grammar).1 = .ok table ∧
      ((Arrays.ofTable table).run patches).1.map PatchStatement.text =
        ["list.patterns!.splice(0, 0, x);", "list.patterns![1].patterns!.push(item);",
          "list.patterns!.push(list);", "list.patterns![1].patterns!.splice(0, 0, list);"] ∧
      ((Arrays.ofTable table).run patches.reverse).1.map PatchStatement.text =
        ["list.patterns![0].patterns!.splice(0, 0, list);", "list.patterns!.push(list);",
          "list.patterns![0].patterns!.push(item);", "list.patterns!.splice(0, 0, x);"] ∧
      (∀ patch ∈ patches, patch.1.array ∈ table.trail.arrays.map Prod.fst) ∧
      table.PlansAs patches patches.reverse := by
  intro grammar table outer inner patches
  have hbuild : (ofGrammar {} ⟨"source.list"⟩ grammar).1 = .ok table :=
    ofGrammar_ok_iff.2 ⟨rfl, by decide +kernel, by decide +kernel, rfl⟩
  exact ⟨hbuild, by decide +kernel, by decide +kernel, by decide +kernel,
    plansAs_of_ofGrammar hbuild (by decide +kernel) (by decide +kernel) (List.reverse_perm _)⟩

end Table

end PatternTable
