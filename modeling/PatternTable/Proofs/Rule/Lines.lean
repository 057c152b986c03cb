import PatternTable.Proofs.Regex.Lines
import PatternTable.Proofs.Rule.Scopes
import PatternTable.Proofs.Rule.Soundness
import PatternTable.Proofs.Scope.Lines
import PatternTable.Proofs.Tree.Lines

/-!
# Rules on one line

Of the texts of a rule, the scope names and the patterns are written as they are. A comment is
written line by line, and paths are quoted. So if the scope names and patterns of the rules that are
reached have no line feed, every text in the node of the rule is one line.

* `Rule.OnOneLine`: the scope names and patterns of a rule have no line feed.

Results:
* `Rule.areLines_node`: the texts in the node of a rule are lines.
-/

namespace PatternTable

open Text

/-! ## Specification -/

namespace Rule

/-- The texts of a rule that are written as they are: its scope names and its patterns. -/
def written (rule : Rule) : List String :=
  rule.ownScopes ++ rule.single.toList ++ rule.opening.toList ++ rule.closing.toList

/-- The scope names and the patterns of a rule have no line feed. An include has none that count. -/
def OnOneLine (rule : Rule) : Prop :=
  rule.isReference = false → ∀ text ∈ rule.written, '\n' ∉ text.toList

instance (rule : Rule) : Decidable rule.OnOneLine :=
  inferInstanceAs (Decidable (_ → _))

end Rule

/-! ## Own items -/

theorem Target.isLine_identifier (document : Document) (target : Target) :
    IsLine (target.identifier document).toList :=
  .of_isAlphanum (target.identifier_isAlphanum document)

theorem areLines_commentItems (comment : String) :
    ∀ item ∈ commentItems comment, AreLines item.words := by
  intro item hitem
  obtain ⟨line, hline, rfl⟩ := List.mem_map.1 hitem
  simpa [AreLines, Item.words] using isLine_trimEnd hline

namespace Context

variable (context : Context)

theorem areLines_tokenMember {key scope : String} (hkey : IsLine key.toList)
    (h : '\n' ∉ scope.toList) : AreLines (context.tokenMember key scope).words := by
  rw [tokenMember, areLines_member_iff, areLines_raw_iff]
  refine ⟨hkey, Scope.isLine_expression _ _, fun word hword => ?_⟩
  rw [Option.mem_toList, Option.some.injEq] at hword
  rw [← hword]
  exact Scope.isLine_remark h _

theorem areLines_patternMember {key pattern : String} (hkey : IsLine key.toList)
    (h : '\n' ∉ pattern.toList) (captures : Bool) :
    AreLines (context.patternMember key captures pattern).words := by
  rw [patternMember, areLines_plain_iff, areLines_raw_iff]
  exact ⟨hkey, Regex.isLine_literal h _ _⟩

/-- The items of a rule that hold no other rules. -/
theorem areLines_ownItems {rule : Rule} (h : ∀ text ∈ rule.written, '\n' ∉ text.toList)
    (path : AccessPath) : ∀ item ∈ context.ownItems rule path, AreLines item.words := by
  have hname : ∀ item ∈ if rule.hasPattern then
      [Item.plain "debugName" (.text path.text), .blank] else [], AreLines item.words := by
    split
    · rw [List.forall_mem_cons, List.forall_mem_singleton, areLines_plain_iff]
      exact ⟨⟨.literal (by decide), by simp [AreLines, Node.words]⟩, by simp [AreLines, Item.words]⟩
    · simp
  have hcomments : ∀ item ∈ (rule.comment.map commentItems).getD [], AreLines item.words := by
    cases rule.comment with
    | none => simp
    | some comment => exact areLines_commentItems comment
  simp only [Rule.written, Rule.ownScopes, List.forall_mem_append] at h
  obtain ⟨⟨⟨⟨hscope, hcontent⟩, hsingle⟩, hopening⟩, hclosing⟩ := h
  have hoptional {text? : Option String} {member : String → Item}
      (htext : ∀ text ∈ text?.toList, '\n' ∉ text.toList)
      (hmember : ∀ text, '\n' ∉ text.toList → AreLines (member text).words) :
      ∀ item ∈ (text?.map member).toList, AreLines item.words := by
    cases text? with
    | none => simp
    | some text => simpa using hmember text (htext text (by simp))
  simp only [ownItems, List.forall_mem_append]
  exact ⟨⟨⟨⟨⟨⟨hname, hcomments⟩,
    hoptional hscope fun _ => context.areLines_tokenMember (.literal (by decide))⟩,
    hoptional hcontent fun _ => context.areLines_tokenMember (.literal (by decide))⟩,
    hoptional hsingle fun _ h => context.areLines_patternMember (.literal (by decide)) h _⟩,
    hoptional hopening fun _ h => context.areLines_patternMember (.literal (by decide)) h _⟩,
    hoptional hclosing fun _ h => context.areLines_patternMember (.literal (by decide)) h _⟩

/-! ## Arrays and groups -/

/-- The rules of an array, and the identifiers that stand for its includes. -/
theorem areLines_arrayNode {array : AccessPath} {rules : List Rule}
    (h : ∀ (index : Nat) (entry : Rule), rules[index]? = some entry → entry.isReference = false →
      AreLines (entry.node context (array.index index)).words) :
    AreLines (context.arrayNode array
      (rules.map fun entry => (entry, entry.node context))).words := by
  rw [arrayNode, areLines_array_iff]
  intro element helement
  rw [List.reduceOption_mem_iff, cells, List.zipIdx_map, List.map_map, List.mem_map] at helement
  obtain ⟨⟨entry, index⟩, hentry, hcell⟩ := helement
  have hget : rules[index]? = some entry := List.mk_mem_zipIdx_iff_getElem?.1 hentry
  simp only [Function.comp_apply, Prod.map_apply, cell] at hcell
  cases hreference : entry.reference with
  | none =>
    rw [hreference, Option.some.injEq] at hcell
    rw [← hcell]
    exact h index entry hget (by rw [Rule.isReference, hreference]; rfl)
  | some spelling =>
    rw [hreference] at hcell
    obtain ⟨identifier, hinlined, rfl⟩ := Option.map_eq_some_iff.1 hcell
    rw [areLines_raw_iff]
    rw [inlined?] at hinlined
    split at hinlined
    · split at hinlined
      · rw [← Option.some.inj hinlined]
        exact Target.isLine_identifier _ _
      · cases hinlined
    · cases hinlined

theorem areLines_groupsNode {path : AccessPath} {groups : List (String × Rule)}
    (h : ∀ key inner number, (key, inner) ∈ groups → SpellsGroup key number →
      AreLines (inner.node context (path.group number)).words) :
    AreLines (groupsNode path (groups.map fun group => (group.1, group.2.node context))).words := by
  rw [groupsNode, areLines_object_iff, sortedGroups_map]
  intro item hitem
  obtain ⟨_, hgroup, rfl⟩ := List.mem_map.1 hitem
  obtain ⟨group, hmem, rfl⟩ := List.mem_map.1 hgroup
  obtain ⟨key, hentry, hnumber⟩ := mem_sortedGroups hmem
  rw [areLines_plain_iff]
  exact ⟨isLine_toString _, h key group.2 group.1 hentry (groupNumber?_eq_some_iff.1 hnumber)⟩

end Context

/-! ## The node of a rule -/

namespace Rule

/-- If no rule that is reached has line feeds in its scope names and patterns, every text in the
    node of the rule is one line. -/
theorem areLines_node (context : Context) (rule : Rule) (path : AccessPath)
    (h : ∀ reached below, rule.Reaches path reached below → reached.OnOneLine) :
    AreLines (rule.node context path).words := by
  induction rule using Rule.induction generalizing path with
  | step rule groups entries =>
    cases hrule : rule.isReference with
    | true =>
      rw [node_of_isReference hrule, areLines_object_iff, List.forall_mem_singleton,
        areLines_plain_iff]
      refine ⟨.literal (by decide), context.areLines_arrayNode fun index entry hget hentry => ?_⟩
      have hmem := List.mem_of_getElem? hget
      rw [List.mem_singleton] at hmem
      rw [hmem, hrule] at hentry
      cases hentry
    | false =>
      rw [node_of_not_isReference hrule, areLines_object_iff, List.forall_mem_append,
        List.forall_mem_append]
      refine ⟨⟨context.areLines_ownItems (h rule path (.self rule path) hrule) path, ?_⟩, ?_⟩
      · intro item hitem
        obtain ⟨field, -, hitem⟩ := List.mem_flatMap.1 hitem
        rw [Option.mem_toList] at hitem
        obtain ⟨members, hmembers, rfl⟩ := Option.map_eq_some_iff.1 hitem
        rw [areLines_plain_iff]
        refine ⟨by cases field <;> exact .literal (by decide),
          context.areLines_groupsNode fun key inner number hentry hnumber => ?_⟩
        exact groups field members hmembers (key, inner) hentry _ fun reached below hreaches =>
          h reached below (.group hrule hmembers hentry hnumber hreaches)
      · intro item hitem
        rw [Option.mem_toList] at hitem
        obtain ⟨rules, hrules, rfl⟩ := Option.map_eq_some_iff.1 hitem
        rw [areLines_plain_iff]
        refine ⟨.literal (by decide), context.areLines_arrayNode fun index entry hget _ => ?_⟩
        exact entries rules hrules entry (List.mem_of_getElem? hget) _ fun reached below hreaches =>
          h reached below (.entry hrule hrules hget hreaches)

end Rule

end PatternTable
