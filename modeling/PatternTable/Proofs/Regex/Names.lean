import Mathlib.Data.List.Nodup
import PatternTable.Proofs.Regex.Rescanning

/-!
# Names of groups

A pattern names groups, and refers to them by name. The names in both roles are rewritten by the
same rule, so that the groups and the references of a source are those of its pattern, one by one,
with their new names.

**Where this fails.** Names are rewritten one at a time, without a look at the others. Different
names may have the same new name, as every character that is not for identifiers becomes an
underscore. A reference then means a group of another name as well, and two groups get one name,
which JavaScript refuses unless they are alternatives.

Results:
* `names_source`: the names in a source.
* `references_kept_iff`: which references mean the same groups as before, and when no two groups
  have one name.
* `names_collide`: two groups that get one name.
-/

namespace PatternTable.Regex

/-! ## Specification -/

/-- What a name in a pattern is for. -/
inductive Role where
  | group
  | reference
  deriving DecidableEq, Repr

/-- The name that a token has in a role. -/
def Token.nameAs? : Role → Token → Option (List Char)
  | .group, namedGroup name => some name
  | .reference, backReference name => some name
  | _, _ => none

/-- The names in a role that tokens after `depth` open brackets have, in order. Only those at depths
    that count are listed. -/
def namesFrom (role : Role) (counts : Nat → Bool) (depth : Nat) : List Token → List (List Char)
  | [] => []
  | token :: rest =>
    (if counts depth then (token.nameAs? role).toList else []) ++
      namesFrom role counts (token.depthAfter depth) rest

/-- The names in a role that a pattern has. Inside brackets, where JavaScript knows neither groups
    nor references, they count or not. -/
def names (role : Role) (counts : Nat → Bool) (pattern : List Char) : List (List Char) :=
  namesFrom role counts 0 (scan pattern)

/-! ## Names in pieces of a pattern -/

section NamesFrom

variable (role : Role) (counts : Nat → Bool) (depth : Nat)

theorem ReadsFirst.namesFrom {c : Char} {tokens rest : List Token}
    (h : ReadsFirst c tokens rest) :
    namesFrom role counts depth tokens = Regex.namesFrom role counts (depthAfter depth c) rest := by
  have hplain (hc : isPlain c) : c ≠ '[' ∧ c ≠ ']' :=
    ⟨ne_of_isPlain hc (by decide), ne_of_isPlain hc (by decide)⟩
  cases h <;>
    simp_all [Regex.namesFrom, Token.nameAs?, Token.depthAfter, depthAfter]

theorem namesFrom_single {c : Char} {cs : List Char} (hc : c ≠ '\\') (h : ¬ StartsWhole (c :: cs)) :
    namesFrom role counts depth (scan (c :: cs)) =
      namesFrom role counts (depthAfter depth c) (scan cs) :=
  (scan_single hc h).namesFrom role counts depth

theorem namesFrom_escape {c : Char} {rest : List Char} (h : ¬ StartsWhole ('\\' :: c :: rest)) :
    namesFrom role counts depth (scan ('\\' :: c :: rest)) =
      namesFrom role counts depth (scan rest) := by
  rw [scan_escape h, namesFrom]
  simp [Token.nameAs?, Token.depthAfter]

theorem namesFrom_whole {token : Token} (h : token.IsWhole) (rest : List Char) :
    namesFrom role counts depth (scan (token.lexeme ++ rest)) =
      (if counts depth then (token.nameAs? role).toList else []) ++
        namesFrom role counts depth (scan rest) := by
  rw [scan_whole h, namesFrom]
  cases h <;> rfl

/-- Text of characters that start nothing has no names. -/
theorem namesFrom_append {lead : List Char} (hlead : ∀ c ∈ lead, c ∉ activeCharacters)
    (rest : List Char) :
    namesFrom role counts depth (scan (lead ++ rest)) =
      namesFrom role counts depth (scan rest) := by
  induction lead with
  | nil => rfl
  | cons c lead ih =>
    obtain ⟨hc, hlead⟩ := List.forall_mem_cons.1 hlead
    obtain ⟨hbackslash, -, -, hsame, hwhole⟩ := inert_of_not_active hc depth
    rw [List.cons_append, namesFrom_single role counts depth hbackslash (hwhole _), hsame, ih hlead]

end NamesFrom

/-! ## Names in a source -/

theorem Token.nameAs?_withName {token : Token} {name : List Char} (h : token.name? = some name)
    (role : Role) :
    (token.withName (groupName name)).nameAs? role = (token.nameAs? role).map groupName := by
  cases token <;> cases role <;> simp_all [name?, withName, nameAs?]

/-- What is written for a text has the new names of the text, in the same roles and at the same
    depths. -/
theorem Rewritten.namesFrom_eq {expand opened : Bool} {depth : Nat} {text written : List Char}
    (h : Rewritten expand depth opened text written) (role : Role) (counts : Nat → Bool) :
    namesFrom role counts depth (scan written) =
      (namesFrom role counts depth (scan text)).map groupName := by
  induction h with
  | nil => simp [scan, namesFrom]
  | lone => simp [scan_lone, namesFrom, Token.nameAs?]
  | @group depth _ token name _ _ htoken hname h ih =>
    rw [namesFrom_whole _ _ _ (htoken.withName hname).1, namesFrom_whole _ _ _ htoken, ih,
      Token.nameAs?_withName hname, List.map_append]
    congr 1
    cases counts depth <;> cases token.nameAs? role <;> rfl
  | keptClass hclass hkept h ih =>
    rw [namesFrom_whole _ _ _ hclass, namesFrom_whole _ _ _ hclass, ih]
    cases role <;> simp [Token.nameAs?]
  | expandedClass hdepth hranges h ih =>
    have hnameless (negated : Bool) (name : List Char) :
        (Token.posixClass negated name).nameAs? role = none := by
      cases role <;> rfl
    rw [namesFrom_whole _ _ _ (isWhole_of_expandClass? hranges), hnameless, Option.toList_none,
      ite_self, List.nil_append, ← ih]
    obtain rfl | ⟨hinert, -⟩ := inert_of_expandClass? hranges
    · exact namesFrom_escape _ _ _ (not_startsWhole_escape (by decide) _)
    · exact namesFrom_append _ _ _ hinert _
  | escape hwhole hwritten h ih =>
    rw [namesFrom_escape _ _ _ hwritten, namesFrom_escape _ _ _ hwhole, ih]
  | slash h ih =>
    rw [namesFrom_escape _ _ _ (not_startsWhole_escape (by decide) _), ih,
      namesFrom_single _ _ _ (by decide) (not_startsWhole_slash _)]
    rfl
  | single hc hwhole hwritten h ih =>
    simp only [List.mem_cons, List.not_mem_nil, or_false, not_or] at hc
    rw [namesFrom_single _ _ _ hc.1 hwritten, namesFrom_single _ _ _ hc.1 hwhole, ih]

/-- The names in a source are the new names of those in its pattern. -/
theorem names_source (role : Role) (counts : Nat → Bool) (expand captures : Bool)
    (pattern : String) :
    names role counts (Literal.ofPattern expand captures pattern).source.toList =
      (names role counts pattern.toList).map groupName := by
  have hbody : names role counts pattern.toList = names role counts (bodyOf pattern.toList) := by
    obtain hscan | hscan := scan_bodyOf pattern.toList
    · rw [names, hscan, names]
    · rw [names, hscan, namesFrom, names]
      cases role <;> simp [Token.nameAs?, Token.depthAfter]
  rw [hbody]
  obtain ⟨hnil, hsource⟩ | ⟨-, hsource⟩ := source_cases expand captures pattern
  · have hempty : scan "(?:)".toList = [.openParen, .run "?:)".toList] := by decide +kernel
    rw [hsource, hnil, names, names, hempty]
    cases role <;> simp [namesFrom, Token.nameAs?, scan]
  · rw [hsource]
    exact (rewritten_writtenFrom expand _ 0 false).namesFrom_eq role counts

/-! ## Main results -/

/-- A value has the same positions after a map exactly if it shares its image with no other value
    of the list. -/
theorem getElem?_map_iff_forall {α β : Type} {f : α → β} {list : List α} {a : α} :
    (∀ i : Nat, (list.map f)[i]? = some (f a) ↔ list[i]? = some a) ↔
      ∀ b ∈ list, f b = f a → b = a := by
  simp only [List.getElem?_map, Option.map_eq_some_iff]
  constructor
  · intro h b hb heq
    obtain ⟨i, hi⟩ := List.mem_iff_getElem?.1 hb
    have ha := (h i).1 ⟨b, hi, heq⟩
    rw [hi] at ha
    exact Option.some.inj ha
  · intro h i
    constructor
    · rintro ⟨b, hi, heq⟩
      rw [hi, h b (List.mem_of_getElem? hi) heq]
    · exact fun hi => ⟨a, hi, rfl⟩

/-- The groups and the references of a source are those of its pattern with their new names. A
    reference means the groups at the same places as before exactly if no group of another name has
    the same new name, and no two groups have one name exactly if none had and their new names are
    different. -/
theorem references_kept_iff (expand captures : Bool) (pattern : String) (counts : Nat → Bool) :
    (∀ role, names role counts (Literal.ofPattern expand captures pattern).source.toList =
        (names role counts pattern.toList).map groupName) ∧
      let groups := names .group counts pattern.toList
      let newGroups := names .group counts
        (Literal.ofPattern expand captures pattern).source.toList
      (∀ name ∈ names .reference counts pattern.toList,
        (∀ i : Nat, newGroups[i]? = some (groupName name) ↔ groups[i]? = some name) ↔
          ∀ other ∈ groups, groupName other = groupName name → other = name) ∧
      (newGroups.Nodup ↔
        groups.Nodup ∧ ∀ a ∈ groups, ∀ b ∈ groups, groupName a = groupName b → a = b) := by
  have hnames (role : Role) := names_source role counts expand captures pattern
  refine ⟨hnames, ?_⟩
  intro groups newGroups
  have hgroups : newGroups = groups.map groupName := hnames .group
  rw [hgroups]
  refine ⟨fun name _ => getElem?_map_iff_forall, ?_⟩
  constructor
  · intro h
    have hnodup := List.Nodup.of_map groupName h
    exact ⟨hnodup, (List.nodup_map_iff_inj_on hnodup).1 h⟩
  · rintro ⟨hnodup, hinjective⟩
    exact (List.nodup_map_iff_inj_on hnodup).2 hinjective

/-- In `(?<old-name>a)(?<b>/)\k<old-name>` the reference means the first group, whatever the names
    are. -/
theorem references_kept_pair :
    let pattern := "(?<old-name>a)(?<b>/)\\k<old-name>"
    let outside : Nat → Bool := (· == 0)
    "old-name".toList ∈ names .reference outside pattern.toList ∧
      ∀ i : Nat, (names .group outside
          (Literal.ofPattern true true pattern).source.toList)[i]? = some "old_name".toList ↔
        (names .group outside pattern.toList)[i]? = some "old-name".toList := by
  intro pattern outside
  have hname : "old-name".toList ∈ names .reference outside pattern.toList := by decide +kernel
  have hgroups : ∀ other ∈ names .group outside pattern.toList,
      groupName other = groupName "old-name".toList → other = "old-name".toList := by decide +kernel
  exact ⟨hname, ((references_kept_iff true true pattern outside).2.1 _ hname).2 hgroups⟩

/-- The groups of `(?<é>a)(?<è>b)\k<è>` get one name, so that the reference means the first one as
    well. -/
theorem names_collide :
    let pattern := "(?<é>a)(?<è>b)\\k<è>"
    let source := (Literal.ofPattern true false pattern).source
    let outside : Nat → Bool := (· == 0)
    let groups := names .group outside pattern.toList
    let newGroups := names .group outside source.toList
    source = "(?<_>a)(?<_>b)\\k<_>" ∧ "è".toList ∈ names .reference outside pattern.toList ∧
      groups.Nodup ∧ ¬ newGroups.Nodup ∧
      newGroups[0]? = some (groupName "è".toList) ∧ groups[0]? ≠ some "è".toList :=
  ⟨by decide +kernel, by decide +kernel, by decide +kernel, by decide +kernel, by decide +kernel,
    by decide +kernel⟩

end PatternTable.Regex
