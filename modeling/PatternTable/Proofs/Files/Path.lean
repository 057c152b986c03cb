import Mathlib.Data.List.TakeWhile
import PatternTable.Files.Path
import PatternTable.Proofs.Identifier

/-!
# Paths and names

A path that is joined to a directory leads to something in that directory only if it is a name: a
path with slashes leads elsewhere, and so does an absolute one.

* `Path.IsName`: a text names something in a directory.
* `Path.IsChild`: a path leads to something directly in a directory.

Results:
* `Path.components_join`: the components of a joined path.
* `Path.exists_trimComponents`: what trimming components takes away.
* `Path.isChild_join_iff`: which joined paths lead to something directly in the directory.
-/

namespace PatternTable.Path

/-! ## Specification -/

/-- A text is the name of something in a directory: one component, which says something and does not
    lead to the directory above. -/
structure IsName (name : String) : Prop where
  nonempty : name ≠ ""
  dot : name ≠ "."
  dots : name ≠ ".."
  slash : '/' ∉ name.toList

instance (name : String) : Decidable (IsName name) :=
  decidable_of_iff (name ≠ "" ∧ name ≠ "." ∧ name ≠ ".." ∧ '/' ∉ name.toList)
    ⟨fun h => ⟨h.1, h.2.1, h.2.2.1, h.2.2.2⟩, fun h => ⟨h.nonempty, h.dot, h.dots, h.slash⟩⟩

/-- A path leads to something directly in a directory. -/
def IsChild (directory path : String) : Prop :=
  ∃ name, IsName name ∧ path = join directory name

/-! ## Components -/

theorem components_empty : components "" = [""] := rfl

theorem not_mem_of_mem_components {path component : String} (h : component ∈ components path) :
    '/' ∉ component.toList := by
  obtain ⟨piece, hpiece, rfl⟩ := List.mem_map.1 h
  rw [String.toList_ofList]
  intro hmem
  simpa using Text.not_separates_of_mem_pieces hpiece hmem

/-- A path without slashes is its own only component. -/
theorem components_of_not_mem {path : String} (h : '/' ∉ path.toList) :
    components path = [path] := by
  rw [components, Text.pieces_eq_singleton _ _ fun c hc => beq_eq_false_iff_ne.2 ?_]
  · rw [List.map_singleton, String.ofList_toList]
  · exact fun heq => h (heq ▸ hc)

theorem components_append_slash (directory path : String) :
    components (directory ++ "/" ++ path) = components directory ++ components path := by
  have htext : (directory ++ "/" ++ path).toList = directory.toList ++ '/' :: path.toList := by
    simp
  rw [components, htext, Text.pieces_append_separator _ _ _ _ rfl, List.map_append]
  rfl

theorem components_intercalate {components : List String} (hne : components ≠ [])
    (h : ∀ component ∈ components, '/' ∉ component.toList) :
    Path.components ("/".intercalate components) = components := by
  cases components with
  | nil => exact absurd rfl hne
  | cons first rest =>
    clear hne
    induction rest generalizing first with
    | nil =>
      rw [String.intercalate_singleton, components_of_not_mem (h first List.mem_cons_self)]
    | cons next rest ih =>
      rw [List.forall_mem_cons] at h
      rw [String.intercalate_cons_cons, components_append_slash,
        components_of_not_mem h.1, ih next h.2]
      rfl

/-! ## Parents -/

/-- Whether a component says nothing. -/
def IsSilent (component : String) : Prop :=
  component = "" ∨ component = "."

/-- Only components that say nothing are trimmed. -/
theorem exists_trimComponents (components : List String) :
    ∃ silent, components = trimComponents components ++ silent ∧
      ∀ component ∈ silent, IsSilent component := by
  cases components with
  | nil => exact ⟨[], rfl, nofun⟩
  | cons first rest =>
    refine ⟨(rest.reverse.takeWhile fun component => component = "" ∨ component = ".").reverse,
      ?_, fun component hmem => ?_⟩
    · rw [trimComponents, List.cons_append, ← List.reverse_append, List.takeWhile_append_dropWhile,
        List.reverse_reverse]
    · simpa [IsSilent] using List.mem_takeWhile_imp (List.mem_reverse.1 hmem)

theorem trimComponents_append_name {name : String} (hname : IsName name)
    (components : List String) :
    trimComponents (components ++ [name]) = components ++ [name] := by
  cases components with
  | nil => rfl
  | cons first rest =>
    rw [List.cons_append, trimComponents, List.reverse_concat, List.dropWhile_cons_of_neg,
      List.reverse_cons, List.reverse_reverse]
    simp [hname.nonempty, hname.dot]

/-! ## Joining -/

theorem not_isAbsolute_of_not_mem {path : String} (h : '/' ∉ path.toList) :
    isAbsolute path = false := by
  rw [isAbsolute, beq_eq_false_iff_ne]
  exact fun hhead => h (List.mem_of_head? hhead)

/-- A directory with the slash that joining puts after it. -/
def lead (directory : String) : String :=
  if directory.isEmpty then ""
  else if directory.toList.getLast? == some '/' then directory
  else directory ++ "/"

theorem join_eq {path : String} (h : isAbsolute path = false) (directory : String) :
    join directory path = lead directory ++ path := by
  rw [join, lead, h, Bool.false_or]
  split
  · exact (String.empty_append).symm
  · split <;> rfl

/-- A joined path has the components of the directory, and then those of the path. The last
    component of a directory that ends in a slash is empty and says nothing. -/
theorem components_join {path : String} (h : isAbsolute path = false) (directory : String) :
    components (join directory path) =
        (if directory.isEmpty then [] else components directory) ++ components path ∨
      ∃ before, components directory = before ++ [""] ∧
        components (join directory path) = before ++ components path := by
  rw [join, h, Bool.false_or]
  split
  · exact .inl rfl
  · split
    · next hlast =>
      obtain ⟨before, hbefore⟩ := List.getLast?_eq_some_iff.1 (beq_iff_eq.1 hlast)
      have hdirectory : directory = String.ofList before ++ "/" ++ "" := by
        rw [← String.toList_inj, hbefore]
        simp
      have hpath : directory ++ path = String.ofList before ++ "/" ++ path := by
        rw [hdirectory, String.append_empty]
      refine .inr ⟨components (String.ofList before), ?_, ?_⟩
      · rw [hdirectory, components_append_slash]
        rfl
      · rw [hpath, components_append_slash]
    · exact .inl (components_append_slash directory path)

/-- A joined path leads to something directly in the directory if what is joined is a name, or if it
    is absolute and leads there by itself. -/
theorem isChild_join_iff {directory path : String} :
    IsChild directory (join directory path) ↔
      IsName path ∨ (isAbsolute path ∧ IsChild directory path) := by
  constructor
  · rintro ⟨name, hname, heq⟩
    cases habsolute : isAbsolute path with
    | true =>
      rw [join_of_isAbsolute habsolute] at heq
      exact .inr ⟨rfl, name, hname, heq⟩
    | false =>
      rw [join_eq habsolute, join_eq (not_isAbsolute_of_not_mem hname.slash),
        String.append_right_inj] at heq
      exact .inl (heq ▸ hname)
  · rintro (hname | ⟨habsolute, hchild⟩)
    · exact ⟨path, hname, rfl⟩
    · rwa [join_of_isAbsolute habsolute]

end PatternTable.Path
