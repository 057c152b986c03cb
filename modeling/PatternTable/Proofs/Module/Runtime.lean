import PatternTable.Link.Statement
import PatternTable.Proofs.Lists
import PatternTable.Proofs.Module.Access

/-!
# Modules at run time

A module at run time is an object whose members are its definitions. A statement evaluates the
expression of its target, which has to lead to an array, and adds its references to the array.

* `Value.follow`, `Value.replace` evaluate an expression and assign to it.
* `PatchStatement.execute`, `PatchStatement.run` execute statements.

Results:
* `Value.Focus`: what an expression evaluates to, and what assigning to it does.
* `PatchStatement.run_merge`: adjacent pushes made one do the same as on their own.
-/

namespace PatternTable

/-- A value of a module. -/
inductive Value where
  /-- What a reference, token type or regex literal evaluates to. -/
  | expression (text : String)
  | text (content : String)
  /-- An array. It carries the path of the array that it was made from, and keeps it when elements
      are added. -/
  | array (source : AccessPath) (elements : List Value)
  | object (members : List (String × Value))

namespace Value

/-! ## Evaluation and assignment -/

/-- The members of an object after an assignment to one that it has. -/
def setMember? (name : String) (part : Value) :
    List (String × Value) → Option (List (String × Value))
  | [] => none
  | (key, value) :: members =>
    if key = name then some ((key, part) :: members)
    else (setMember? name part members).map ((key, value) :: ·)

/-- What an access to a value evaluates to. The groups of a capture field are members that numbers
    name. -/
def get? : Value → Access → Option Value
  | object members, .member name => members.lookup name
  | object members, .number number => members.lookup (toString number)
  | array _ elements, .number number => elements[number]?
  | _, _ => none

/-- A value after an assignment through an access. -/
def put? : Value → Access → Value → Option Value
  | object members, .member name, part => (setMember? name part members).map object
  | object members, .number number, part =>
    (setMember? (toString number) part members).map object
  | array source elements, .number number, part =>
    if number < elements.length then some (array source (elements.set number part)) else none
  | _, _, _ => none

/-- What an expression evaluates to, from the value that its first access is to. -/
def follow : Value → List Access → Option Value
  | whole, [] => some whole
  | whole, access :: accesses => (whole.get? access).bind fun inner => inner.follow accesses

/-- A value after an assignment to an expression. -/
def replace : Value → List Access → Value → Option Value
  | _, [], part => some part
  | whole, access :: accesses, part =>
    (whole.get? access).bind fun inner =>
      (inner.replace accesses part).bind fun inner => whole.put? access inner

/-- An access leads to a part of a value, and an assignment there makes the values that `put`
    says. -/
structure Opens (access : Access) (whole part : Value) (put : Value → Value) : Prop where
  get : whole.get? access = some part
  put : ∀ value, whole.put? access value = some (put value)

/-- Some accesses lead to a part of a value, and an assignment there makes the values that `put`
    says. -/
structure Focus (accesses : List Access) (whole part : Value) (put : Value → Value) : Prop where
  follow : whole.follow accesses = some part
  replace : ∀ value, whole.replace accesses value = some (put value)

namespace Focus

variable {accesses more : List Access} {whole inner part : Value} {put putInner : Value → Value}

theorem nil (value : Value) : Focus [] value value id :=
  ⟨rfl, fun _ => rfl⟩

theorem cons {access : Access} (hopens : Opens access whole inner put)
    (h : Focus accesses inner part putInner) :
    Focus (access :: accesses) whole part (put ∘ putInner) := by
  refine ⟨?_, fun value => ?_⟩
  · rw [Value.follow, hopens.get, Option.bind_some, h.follow]
  · rw [Value.replace, hopens.get, Option.bind_some, h.replace, Option.bind_some, hopens.put]
    rfl

end Focus

/-! ## Members and elements -/

variable {members : List (String × Value)} {name : String} {part : Value}

theorem setMember?_append {before after : List (String × Value)} {value : Value}
    (h : name ∉ before.map Prod.fst) :
    setMember? name part (before ++ (name, value) :: after) =
      some (before ++ (name, part) :: after) := by
  induction before with
  | nil => simp [setMember?]
  | cons member before ih =>
    rw [List.map_cons, List.mem_cons, not_or] at h
    rw [List.cons_append, setMember?, if_neg (Ne.symm h.1), ih h.2]
    rfl

theorem lookup_append {before after : List (String × Value)} {value : Value}
    (h : name ∉ before.map Prod.fst) :
    (before ++ (name, value) :: after).lookup name = some value := by
  rw [List.lookup_append, List.lookup_cons_self,
    Option.or_eq_right_of_none (lookup_eq_none_iff_not_mem.2 h)]

/-- A member of an object that no member before it has the name of. -/
theorem opens_member {before after : List (String × Value)} (part : Value)
    (h : name ∉ before.map Prod.fst) :
    Opens (.member name) (object (before ++ (name, part) :: after)) part
      fun value => object (before ++ (name, value) :: after) :=
  ⟨lookup_append h, fun _ => congrArg (Option.map object) (setMember?_append h)⟩

/-- A group is the member that its number names. -/
theorem opens_group {members : List (String × Value)} {number : Nat} {put : Value → Value}
    (h : Opens (.member (toString number)) (object members) part put) :
    Opens (.number number) (object members) part put :=
  ⟨h.get, h.put⟩

/-- An object with one member for each of some things that have different names, after others. -/
theorem exists_opens_append_map {α : Type} (own : List (String × Value)) {list : List α}
    {name : α → String} (hnodup : (list.map name).Nodup) {a : α} (ha : a ∈ list)
    (hown : name a ∉ own.map Prod.fst) (value : α → Value) :
    ∃ put, Opens (.member (name a)) (object (own ++ list.map fun b => (name b, value b)))
        (value a) put ∧
      ∀ other : α → Value, (∀ b ∈ list, name b ≠ name a → value b = other b) →
        put (other a) = object (own ++ list.map fun b => (name b, other b)) := by
  obtain ⟨before, after, rfl⟩ := List.append_of_mem ha
  rw [List.map_append, List.map_cons, List.nodup_append] at hnodup
  obtain ⟨-, hafter, hbefore⟩ := hnodup
  have hbefore : ∀ b ∈ before, name b ≠ name a := fun b hb =>
    hbefore (name b) (List.mem_map_of_mem hb) (name a) List.mem_cons_self
  have hafter : ∀ b ∈ after, name b ≠ name a := by
    intro b hb heq
    exact (List.nodup_cons.1 hafter).1 (heq ▸ List.mem_map_of_mem hb)
  have hname : name a ∉ (own ++ before.map fun b => (name b, value b)).map Prod.fst := by
    rw [List.map_append, List.mem_append, not_or, List.map_map]
    refine ⟨hown, fun hmem => ?_⟩
    obtain ⟨b, hb, heq⟩ := List.mem_map.1 hmem
    exact hbefore b hb heq
  refine ⟨_, by
    rw [List.map_append, List.map_cons, ← List.append_assoc]
    exact opens_member (value a) hname, ?_⟩
  intro other hother
  have hsiblings (siblings : List α) (hsub : siblings ⊆ before ++ a :: after)
      (hne : ∀ b ∈ siblings, name b ≠ name a) :
      siblings.map (fun b => (name b, value b)) = siblings.map fun b => (name b, other b) :=
    List.map_congr_left fun b hb => by rw [hother b (hsub hb) (hne b hb)]
  rw [List.map_append, List.map_cons, hsiblings before (by simp) hbefore,
    hsiblings after (by simp) hafter, List.append_assoc]

/-- An object with one member for each of some things that have different names. -/
theorem exists_opens_map {α : Type} {list : List α} {name : α → String}
    (hnodup : (list.map name).Nodup) {a : α} (ha : a ∈ list) (value : α → Value) :
    ∃ put, Opens (.member (name a)) (object (list.map fun b => (name b, value b))) (value a) put ∧
      ∀ other : α → Value, (∀ b ∈ list, name b ≠ name a → value b = other b) →
        put (other a) = object (list.map fun b => (name b, other b)) :=
  exists_opens_append_map [] hnodup ha List.not_mem_nil value

theorem opens_element (source : AccessPath) {elements : List Value} {number : Nat}
    (h : elements[number]? = some part) :
    Opens (.number number) (array source elements) part
      fun value => array source (elements.set number value) := by
  refine ⟨h, fun value => ?_⟩
  rw [put?, if_pos (List.getElem?_eq_some_iff.1 h).1]

theorem exists_member {members : List (String × Value)} (h : members.lookup name = some part) :
    ∃ before after, members = before ++ (name, part) :: after ∧ name ∉ before.map Prod.fst := by
  obtain ⟨before, after, rfl, hbefore⟩ := List.lookup_eq_some_iff.1 h
  refine ⟨before, after, rfl, fun hmem => ?_⟩
  obtain ⟨member, hmember, rfl⟩ := List.mem_map.1 hmem
  simpa using hbefore member hmember

/-- Whatever an access leads to can be assigned to, and what is assigned is found there. -/
theorem exists_opens {access : Access} {whole : Value} (h : whole.get? access = some part) :
    ∃ put, Opens access whole part put ∧ ∀ value, Opens access (put value) value put := by
  unfold get? at h
  split at h
  · obtain ⟨before, after, rfl, hname⟩ := exists_member h
    exact ⟨_, opens_member part hname, fun value => opens_member value hname⟩
  · obtain ⟨before, after, rfl, hname⟩ := exists_member h
    exact ⟨_, opens_group (opens_member part hname),
      fun value => opens_group (opens_member value hname)⟩
  · next source elements number =>
    refine ⟨_, opens_element source h, fun value => ?_⟩
    have hlt := (List.getElem?_eq_some_iff.1 h).1
    have hvalue : (elements.set number value)[number]? = some value := by simp [hlt]
    simpa using opens_element source hvalue
  · simp at h

theorem exists_focus {accesses : List Access} {whole : Value}
    (h : whole.follow accesses = some part) :
    ∃ put, Focus accesses whole part put ∧ ∀ value, Focus accesses (put value) value put := by
  induction accesses generalizing whole with
  | nil =>
    rw [follow, Option.some.injEq] at h
    subst h
    exact ⟨id, .nil _, fun value => .nil value⟩
  | cons access accesses ih =>
    rw [follow, Option.bind_eq_some_iff] at h
    obtain ⟨inner, hget, hinner⟩ := h
    obtain ⟨put, hopens, hput⟩ := exists_opens hget
    obtain ⟨putInner, hfocus, hputInner⟩ := ih hinner
    exact ⟨put ∘ putInner, .cons hopens hfocus,
      fun value => .cons (hput (putInner value)) (hputInner value)⟩

end Value

/-! ## Statements -/

/-- The elements of an array after a statement has added some. A splice has to be before an element
    of the array. -/
def PatchKind.apply (kind : PatchKind) (added elements : List Value) : Option (List Value) :=
  match kind with
  | push => some (elements ++ added)
  | splice position =>
    if position < elements.length then
      some (elements.take position ++ added ++ elements.drop position)
    else none

/-- Where there are elements after the one that is added, it is spliced in before them. -/
theorem PatchKind.apply_append (before after : List Value) (added : Value) :
    PatchKind.apply
      (if before.length = (before ++ after).length then .push else .splice before.length) [added]
        (before ++ after) = some (before ++ added :: after) := by
  split
  · next hlength =>
    have hafter : after = [] := by simpa using hlength
    simp [apply, hafter]
  · next hlength =>
    have hlt : before.length < (before ++ after).length := by
      rw [List.length_append] at hlength ⊢
      omega
    rw [apply, if_pos hlt, List.take_left, List.drop_left, List.append_assoc]
    rfl

namespace PatchStatement

/-- The accesses from a module to the array of a statement. -/
def accesses? (statement : PatchStatement) : Option (List Access) :=
  (Access.read? statement.target).map (.member (Access.root statement.target) :: ·)

/-- The module after a statement, and the array that the target evaluated to. -/
def execute (statement : PatchStatement) (state : Value) : Option (AccessPath × Value) := do
  let accesses ← statement.accesses?
  match state.follow accesses with
  | some (.array source elements) =>
    let elements ← statement.kind.apply (statement.references.map .expression) elements
    let state ← state.replace accesses (.array source elements)
    return (source, state)
  | _ => none

/-- The module after some statements, and the references that they added, each with its array. -/
def run : List PatchStatement → Value → Option (List (AccessPath × String) × Value)
  | [], state => some ([], state)
  | statement :: statements, state => do
    let (source, state) ← statement.execute state
    let (added, state) ← run statements state
    return (statement.references.map (fun reference => (source, reference)) ++ added, state)

theorem execute_of_focus {statement : PatchStatement} {accesses : List Access}
    {state : Value} {source : AccessPath} {elements : List Value} {put : Value → Value}
    (haccesses : statement.accesses? = some accesses)
    (hfocus : Value.Focus accesses state (.array source elements) put) :
    statement.execute state =
      (statement.kind.apply (statement.references.map .expression) elements).map fun elements =>
        (source, put (.array source elements)) := by
  simp only [execute, haccesses, Option.bind_eq_bind, Option.bind_some, hfocus.follow,
    hfocus.replace]
  cases statement.kind.apply (statement.references.map .expression) elements <;> rfl

/-- A target that is not an expression cannot be evaluated. -/
theorem execute_of_unreadable {statement : PatchStatement} {state : Value}
    (h : statement.accesses? = none) : statement.execute state = none := by
  simp only [execute, h, Option.bind_eq_bind, Option.bind_none]

/-- A target that is not an array cannot be added to. -/
theorem execute_of_not_array {statement : PatchStatement} {accesses : List Access} {state : Value}
    (haccesses : statement.accesses? = some accesses)
    (h : ∀ source elements, state.follow accesses ≠ some (.array source elements)) :
    statement.execute state = none := by
  simp only [execute, haccesses, Option.bind_eq_bind, Option.bind_some]

theorem run_cons (statement : PatchStatement) (statements : List PatchStatement) (state : Value) :
    run (statement :: statements) state = (statement.execute state).bind fun (source, state) =>
      (run statements state).map fun (added, state) =>
        (statement.references.map (fun reference => (source, reference)) ++ added, state) := by
  rw [run]
  cases statement.execute state with
  | none => rfl
  | some result =>
    simp only [Option.bind_eq_bind, Option.bind_some]
    cases run statements result.2 <;> rfl

theorem run_append (statements others : List PatchStatement) (state : Value) :
    run (statements ++ others) state = (run statements state).bind fun (added, state) =>
      (run others state).map fun (more, state) => (added ++ more, state) := by
  induction statements generalizing state with
  | nil =>
    simp [run]
  | cons statement statements ih =>
    rw [List.cons_append, run_cons, run_cons]
    cases statement.execute state with
    | none => rfl
    | some result =>
      simp only [Option.bind_some, ih]
      cases run statements result.2 with
      | none => rfl
      | some rest =>
        simp only [Option.bind_some, Option.map_some]
        cases run others rest.2 with
        | none => rfl
        | some more => simp

/-- A push after a push onto the same array does what one push of both references does. -/
theorem run_push_push {target : String} {references others : List String}
    {statements : List PatchStatement} (state : Value) :
    run (⟨target, .push, references ++ others⟩ :: statements) state =
      run (⟨target, .push, references⟩ :: ⟨target, .push, others⟩ :: statements) state := by
  rw [run_cons, run_cons]
  have haccesses (references : List String) : accesses? ⟨target, .push, references⟩ =
      (Access.read? target).map (.member (Access.root target) :: ·) := rfl
  cases hread : (Access.read? target).map (.member (Access.root target) :: ·) with
  | none =>
    rw [hread] at haccesses
    rw [execute_of_unreadable (haccesses _), execute_of_unreadable (haccesses _)]
    rfl
  | some accesses =>
    rw [hread] at haccesses
    by_cases harray : ∃ source elements, state.follow accesses = some (.array source elements)
    · obtain ⟨source, elements, hfollow⟩ := harray
      obtain ⟨put, hfocus, hput⟩ := Value.exists_focus hfollow
      rw [execute_of_focus (haccesses _) hfocus, execute_of_focus (haccesses _) hfocus]
      simp only [PatchKind.apply, Option.map_some, Option.bind_some]
      rw [run_cons, execute_of_focus (haccesses _) (hput _)]
      simp only [PatchKind.apply, Option.map_some, Option.bind_some, List.map_append,
        List.append_assoc, Option.map_map]
      rfl
    · have hnot : ∀ source elements, state.follow accesses ≠ some (.array source elements) :=
        fun source elements heq => harray ⟨source, elements, heq⟩
      rw [execute_of_not_array (haccesses _) hnot, execute_of_not_array (haccesses _) hnot]
      rfl

theorem run_consMerged (statement : PatchStatement) (statements : List PatchStatement)
    (state : Value) : run (consMerged statement statements) state =
      run (statement :: statements) state := by
  cases statements with
  | nil => rfl
  | cons next rest =>
    rw [consMerged]
    split
    · next h =>
      rcases statement with ⟨target, kind, references⟩
      rcases next with ⟨other, nextKind, others⟩
      obtain ⟨rfl, rfl, rfl⟩ := h
      exact run_push_push state
    · rfl

theorem run_merge (statements : List PatchStatement) (state : Value) :
    run (merge statements) state = run statements state := by
  induction statements generalizing state with
  | nil => rfl
  | cons statement statements ih =>
    show run (consMerged statement (merge statements)) state = _
    rw [run_consMerged, run_cons, run_cons]
    simp only [ih]

end PatchStatement

end PatternTable
