import Mathlib
import PatternTable.AccessPath
import PatternTable.Text.Pieces

/-!
# Reading the expression of a path

The expression of an array is a definition with accesses to members (`.patterns!`) and to elements
or groups (`[2]`). It can be read back, because an identifier holds none of the characters that
start an access.

Results:
* `read_renderWith`: the expression of a path reads as the root of the path with one access for each
  of its steps.
-/

namespace PatternTable

theorem Field.name_injective : Function.Injective Field.name := by
  intro field other h
  revert h
  cases field <;> cases other <;> decide

theorem toString_injective : Function.Injective (toString : Nat → String) :=
  fun _ _ => Nat.repr_inj.1

/-- A step in the evaluation of an expression. -/
inductive Access where
  | member (name : String)
  /-- A position of an array, or the number of a group. -/
  | number (number : Nat)
  deriving DecidableEq, Repr

namespace AccessPath

/-- The accesses for the steps that are left after `passed`. -/
def accessesFrom (position : AccessPath → Nat → Nat) (root : String) (passed : List Step) :
    List Step → List Access
  | [] => []
  | step :: steps =>
    (match step with
      | .field field => .member field.name
      | .index index => .number (position ⟨root, passed⟩ index)
      | .group number => .number number) :: accessesFrom position root (passed ++ [step]) steps

/-- The accesses for the steps of a path, when the element of an array with a source index stands at
    the given position. -/
def accesses (position : AccessPath → Nat → Nat) (path : AccessPath) : List Access :=
  accessesFrom position path.root [] path.steps

theorem accessesFrom_append (position : AccessPath → Nat → Nat) (root : String)
    (passed steps more : List Step) : accessesFrom position root passed (steps ++ more) =
      accessesFrom position root passed steps ++
        accessesFrom position root (passed ++ steps) more := by
  induction steps generalizing passed with
  | nil => rw [List.nil_append, List.append_nil]; rfl
  | cons step steps ih =>
    simp only [List.cons_append, accessesFrom, ih, List.append_assoc, List.nil_append]

theorem accesses_extend (position : AccessPath → Nat → Nat) (path : AccessPath) (step : Step) :
    (path.extend step).accesses position = path.accesses position ++
      [match step with
      | .field field => .member field.name
      | .index index => .number (position path index)
      | .group number => .number number] := by
  rw [accesses, extend, accessesFrom_append]
  rfl

end AccessPath

/-! ## Reading -/

/-- Where the reader of an expression is. -/
inductive Reading where
  /-- After the root or after an access. -/
  | between
  /-- Inside the name of a member, of which some characters have been read. -/
  | name (read : List Char)
  /-- Inside a number, with the value of the digits that have been read. -/
  | number (value : Nat)

namespace Access

/-- Reads the accesses of an expression. -/
def readFrom : Reading → List Char → Option (List Access)
  | .between, [] => some []
  | .between, c :: cs =>
    if c = '.' then readFrom (.name []) cs
    else if c = '[' then readFrom (.number 0) cs
    else none
  | .name _, [] => none
  | .name read, c :: cs =>
    if c = '!' then (readFrom .between cs).map (.member (String.ofList read) :: ·)
    else readFrom (.name (read ++ [c])) cs
  | .number _, [] => none
  | .number value, c :: cs =>
    if c = ']' then (readFrom .between cs).map (.number value :: ·)
    else if c.isDigit then readFrom (.number (10 * value + (c.toNat - '0'.toNat))) cs
    else none

/-- Whether an access starts at a character. -/
def starts (c : Char) : Bool :=
  c == '.' || c == '['

/-- The definition that an expression starts with. -/
def root (expression : String) : String :=
  String.ofList (expression.toList.takeWhile fun c => !starts c)

/-- The accesses of an expression, if it is well formed. -/
def read? (expression : String) : Option (List Access) :=
  readFrom .between (expression.toList.dropWhile fun c => !starts c)

theorem readFrom_name {name : List Char} (h : '!' ∉ name) (read rest : List Char) :
    readFrom (.name read) (name ++ '!' :: rest) =
      (readFrom .between rest).map (.member (String.ofList (read ++ name)) :: ·) := by
  induction name generalizing read with
  | nil => simp [readFrom]
  | cons c name ih =>
    rw [List.mem_cons, not_or] at h
    rw [List.cons_append, readFrom, if_neg (Ne.symm h.1), ih h.2, List.append_assoc]
    rfl

theorem readFrom_number {digits : List Char} (h : ∀ c ∈ digits, c.isDigit) (value : Nat)
    (rest : List Char) : readFrom (.number value) (digits ++ ']' :: rest) =
      (readFrom .between rest).map (.number (Nat.ofDigitChars 10 digits value) :: ·) := by
  induction digits generalizing value with
  | nil => simp [readFrom]
  | cons c digits ih =>
    rw [List.forall_mem_cons] at h
    have hne : c ≠ ']' := by
      rintro rfl
      exact absurd h.1 (by decide)
    rw [List.cons_append, readFrom, if_neg hne, if_pos h.1, ih h.2, Nat.ofDigitChars_cons]

/-- A number in brackets reads as its value. -/
theorem readFrom_brackets (number : Nat) (rest : List Char) :
    readFrom .between ('[' :: ((toString number).toList ++ ']' :: rest)) =
      (readFrom .between rest).map (.number number :: ·) := by
  have hdigits : ∀ c ∈ Nat.toDigits 10 number, c.isDigit := fun c hc =>
    Nat.isDigit_of_mem_toDigits (by decide) (by decide) hc
  rw [Nat.toString_eq_ofList_toDigits, String.toList_ofList, readFrom, if_neg (by decide),
    if_pos rfl, readFrom_number hdigits, Nat.ofDigitChars_ten_toDigits]

theorem readFrom_field (field : Field) (rest : List Char) :
    readFrom .between ('.' :: (field.name.toList ++ '!' :: rest)) =
      (readFrom .between rest).map (.member field.name :: ·) := by
  have hname : '!' ∉ field.name.toList := by cases field <;> decide
  rw [readFrom, if_pos rfl, readFrom_name hname, List.nil_append, String.ofList_toList]

theorem readFrom_render (position : AccessPath → Nat → Nat) (root : String)
    (passed steps : List Step) :
    readFrom .between (AccessPath.renderFrom position root passed steps).toList =
      some (AccessPath.accessesFrom position root passed steps) := by
  induction steps generalizing passed with
  | nil => simp [AccessPath.renderFrom, AccessPath.accessesFrom, readFrom]
  | cons step steps ih =>
    cases step with
    | field field =>
      have htext : (AccessPath.renderFrom position root passed (.field field :: steps)).toList =
          '.' :: (field.name.toList ++ '!' ::
            (AccessPath.renderFrom position root (passed ++ [.field field]) steps).toList) := by
        simp [AccessPath.renderFrom]
      rw [htext, readFrom_field, ih]
      rfl
    | index index =>
      have htext : (AccessPath.renderFrom position root passed (.index index :: steps)).toList =
          '[' :: ((toString (position ⟨root, passed⟩ index)).toList ++ ']' ::
            (AccessPath.renderFrom position root (passed ++ [.index index]) steps).toList) := by
        simp [AccessPath.renderFrom]
      rw [htext, readFrom_brackets, ih]
      rfl
    | group number =>
      have htext : (AccessPath.renderFrom position root passed (.group number :: steps)).toList =
          '[' :: ((toString number).toList ++ ']' ::
            (AccessPath.renderFrom position root (passed ++ [.group number]) steps).toList) := by
        simp [AccessPath.renderFrom]
      rw [htext, readFrom_brackets, ih]
      rfl

/-- A name that no access starts in. -/
def IsRoot (name : String) : Prop :=
  ∀ c ∈ name.toList, starts c = false

/-- The text of some accesses is empty or starts with an access. -/
theorem span_render (position : AccessPath → Nat → Nat) (root : String) (passed steps : List Step) :
    let text := (AccessPath.renderFrom position root passed steps).toList
    text.takeWhile (fun c => !starts c) = [] ∧ text.dropWhile (fun c => !starts c) = text := by
  cases steps with
  | nil => exact ⟨rfl, rfl⟩
  | cons step steps =>
    cases step <;> simp [AccessPath.renderFrom, starts]

theorem root_renderWith {path : AccessPath} (h : IsRoot path.root)
    (position : AccessPath → Nat → Nat) : root (path.renderWith position) = path.root := by
  have hspan := (span_render position path.root [] path.steps).1
  rw [root, AccessPath.renderWith, String.toList_append,
    List.takeWhile_append_of_pos (by simpa [IsRoot] using h), hspan, List.append_nil,
    String.ofList_toList]

theorem read_renderWith {path : AccessPath} (h : IsRoot path.root)
    (position : AccessPath → Nat → Nat) :
    read? (path.renderWith position) = some (path.accesses position) := by
  have hspan := (span_render position path.root [] path.steps).2
  rw [read?, AccessPath.renderWith, String.toList_append,
    List.dropWhile_append_of_pos (by simpa [IsRoot] using h), hspan, readFrom_render]
  rfl

/-! ## Identifiers -/

theorem isRoot_of_isAlphanum {name : String} (h : ∀ c ∈ name.toList, c.isAlphanum) :
    IsRoot name := by
  intro c hmem
  have hc := h c hmem
  rw [starts, Bool.or_eq_false_iff, beq_eq_false_iff_ne, beq_eq_false_iff_ne]
  constructor <;> rintro rfl <;> exact absurd hc (by decide)

end Access

end PatternTable
