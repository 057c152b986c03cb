import Mathlib.Data.List.ReduceOption
import PatternTable.Tree

/-!
# The nodes of a tree

* `Node.nodes`: a node and the nodes inside it, in the order in which they are written.
* `Node.Holds`: a node is directly inside another one.

Results:
* `Node.nodes_array_reduceOption`, `Node.nodes_object`: the nodes of an array and of an object are
  the node itself and those of what it holds.
* `Node.mem_nodes_iff`: the nodes inside a node are those inside the nodes directly inside it.
* `Node.induction`: induction on what a node holds.
-/

namespace PatternTable

mutual

/-- A node and the nodes inside it, in the order in which they are written. -/
def Node.nodes : Node → List Node
  | .raw expression => [.raw expression]
  | .text content => [.text content]
  | .array elements => .array elements :: Node.elementNodes elements
  | .object items => .object items :: Node.itemNodes items

/-- The nodes of some elements. -/
def Node.elementNodes : List Node → List Node
  | [] => []
  | element :: elements => element.nodes ++ Node.elementNodes elements

/-- The nodes of some items. -/
def Node.itemNodes : List Item → List Node
  | [] => []
  | item :: items => item.nodes ++ Node.itemNodes items

/-- The nodes of the value of an item, if it has one. -/
def Item.nodes : Item → List Node
  | .member _ value _ => value.nodes
  | .comment _ => []
  | .blank => []

end

namespace Node

theorem elementNodes_eq (elements : List Node) :
    elementNodes elements = elements.flatMap nodes := by
  induction elements with
  | nil => rfl
  | cons element elements ih => rw [elementNodes, ih, List.flatMap_cons]

theorem itemNodes_eq (items : List Item) : itemNodes items = items.flatMap Item.nodes := by
  induction items with
  | nil => rfl
  | cons item items ih => rw [itemNodes, ih, List.flatMap_cons]

/-- The nodes of an array with the elements that there are. -/
theorem nodes_array_reduceOption (cells : List (Option Node)) :
    (array cells.reduceOption).nodes = array cells.reduceOption ::
      cells.flatMap fun cell => (cell.map nodes).getD [] := by
  rw [nodes, elementNodes_eq]
  refine congrArg _ ?_
  induction cells with
  | nil => rfl
  | cons cell cells ih =>
    cases cell with
    | none => rw [List.reduceOption_cons_of_none, ih]; rfl
    | some node =>
      rw [List.reduceOption_cons_of_some, List.flatMap_cons, List.flatMap_cons, ih]
      rfl

theorem nodes_object (items : List Item) :
    (object items).nodes = object items :: items.flatMap Item.nodes := by
  rw [nodes, itemNodes_eq]

end Node

theorem Item.nodes_plain (key : String) (value : Node) : (plain key value).nodes = value.nodes := by
  rw [plain, nodes]

/-! ## Nodes directly inside -/

/-- A node is directly inside another one: it is an element of an array, or the value of a member of
    an object. -/
inductive Node.Holds : Node → Node → Prop where
  | element {elements : List Node} {inner : Node} (h : inner ∈ elements) :
    Holds (.array elements) inner
  | value {items : List Item} {key : String} {inner : Node} {remark : Option String}
    (h : .member key inner remark ∈ items) : Holds (.object items) inner

namespace Node

theorem holds_array_iff {elements : List Node} {inner : Node} :
    (array elements).Holds inner ↔ inner ∈ elements := by
  refine ⟨fun hholds => ?_, .element⟩
  cases hholds with
  | element h => exact h

theorem holds_object_iff {items : List Item} {inner : Node} :
    (object items).Holds inner ↔ ∃ key remark, .member key inner remark ∈ items := by
  constructor
  · intro hholds
    cases hholds with
    | value h => exact ⟨_, _, h⟩
  · rintro ⟨key, remark, h⟩
    exact .value h

theorem Holds.sizeOf_lt {node inner : Node} (h : node.Holds inner) :
    sizeOf inner < sizeOf node := by
  cases h with
  | element h =>
    have := List.sizeOf_lt_of_mem h
    simp
    omega
  | value h =>
    have := List.sizeOf_lt_of_mem h
    simp at this ⊢
    omega

/-- What holds of a node if it holds of the nodes directly inside it holds of every node. -/
theorem induction {p : Node → Prop}
    (step : ∀ node, (∀ inner, node.Holds inner → p inner) → p node) (node : Node) : p node :=
  step node fun inner _h => induction step inner
termination_by sizeOf node
decreasing_by exact _h.sizeOf_lt

/-- The nodes inside a node are those inside the nodes directly inside it. -/
theorem mem_nodes_iff {node inner : Node} :
    inner ∈ node.nodes ↔ inner = node ∨ ∃ child, node.Holds child ∧ inner ∈ child.nodes := by
  cases node with
  | raw expression =>
    rw [nodes, List.mem_singleton, or_iff_left]
    rintro ⟨child, ⟨⟩, -⟩
  | text content =>
    rw [nodes, List.mem_singleton, or_iff_left]
    rintro ⟨child, ⟨⟩, -⟩
  | array elements =>
    rw [nodes, List.mem_cons, elementNodes_eq, List.mem_flatMap]
    simp only [holds_array_iff]
  | object items =>
    rw [nodes, List.mem_cons, itemNodes_eq, List.mem_flatMap]
    constructor
    · rintro (h | ⟨item, hitem, hmem⟩)
      · exact .inl h
      · cases item with
        | member key value remark => exact .inr ⟨value, .value hitem, hmem⟩
        | comment words => cases hmem
        | blank => cases hmem
    · rintro (h | ⟨child, hholds, hmem⟩)
      · exact .inl h
      · cases hholds with
        | value h => exact .inr ⟨_, h, hmem⟩

theorem mem_nodes_self (node : Node) : node ∈ node.nodes :=
  mem_nodes_iff.2 (.inl rfl)

end Node

end PatternTable
