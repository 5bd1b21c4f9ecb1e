import PegGrammar.Tree.Basic

/-!
# Walking a tree

A tree is walked in pre-order: a node, then its children from left to right. The walk keeps a
stack of the nodes still to visit, so that it can stop at any node and go on from there, and every
search in a tree is read off it.

## Main definitions

* `Walk`, `Walk.next?` — a walk that has been carried so far, and one step of it
* `Walk.toList` — the nodes visited when steps are taken until there is none
* `Node.descendants` — all nodes of a tree in pre-order
* `Node.leaves`, `Node.text`, `Node.findAll`, `Node.find?` — what is read off the walk
-/

namespace PegGrammar

variable {α : Type}

/-! ### The size of a tree -/

mutual

/-- The number of nodes of a tree. -/
def Node.size : Node α → Nat
  | .leaf _ _ _ => 1
  | .branch _ _ children => 1 + Node.sizeAll children

/-- The number of nodes of several trees. -/
def Node.sizeAll : List (Node α) → Nat
  | [] => 0
  | n :: ns => n.size + Node.sizeAll ns

end

theorem Node.sizeAll_append (ms ns : List (Node α)) :
    Node.sizeAll (ms ++ ns) = Node.sizeAll ms + Node.sizeAll ns := by
  induction ms with
  | nil => simp [Node.sizeAll]
  | cons m ms ih => simp [Node.sizeAll, ih, Nat.add_assoc]

theorem Node.size_eq_succ_sizeAll_children (n : Node α) :
    n.size = Node.sizeAll n.children + 1 := by
  cases n with
  | leaf => rfl
  | branch => simp [Node.size, Node.children, Nat.add_comm]

/-! ### The walk -/

/-- A walk through trees: a stack of the nodes still to visit. -/
structure Walk (α : Type) where
  /-- The nodes still to visit, the top of the stack first. Each stands for its whole subtree. -/
  stack : List (Node α)

namespace Walk

/-- The walk with one more node on top of its stack. -/
def push (w : Walk α) (n : Node α) : Walk α := ⟨n :: w.stack⟩

/-- One step: the node on top is taken off the stack and visited. Its children are put on the stack
from the last to the first, so that the first of them comes next. -/
def next? (w : Walk α) : Option (Node α × Walk α) :=
  match w.stack with
  | [] => none
  | n :: stack => some (n, n.children.reverse.foldl push ⟨stack⟩)

theorem foldl_push (ns : List (Node α)) (w : Walk α) :
    ns.foldl push w = ⟨ns.reverse ++ w.stack⟩ := by
  induction ns generalizing w with
  | nil => rfl
  | cons n ns ih => rw [List.foldl_cons, ih, push, List.reverse_cons, List.append_assoc]; rfl

@[simp] theorem next?_nil : next? (⟨[]⟩ : Walk α) = none := rfl

@[simp] theorem next?_cons (n : Node α) (stack : List (Node α)) :
    next? ⟨n :: stack⟩ = some (n, ⟨n.children ++ stack⟩) := by
  simp only [next?, foldl_push, List.reverse_reverse]

/-- A step takes one node off those still to visit, counting those below the stack's. -/
theorem sizeAll_stack_of_next? {w rest : Walk α} {n : Node α} (h : w.next? = some (n, rest)) :
    Node.sizeAll w.stack = Node.sizeAll rest.stack + 1 := by
  obtain ⟨_ | ⟨m, stack⟩⟩ := w
  · cases h
  · rw [next?_cons] at h
    cases h
    rw [Node.sizeAll, Node.sizeAll_append, n.size_eq_succ_sizeAll_children]
    omega

/-- Every node that the walk has still to visit, in order. -/
def toList (w : Walk α) : List (Node α) :=
  match _h : w.next? with
  | none => []
  | some (n, rest) => n :: toList rest
termination_by Node.sizeAll w.stack
decreasing_by
  rw [sizeAll_stack_of_next? _h]
  exact Nat.lt_succ_self _

@[simp] theorem toList_nil : toList (⟨[]⟩ : Walk α) = [] := by
  rw [toList]
  rfl

@[simp] theorem toList_cons (n : Node α) (stack : List (Node α)) :
    toList ⟨n :: stack⟩ = n :: toList ⟨n.children ++ stack⟩ := by
  rw [toList]
  split
  next h => simp at h
  next h =>
    rw [next?_cons] at h
    cases h
    rfl

/-- Induction along a walk: what holds where nothing is left to visit, and of a walk whenever it
holds a step later, holds of every walk. -/
@[elab_as_elim]
theorem stepInduction {motive : Walk α → Prop} (done : motive ⟨[]⟩)
    (visit : ∀ n stack, motive ⟨n.children ++ stack⟩ → motive ⟨n :: stack⟩) :
    ∀ w : Walk α, motive w
  | ⟨[]⟩ => done
  | ⟨n :: stack⟩ => visit n stack (stepInduction done visit ⟨n.children ++ stack⟩)
termination_by w => Node.sizeAll w.stack
decreasing_by
  rw [sizeAll_stack_of_next? (next?_cons n stack)]
  exact Nat.lt_succ_self _

end Walk

namespace Node

/-- The nodes of a tree in pre-order, beginning with the root. -/
def descendants (n : Node α) : List (Node α) := Walk.toList ⟨[n]⟩

/-- The leaves of a tree from left to right. -/
def leaves (n : Node α) : List (Node α) := n.descendants.filter isLeaf

/-- The text of a tree: its lexemes one after the other. -/
def text (n : Node String) : String := String.join (n.descendants.filterMap lexeme?)

/-- The nodes of the rules of that name, in pre-order. -/
def findAll (n : Node α) (name : String) : List (Node α) :=
  n.descendants.filter (·.label.ruleName? == some name)

/-- The first node, in pre-order, of a rule of that name. -/
def find? (n : Node α) (name : String) : Option (Node α) :=
  n.descendants.find? (·.label.ruleName? == some name)

end Node

/-- The text of a syntax tree. -/
def SyntaxTree.text (t : SyntaxTree) : String := t.root.text

end PegGrammar
