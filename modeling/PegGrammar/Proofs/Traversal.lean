import Mathlib.Data.List.Basic
import PegGrammar.Tree.Walk

/-!
# A walk is the pre-order of its tree

A tree is walked with a stack, one node at a time, and the children of a node are put on the stack
in reverse. What the steps amount to is said here without the stack: a walk ends, and the nodes
that it yields are those of the tree in pre-order. The leaves, the text and the searches are read
off the walk, so each of them is a recursion on the tree as well.

## Two descriptions of the order

`Node.preorder` is the recursion: a node, then what its children give, from left to right. It does
not say that every node is visited once. Nodes of a tree may be equal, and then a list of nodes
that has one of them twice looks like a list that has them both.

Their places are never equal. A place says which child to go to, level by level, and `Node.places`
has the place of every node, in lexicographic order and so without repetition. In that order a node
comes before what is below it and what is below a child before what is below the next one, so the
order of the places is the order of the walk.

## Main definitions

* `Walk.Yields` — what steps yield until there is none
* `Node.preorder` — the nodes of a tree in pre-order
* `Node.at?`, `Node.places` — the node at a place, and the places of a tree

## Main results

* `Walk.preorderAll_of_next?` — what a step does to the nodes still to visit
* `Walk.yields_iff` — what a walk yields, whatever its stack holds
* `walk_is_preorder` — the walk through a tree, and what is read off it
-/

namespace PegGrammar

variable {α : Type}

/-! ### Pre-order -/

namespace Node

mutual

/-- The nodes of a tree in pre-order: the node itself, then those of its children from left to
right. -/
def preorder : Node α → List (Node α)
  | .leaf label span lexeme => [.leaf label span lexeme]
  | .branch label span children => .branch label span children :: preorderAll children

/-- The nodes of several trees, tree by tree. -/
def preorderAll : List (Node α) → List (Node α)
  | [] => []
  | n :: ns => preorder n ++ preorderAll ns

end

theorem preorderAll_eq_flatMap (ns : List (Node α)) : preorderAll ns = ns.flatMap preorder := by
  induction ns with
  | nil => rfl
  | cons n ns ih => rw [preorderAll, ih, List.flatMap_cons]

theorem preorder_eq (n : Node α) : n.preorder = n :: preorderAll n.children := by
  cases n <;> rfl

theorem preorderAll_append (ms ns : List (Node α)) :
    preorderAll (ms ++ ns) = preorderAll ms ++ preorderAll ns := by
  simp only [preorderAll_eq_flatMap, List.flatMap_append]

theorem sizeOf_lt_of_mem_children {n child : Node α} (h : child ∈ n.children) :
    sizeOf child < sizeOf n := by
  cases n with
  | leaf => exact absurd h List.not_mem_nil
  | branch label span children =>
    have hlt := List.sizeOf_lt_of_mem h
    simp only [branch.sizeOf_spec, Node.children] at hlt ⊢
    omega

/-- Induction on trees without a second statement for lists. -/
@[elab_as_elim]
theorem childInduction {motive : Node α → Prop}
    (node : ∀ n, (∀ child ∈ n.children, motive child) → motive n) (n : Node α) : motive n :=
  node n fun child _hchild => childInduction node child
termination_by sizeOf n
decreasing_by exact sizeOf_lt_of_mem_children _hchild

end Node

/-! ### The walk -/

namespace Walk

variable {w rest : Walk α} {n : Node α} {ns : List (Node α)}

/-- Steps from `w` on yield these nodes, one after the other, and then there is no further step. -/
inductive Yields : Walk α → List (Node α) → Prop
  /-- There is no step. -/
  | done {w : Walk α} : w.next? = none → Yields w []
  /-- A step visits a node, and the walk goes on from there. -/
  | step {w rest : Walk α} {n : Node α} {ns : List (Node α)} :
    w.next? = some (n, rest) → Yields rest ns → Yields w (n :: ns)

theorem next?_eq_none_iff : w.next? = none ↔ w.stack = [] := by
  obtain ⟨_ | ⟨m, stack⟩⟩ := w <;> simp

/-- **A step.** The nodes still to visit are the one that the step visits, followed by those still
to visit after it. -/
theorem preorderAll_of_next? (h : w.next? = some (n, rest)) :
    Node.preorderAll w.stack = n :: Node.preorderAll rest.stack := by
  obtain ⟨_ | ⟨m, stack⟩⟩ := w
  · cases h
  · rw [next?_cons] at h
    cases h
    rw [Node.preorderAll, Node.preorder_eq, List.cons_append, Node.preorderAll_append]

theorem yields_preorderAll (w : Walk α) : w.Yields (Node.preorderAll w.stack) := by
  induction w using stepInduction with
  | done => exact .done rfl
  | visit n stack ih =>
    rw [preorderAll_of_next? (next?_cons n stack)]
    exact .step (next?_cons n stack) ih

theorem Yields.eq_preorderAll (h : w.Yields ns) : ns = Node.preorderAll w.stack := by
  induction h with
  | done hnone => rw [next?_eq_none_iff.mp hnone]; rfl
  | step hnext _ ih => rw [preorderAll_of_next? hnext, ih]

/-- **A whole walk.** It comes to an end, and has then yielded the nodes on its stack and below them
in pre-order. -/
theorem yields_iff : w.Yields ns ↔ ns = Node.preorderAll w.stack :=
  ⟨Yields.eq_preorderAll, fun h => h ▸ w.yields_preorderAll⟩

theorem yields_toList (w : Walk α) : w.Yields w.toList := by
  induction w using stepInduction with
  | done =>
    rw [toList_nil]
    exact .done rfl
  | visit n stack ih =>
    rw [toList_cons]
    exact .step (next?_cons n stack) ih

theorem toList_eq_preorderAll (w : Walk α) : w.toList = Node.preorderAll w.stack :=
  w.yields_toList.eq_preorderAll

end Walk

/-! ### What is read off the walk -/

namespace Node

theorem preorderAll_singleton (n : Node α) : preorderAll [n] = n.preorder := by
  rw [preorderAll, preorderAll, List.append_nil]

theorem descendants_eq_preorder (n : Node α) : n.descendants = n.preorder := by
  rw [descendants, Walk.toList_eq_preorderAll, preorderAll_singleton]

theorem descendants_eq (n : Node α) : n.descendants = n :: n.children.flatMap descendants := by
  have hwalk : (descendants : Node α → List (Node α)) = preorder := funext descendants_eq_preorder
  rw [hwalk, preorder_eq, preorderAll_eq_flatMap]

theorem leaves_leaf (label : Label) (span : Span) (lexeme : α) :
    (leaf label span lexeme).leaves = [leaf label span lexeme] := by
  rw [leaves, descendants_eq]
  rfl

theorem leaves_branch (label : Label) (span : Span) (children : List (Node α)) :
    (branch label span children).leaves = children.flatMap leaves := by
  rw [leaves, descendants_eq, List.filter_cons_of_neg Bool.false_ne_true, List.filter_flatMap]
  rfl

/-- The text of a leaf is its lexeme, so that the texts of all trees follow from `text_branch`. -/
theorem text_leaf (label : Label) (span : Span) (lexeme : String) :
    (leaf label span lexeme).text = lexeme := by
  rw [text, descendants_eq]
  simp [children, lexeme?, String.join_cons]

theorem text_branch (label : Label) (span : Span) (children : List (Node String)) :
    (branch label span children).text = String.join (children.map text) := by
  have hjoin : ∀ ns : List (Node String),
      String.join ((ns.flatMap descendants).filterMap lexeme?) = String.join (ns.map text) := by
    intro ns
    induction ns with
    | nil => rfl
    | cons n ns ih =>
      rw [List.flatMap_cons, List.filterMap_append, String.join_append, ih, List.map_cons,
        String.join_cons, text]
  rw [text, descendants_eq, List.filterMap_cons_none rfl]
  exact hjoin children

theorem findAll_eq (n : Node α) (name : String) :
    n.findAll name
      = (if n.label = .rule name then [n] else []) ++ n.children.flatMap (·.findAll name) := by
  have hnamed : (n.label.ruleName? == some name) = true ↔ n.label = .rule name := by
    cases n.label <;> simp [Label.ruleName?]
  rw [findAll, descendants_eq, List.filter_cons, List.filter_flatMap]
  simp only [hnamed]
  split <;> rfl

theorem find?_eq_head? (n : Node α) (name : String) : n.find? name = (n.findAll name).head? :=
  List.head?_filter.symm

/-! ### Places -/

/-- The node at a place. The place tells which child to go to, beginning at the root. -/
def at? (n : Node α) : List Nat → Option (Node α)
  | [] => some n
  | i :: place => n.children[i]?.bind (·.at? place)

mutual

/-- The places of a tree: that of the root, then those in its children from left to right. -/
def places : Node α → List (List Nat)
  | .leaf _ _ _ => [[]]
  | .branch _ _ children => [] :: placesFrom 0 children

/-- The places in several trees, of which the first is the child of this number. -/
def placesFrom (i : Nat) : List (Node α) → List (List Nat)
  | [] => []
  | n :: ns => (places n).map (i :: ·) ++ placesFrom (i + 1) ns

end

theorem placesFrom_eq_flatMap (i : Nat) (ns : List (Node α)) :
    placesFrom i ns = (ns.zipIdx i).flatMap fun c => c.1.places.map (c.2 :: ·) := by
  induction ns generalizing i with
  | nil => rfl
  | cons n ns ih => rw [placesFrom, ih, List.zipIdx_cons, List.flatMap_cons]

theorem places_eq (n : Node α) :
    n.places = [] :: n.children.zipIdx.flatMap fun c => c.1.places.map (c.2 :: ·) := by
  rw [← placesFrom_eq_flatMap]
  cases n <;> rfl

/-- The places of a tree are those where it has a node. -/
theorem mem_places_iff {n : Node α} {place : List Nat} :
    place ∈ n.places ↔ (n.at? place).isSome = true := by
  induction n using childInduction generalizing place with
  | node n ih =>
    rw [places_eq]
    cases place with
    | nil => exact iff_of_true List.mem_cons_self rfl
    | cons i place =>
      have hbelow : i :: place ∈ (n.children.zipIdx.flatMap fun c => c.1.places.map (c.2 :: ·)) ↔
          ∃ child, n.children[i]? = some child ∧ place ∈ child.places := by
        simp [List.mem_zipIdx_iff_getElem?]
      rw [List.mem_cons, or_iff_right (List.cons_ne_nil i place), hbelow, at?]
      cases hchild : n.children[i]? with
      | none => simp
      | some child => simp [ih child (List.mem_of_getElem? hchild)]

/-- The nodes of a tree in pre-order are the nodes at its places. -/
theorem map_at?_places (n : Node α) : n.places.map n.at? = n.preorder.map some := by
  induction n using childInduction with
  | node n ih =>
    have hbelow : ∀ c ∈ n.children.zipIdx, (c.1.places.map (c.2 :: ·)).map n.at?
        = c.1.preorder.map some := by
      intro c hc
      have hchild := List.mem_zipIdx_iff_getElem?.mp hc
      have hat : n.at? ∘ (c.2 :: ·) = c.1.at? := by
        funext place
        rw [Function.comp_apply, at?, hchild, Option.bind_some]
      rw [List.map_map, hat, ih c.1 (List.mem_of_getElem? hchild)]
    rw [places_eq, List.map_cons, List.map_flatMap, List.flatMap_congr hbelow, preorder_eq,
      preorderAll_eq_flatMap, List.map_cons, List.map_flatMap]
    nth_rewrite 2 [← List.zipIdx_map_fst 0 n.children]
    rw [List.flatMap_map]
    rfl

/-- The places of a tree are in lexicographic order. -/
theorem pairwise_places (n : Node α) : n.places.Pairwise (· < ·) := by
  induction n using childInduction with
  | node n ih =>
    rw [places_eq, List.pairwise_cons, List.pairwise_flatMap]
    refine ⟨fun place hplace => ?_, fun c hc => ?_, ?_⟩
    · obtain ⟨c, -, hc⟩ := List.mem_flatMap.mp hplace
      obtain ⟨below, -, rfl⟩ := List.mem_map.mp hc
      exact List.nil_lt_cons _ _
    · have hchild := List.mem_of_getElem? (List.mem_zipIdx_iff_getElem?.mp hc)
      refine List.pairwise_map.mpr ((ih c.1 hchild).imp fun hlt => ?_)
      exact List.cons_lt_cons_iff.mpr (Or.inr ⟨rfl, hlt⟩)
    · have hnumbers : (n.children.zipIdx.map Prod.snd).Pairwise (· < ·) := by
        rw [List.zipIdx_map_snd]
        exact List.pairwise_lt_range'
      refine (List.pairwise_map.mp hnumbers).imp fun hlt place hplace place' hplace' => ?_
      obtain ⟨below, -, rfl⟩ := List.mem_map.mp hplace
      obtain ⟨below', -, rfl⟩ := List.mem_map.mp hplace'
      exact List.cons_lt_cons_iff.mpr (Or.inl hlt)

/-- What is below the first child comes before the second one. -/
example :
    (Node.branch .sequence (.of 0 3) [
      .branch .choice (.of 0 2) [.leaf .any (.of 0 1) (), .leaf .any (.of 1 2) ()],
      .leaf .any (.of 2 3) ()]).places = [[], [0], [0, 0], [0, 1], [1]] := rfl

end Node

/-- **A walk is the pre-order of its tree.** Steps from the root on come to an end, and what they
yield is the pre-order and nothing else. Each node is visited once, where "each" means the node at
each place of the tree, and the places are gone through in lexicographic order. What is read off
the walk goes by the tree: a leaf has itself and its lexeme, the leaves and the text of a branch are
those of its children, from left to right, and a search finds the node itself, if it is looked for,
and then what is found in its children. -/
theorem walk_is_preorder :
    (∀ n : Node String,
      (∀ visited, (Walk.mk [n]).Yields visited ↔ visited = n.preorder) ∧
      n.descendants = n.preorder ∧
      n.descendants.map some = n.places.map n.at? ∧
      (∀ place, place ∈ n.places ↔ (n.at? place).isSome = true) ∧
      n.places.Pairwise (· < ·) ∧
      ∀ name, n.find? name = (n.findAll name).head?) ∧
    (∀ (label : Label) (span : Span) (lexeme : String),
      (Node.leaf label span lexeme).leaves = [.leaf label span lexeme] ∧
      (Node.leaf label span lexeme).text = lexeme ∧
      ∀ name, (Node.leaf label span lexeme).findAll name
        = if label = .rule name then [.leaf label span lexeme] else []) ∧
    ∀ (label : Label) (span : Span) (children : List (Node String)),
      (Node.branch label span children).leaves = children.flatMap Node.leaves ∧
      (Node.branch label span children).text = String.join (children.map Node.text) ∧
      ∀ name, (Node.branch label span children).findAll name
        = (if label = .rule name then [.branch label span children] else [])
          ++ children.flatMap (·.findAll name) := by
  refine ⟨fun n => ⟨fun visited => ?_, n.descendants_eq_preorder, ?_, fun _ => Node.mem_places_iff,
    n.pairwise_places, n.find?_eq_head?⟩,
    fun label span lexeme => ⟨Node.leaves_leaf label span lexeme, Node.text_leaf label span lexeme,
      fun name => ?_⟩,
    fun label span children =>
    ⟨Node.leaves_branch label span children, Node.text_branch label span children,
      (Node.branch label span children).findAll_eq⟩⟩
  · rw [Walk.yields_iff, Node.preorderAll_singleton]
  · rw [n.descendants_eq_preorder, n.map_at?_places]
  · rw [(Node.leaf label span lexeme).findAll_eq, Node.label]
    exact List.append_nil _

end PegGrammar
