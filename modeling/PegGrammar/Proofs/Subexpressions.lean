import PegGrammar.Grammar.Basic

/-!
# The parts of an expression

`Expr.preorder` lists an expression with everything inside it, each expression before what is
inside of it and elements from left to right. Conditions on an expression "at any depth" are
conditions on the members of the list, and "the first" of several is the first in the list.

What can be wrong with an expression is looked for by a recursion (`Expr.violation?`). It finds the
first defect on the list, where a defect is something wrong with an expression itself and not with
a part of it.

## Main results

* `Expr.elementInduction` — induction on expressions without a second statement for lists
* `Expr.violation?_eq_findSome?`, `violationAny?_eq_findSome?` — the first thing wrong is the
  first defect in reading order
-/

namespace PegGrammar.Expr

mutual

/-- The expression and everything inside it, in reading order. -/
def preorder : Expr → List Expr
  | .terminal t => [.terminal t]
  | .sequence es => .sequence es :: preorderAll es
  | .choice es => .choice es :: preorderAll es
  | .repeated e bounds => .repeated e bounds :: preorder e
  | .rule id => [.rule id]

/-- The expressions and everything inside them, in reading order. -/
def preorderAll : List Expr → List Expr
  | [] => []
  | e :: es => preorder e ++ preorderAll es

end

theorem preorderAll_eq_flatMap (es : List Expr) : preorderAll es = es.flatMap preorder := by
  induction es with
  | nil => rfl
  | cons e es ih => rw [preorderAll, ih, List.flatMap_cons]

/-- An expression is among its own parts. -/
theorem self_mem_preorder (e : Expr) : e ∈ e.preorder := by
  cases e <;> simp [preorder]

/-- The parts of an element are parts of the sequence. Properties of all parts of an expression are
handed down to its parts by this and the two lemmas that follow. -/
theorem preorder_subset_sequence {e : Expr} {es : List Expr} (h : e ∈ es) :
    e.preorder ⊆ (sequence es).preorder := by
  intro part hpart
  rw [preorder, preorderAll_eq_flatMap]
  exact List.mem_cons_of_mem _ (List.mem_flatMap.mpr ⟨e, h, hpart⟩)

theorem preorder_subset_choice {e : Expr} {es : List Expr} (h : e ∈ es) :
    e.preorder ⊆ (choice es).preorder := by
  intro part hpart
  rw [preorder, preorderAll_eq_flatMap]
  exact List.mem_cons_of_mem _ (List.mem_flatMap.mpr ⟨e, h, hpart⟩)

theorem preorder_subset_repeated (e : Expr) (bounds : Bounds) :
    e.preorder ⊆ (repeated e bounds).preorder := by
  intro part hpart
  rw [preorder]
  exact List.mem_cons_of_mem _ hpart

/-! ### Induction

The recursions on expressions go through lists of them. For a statement that is about single
expressions only, the hypothesis is here the statement for every element. -/

/-- Induction on expressions, with the hypothesis for every element of a list. -/
@[elab_as_elim]
theorem elementInduction {motive : Expr → Prop} (terminal : ∀ t, motive (.terminal t))
    (sequence : ∀ es, (∀ e ∈ es, motive e) → motive (.sequence es))
    (choice : ∀ es, (∀ e ∈ es, motive e) → motive (.choice es))
    (repeated : ∀ e bounds, motive e → motive (.repeated e bounds))
    (rule : ∀ id, motive (.rule id)) (e : Expr) : motive e :=
  @Expr.rec motive (fun es => ∀ e ∈ es, motive e) terminal sequence choice repeated rule nofun
    (fun _ _ he hes => List.forall_mem_cons.mpr ⟨he, hes⟩) e

/-! ### Defects -/

/-- What is wrong with an expression of the rule `owner` itself, in a table of `size` rules. -/
def defect? (size : Nat) (owner : String) : Expr → Option GrammarError
  | .rule id => if id.index < size then none else some (.unknownRule id)
  | .sequence [] => some (.emptyCombinator owner .sequence)
  | .choice [] => some (.emptyCombinator owner .choice)
  | .terminal _ | .repeated _ _ | .sequence (_ :: _) | .choice (_ :: _) => none

theorem defect?_eq_none_iff {size : Nat} {owner : String} {e : Expr} :
    e.defect? size owner = none ↔
      (∀ id, e = .rule id → id.index < size) ∧ e ≠ .sequence [] ∧ e ≠ .choice [] := by
  match e with
  | .terminal _ | .repeated _ _ | .sequence (_ :: _) | .choice (_ :: _) => simp [defect?]
  | .sequence [] | .choice [] => simp [defect?]
  | .rule id => simp [defect?]

mutual

/-- Checking an expression is looking for the first defect among its parts, in reading order. The
check is defined by recursion over the expression, and this equation turns it into a search through
a list. -/
theorem violation?_eq_findSome? (size : Nat) (owner : String) :
    ∀ e : Expr, e.violation? size owner = e.preorder.findSome? (defect? size owner)
  | .terminal _ => rfl
  | .rule id => by
    rw [violation?, preorder, List.findSome?_singleton]
    rfl
  | .repeated e bounds => by
    rw [violation?, preorder, List.findSome?_cons, violation?_eq_findSome? size owner e]
    rfl
  | .sequence [] => rfl
  | .choice [] => rfl
  | .sequence (e :: es) => by
    rw [violation?, preorder, List.findSome?_cons, violation?_eq_findSome? size owner e,
      violationAny?_eq_findSome? size owner es, preorderAll, List.findSome?_append]
    rfl
  | .choice (e :: es) => by
    rw [violation?, preorder, List.findSome?_cons, violation?_eq_findSome? size owner e,
      violationAny?_eq_findSome? size owner es, preorderAll, List.findSome?_append]
    rfl

theorem violationAny?_eq_findSome? (size : Nat) (owner : String) :
    ∀ es : List Expr, violationAny? size owner es = (preorderAll es).findSome? (defect? size owner)
  | [] => rfl
  | e :: es => by
    rw [violationAny?, preorderAll, List.findSome?_append, violation?_eq_findSome? size owner e,
      violationAny?_eq_findSome? size owner es]

end

end PegGrammar.Expr
