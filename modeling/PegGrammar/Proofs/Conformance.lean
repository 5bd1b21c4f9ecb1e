import Mathlib.Data.List.Forall2
import PegGrammar.Expr.Combinators
import PegGrammar.Proofs.Cover
import PegGrammar.Proofs.EntryPoints

/-!
# The tree mirrors the grammar

A node knows its label and its children, but not the expression that it is a match of. `Conforms`
says when it can be a match of an expression: the label is the one of the expression, the children
conform to the parts of it, and a leaf cuts out a text that the terminal accepts. The nodes that
matching yields conform, and so do the syntax trees made of them.

The relation says nothing about where the children stand; that they stand side by side is another
fact about the same nodes (`PegGrammar.Proofs.Tiling`).

## What is carried through a repetition

The rounds still to come do not know how many there have been, and the bounds are on the number of
all of them. `RoundsConform` is therefore stated after a number of rounds, and says of the nodes to
come that together with the earlier ones they meet the bounds.

## Main definitions

* `Terminal.Spells` — the texts of a terminal
* `Conforms` — a node can be a match of an expression
* `Node.shape` — a tree without its lexemes

## Main results

* `Runs.conforms` — the node of a match conforms to the expression
* `Node.shape_withLexemes` — attaching lexemes changes nothing else
* `attempt_conforms` — the tree mirrors the grammar
-/

namespace PegGrammar

open Engine

variable {α : Type}

/-! ### The relation -/

/-- The part of the text that the span cuts out is a text of the terminal. The end of the text is
the empty text, and only at the end. -/
def Terminal.Spells (text : List Char) (span : Span) : Terminal → List Char → Prop
  | .literal s, part => part = s.toList
  | .charSet set, part => ∃ x ∈ set.chars, part = [x]
  | .charRange first last, part => ∃ x, first ≤ x ∧ x ≤ last ∧ part = [x]
  | .any, part => ∃ x, part = [x]
  | .endOfInput, part => part = [] ∧ span.stop.toNat = Text.byteLength text

/-- The node can be a match of the expression in the text. -/
inductive Conforms (g : Grammar) (text : List Char) : Expr → Node α → Prop
  /-- A terminal is a leaf that cuts out a text of the terminal. -/
  | terminal {t : Terminal} {span : Span} {lexeme : α} {part : List Char} :
    span.slice text = .ok part → t.Spells text span part →
    Conforms g text (.terminal t) (.leaf t.label span lexeme)
  /-- A sequence has a child for each element. -/
  | sequence {es : List Expr} {span : Span} {children : List (Node α)} :
    children.length = es.length →
    (∀ (i : Nat) (e : Expr) (child : Node α), es[i]? = some e → children[i]? = some child →
      Conforms g text e child) →
    Conforms g text (.sequence es) (.branch .sequence span children)
  /-- A choice has a child for one of its alternatives. -/
  | choice {es : List Expr} {e : Expr} {span : Span} {child : Node α} :
    e ∈ es → Conforms g text e child →
    Conforms g text (.choice es) (.branch .choice span [child])
  /-- A repetition has a child for each round, as many as the bounds allow, and only the last may
  have matched nothing. -/
  | repeated {e : Expr} {bounds : Bounds} {span : Span} {children : List (Node α)} :
    bounds.min ≤ children.length →
    (∀ max, bounds.max? = some max → children.length ≤ max) →
    (∀ child ∈ children, Conforms g text e child) →
    (∀ (i : Nat) (child : Node α), children[i]? = some child → i + 1 < children.length →
      child.span.isEmpty = false) →
    Conforms g text (.repeated e bounds) (.branch (.repeated bounds) span children)
  /-- A rule has a child for one of its alternatives, and its name for a label. -/
  | rule {id : RuleId} {r : Rule} {e : Expr} {span : Span} {child : Node α} :
    g.rule? id = some r → e ∈ r.alternatives → Conforms g text e child →
    Conforms g text (.rule id) (.branch (.rule r.name) span [child])

/-! ### Terminals -/

section Terminals

variable {text : List Char} {c d : Cursor}

/-- What stands between two cursors that are one character apart is that character. -/
theorem Cursor.exists_of_next? {p : Char → Bool} (h : c.next? p = some d) {part : List Char}
    (hpart : c.rest = part ++ d.rest) : ∃ x, p x = true ∧ part = [x] := by
  obtain ⟨x, hrest, hp, _⟩ := Cursor.next?_eq_some_iff.mp h
  refine ⟨x, hp, List.append_cancel_right (hpart.symm.trans hrest)⟩

/-- What a terminal accepts is a text of it. -/
theorem Terminal.spells_of_accept? (hlen : Text.byteLength text ≤ maxInputLength)
    (hc : (Cursor.start text).Reaches c) {t : Terminal} (h : t.accept? c = some d)
    {part : List Char} (hpart : c.rest = part ++ d.rest) :
    t.Spells text (Span.of c.offset d.offset) part := by
  cases t with
  | literal s =>
    obtain ⟨hrest, _⟩ := Cursor.skip?_eq_some_iff.mp h
    exact List.append_cancel_right (hpart.symm.trans hrest)
  | charSet set =>
    obtain ⟨x, hx, rfl⟩ := Cursor.exists_of_next? h hpart
    exact ⟨x, by simpa [CharSet.contains] using hx, rfl⟩
  | charRange first last =>
    obtain ⟨x, hx, rfl⟩ := Cursor.exists_of_next? h hpart
    have hbetween : first ≤ x ∧ x ≤ last := by simpa using hx
    exact ⟨x, hbetween.1, hbetween.2, rfl⟩
  | any =>
    obtain ⟨x, _, rfl⟩ := Cursor.exists_of_next? h hpart
    exact ⟨x, rfl⟩
  | endOfInput =>
    simp only [Terminal.accept?, List.isEmpty_iff, Option.ite_none_right_eq_some,
      Option.some.injEq] at h
    obtain ⟨hrest, rfl⟩ := h
    rw [hrest, List.append_nil] at hpart
    refine ⟨hpart.symm, ?_⟩
    rw [(Span.toNat_of hlen hc (.refl c)).2]
    exact (Cursor.rest_eq_nil_iff hc).mp hrest

end Terminals

/-! ### Repetitions -/

/-- The nodes are those of the rounds of a repetition after `count` of them. -/
structure RoundsConform (g : Grammar) (text : List Char) (e : Expr) (bounds : Bounds)
    (count : Nat) (children : List (Node α)) : Prop where
  /-- There are enough rounds. -/
  min_le : bounds.min ≤ count + children.length
  /-- There are not too many, unless there were before. -/
  le_max : ∀ max, bounds.max? = some max → count ≤ max → count + children.length ≤ max
  /-- Each round is a match of the operand. -/
  conforms : ∀ child ∈ children, Conforms g text e child
  /-- Only the last round may match nothing. -/
  nonempty : ∀ (i : Nat) (child : Node α), children[i]? = some child → i + 1 < children.length →
    child.span.isEmpty = false

namespace Bounds

variable {bounds : Bounds} {count : Nat}

theorem min_le_of_allowsMore_eq_false (h : bounds.allowsMore count = false) :
    bounds.min ≤ count := by
  cases bounds with
  | zeroToOne => exact Nat.zero_le count
  | zeroToMany => exact Nat.zero_le count
  | oneToMany => cases h

theorem lt_of_allowsMore {max : Nat} (h : bounds.allowsMore count = true)
    (hmax : bounds.max? = some max) : count < max := by
  rw [allowsMore, hmax] at h
  simpa using h

theorem min_le_one (bounds : Bounds) : bounds.min ≤ 1 := by
  cases bounds <;> decide

end Bounds

namespace RoundsConform

variable {g : Grammar} {text : List Char} {e : Expr} {bounds : Bounds} {count : Nat}
  {child : Node α} {children : List (Node α)}

/-- A repetition may end without a further round as soon as it has had enough of them. -/
theorem nil (hmin : bounds.min ≤ count) :
    RoundsConform g text e bounds count ([] : List (Node α)) where
  min_le := hmin
  le_max _ _ hcount := hcount
  conforms _ hchild := absurd hchild List.not_mem_nil
  nonempty _ _ hchild _ := by simp at hchild

/-- A last round, of which nothing is asked but that it matches the operand. -/
theorem singleton (hb : bounds.allowsMore count = true) (h : Conforms g text e child) :
    RoundsConform g text e bounds count [child] where
  min_le := bounds.min_le_one.trans (Nat.le_add_left 1 count)
  le_max _ hmax _ := Bounds.lt_of_allowsMore hb hmax
  conforms := List.forall_mem_singleton.mpr h
  nonempty i _ _ hi := absurd hi (Nat.not_lt.mpr (Nat.le_add_left 1 i))

/-- A further round in front. Since it is not the last, it must have matched something, and since
the bounds allowed it, the maximum is not exceeded. -/
theorem cons (hb : bounds.allowsMore count = true) (h : Conforms g text e child)
    (hspan : child.span.isEmpty = false) (hs : RoundsConform g text e bounds (count + 1) children) :
    RoundsConform g text e bounds count (child :: children) where
  min_le := by
    have := hs.min_le
    rw [List.length_cons]
    omega
  le_max max hmax _ := by
    have := hs.le_max max hmax (Bounds.lt_of_allowsMore hb hmax)
    rw [List.length_cons]
    omega
  conforms := List.forall_mem_cons.mpr ⟨h, hs.conforms⟩
  nonempty i other hother hi := by
    cases i with
    | zero =>
      obtain rfl : child = other := by simpa using hother
      exact hspan
    | succ i =>
      rw [List.getElem?_cons_succ] at hother
      exact hs.nonempty i other hother (Nat.lt_of_succ_lt_succ hi)

end RoundsConform

/-- A match that consumes some of the text has a span that is not empty. -/
theorem Covers.isEmpty_eq_false {P : Node α → Cursor → Cursor → Prop} {text : List Char}
    (hlen : Text.byteLength text ≤ maxInputLength) {n : Node α} {c d : Cursor}
    (h : Covers P n c d) (hc : (Cursor.start text).Reaches c)
    (hlt : d.rest.length < c.rest.length) : n.span.isEmpty = false := by
  obtain ⟨hstart, hstop⟩ := Span.toNat_of hlen hc h.reaches
  have hoff : c.offset < d.offset := h.reaches.length_lt_iff.mp hlt
  rw [h.span_eq, Span.isEmpty, beq_eq_false_iff_ne]
  intro heq
  rw [heq] at hstart
  omega

/-! ### The nodes of a match -/

namespace Engine

variable {g : Grammar} {text : List Char}

theorem conforms_sequence_of_forall₂ {es : List Expr} {span : Span} {children : List (Node α)}
    (h : List.Forall₂ (Conforms g text) es children) :
    Conforms g text (.sequence es) (.branch .sequence span children) := by
  obtain ⟨hlength, hget⟩ := List.forall₂_iff_get.mp h
  refine .sequence hlength.symm fun i e child he hchild => ?_
  obtain ⟨hi, rfl⟩ := List.getElem?_eq_some_iff.mp he
  obtain ⟨hi', rfl⟩ := List.getElem?_eq_some_iff.mp hchild
  exact hget i hi hi'

mutual

/-- **The node of a match conforms to the expression.** -/
theorem Runs.conforms (hlen : Text.byteLength text ≤ maxInputLength) {n : Nat} {e : Expr}
    {c : Cursor} {steps : List Step} {o : Outcome (Node Unit)} :
    Runs g n e c steps o → (Cursor.start text).Reaches c →
      o.OnMatch fun node _ => Conforms g text e node
  | .accepted h ho, hc => by
    subst ho
    have hreach := Terminal.reaches_of_accept? h
    obtain ⟨part, hslice, hpart⟩ := Span.exists_slice_of hlen hc hreach
    exact .terminal hslice (Terminal.spells_of_accept? hlen hc h hpart)
  | .rejected _, _ => trivial
  | @Runs.sequence _ _ _ _ _ parts _ h ho, hc => by
    subst ho
    have hparts := h.conforms hlen hc
    cases parts with
    | failed offset => trivial
    | matched children stop => exact conforms_sequence_of_forall₂ hparts
  | @Runs.choice _ _ _ _ _ part _ h ho, hc => by
    subst ho
    have hpart := h.conforms hlen hc
    cases part with
    | failed offset => trivial
    | matched child stop =>
      obtain ⟨e, he, hchild⟩ := hpart
      exact .choice he hchild
  | @Runs.repeated _ _ _ _ _ _ parts _ h ho, hc => by
    subst ho
    have hparts := h.conforms hlen hc
    cases parts with
    | failed offset => trivial
    | matched children stop =>
      have hmin := hparts.min_le
      have hmax := fun max hmax => hparts.le_max max hmax (Nat.zero_le max)
      rw [Nat.zero_add] at hmin hmax
      exact .repeated hmin hmax hparts.conforms hparts.nonempty
  | @Runs.rule _ _ _ _ _ _ part _ hr h ho, hc => by
    subst ho
    have hpart := h.conforms hlen hc
    cases part with
    | failed offset => trivial
    | matched child stop =>
      obtain ⟨e, he, hchild⟩ := hpart
      exact .rule hr he hchild

theorem RunsEach.conforms (hlen : Text.byteLength text ≤ maxInputLength) {n : Nat}
    {es : List Expr} {c : Cursor} {steps : List Step} {o : Outcome (List (Node Unit))} :
    RunsEach g n es c steps o → (Cursor.start text).Reaches c →
      o.OnMatch fun nodes _ => List.Forall₂ (Conforms g text) es nodes
  | .nil, _ => .nil
  | @RunsEach.cons _ _ _ _ _ _ _ _ _ others h hs, hc => by
    have hnode := h.conforms hlen hc
    have hothers := hs.conforms hlen (hc.trans h.inReach)
    cases others with
    | failed offset => trivial
    | matched nodes stop => exact .cons hnode hothers
  | .stuck _, _ => trivial

theorem RunsFirst.conforms (hlen : Text.byteLength text ≤ maxInputLength) {n : Nat}
    {es : List Expr} {c : Cursor} {furthest : Nat} {steps : List Step}
    {o : Outcome (Node Unit)} :
    RunsFirst g n es c furthest steps o → (Cursor.start text).Reaches c →
      o.OnMatch fun node _ => ∃ e ∈ es, Conforms g text e node
  | .nil, _ => trivial
  | .hit h, hc => ⟨_, List.mem_cons_self, h.conforms hlen hc⟩
  | @RunsFirst.miss _ _ _ _ _ _ _ _ _ o _ hs, hc => by
    have hrest := hs.conforms hlen hc
    cases o with
    | failed offset => trivial
    | matched node stop =>
      obtain ⟨e, he, hnode⟩ := hrest
      exact ⟨e, List.mem_cons_of_mem _ he, hnode⟩

theorem RunsMany.conforms (hlen : Text.byteLength text ≤ maxInputLength) {n : Nat} {e : Expr}
    {bounds : Bounds} {count : Nat} {c : Cursor} {steps : List Step}
    {o : Outcome (List (Node Unit))} :
    RunsMany g n e bounds count c steps o → (Cursor.start text).Reaches c →
      o.OnMatch fun nodes _ => RoundsConform g text e bounds count nodes
  | .full hb, _ => .nil (Bounds.min_le_of_allowsMore_eq_false hb)
  | .enough _ _ hmin, _ => .nil hmin
  | .tooFew _ _ _, _ => trivial
  | .idle hb h _, hc => .singleton hb (h.conforms hlen hc)
  | @RunsMany.again _ _ _ _ _ _ _ _ _ _ others hb h hlt hm, hc => by
    have hnode := h.conforms hlen hc
    have hothers := hm.conforms hlen (hc.trans h.inReach)
    cases others with
    | failed offset => trivial
    | matched nodes stop => exact .cons hb hnode (h.covers.isEmpty_eq_false hlen hc hlt) hothers

end

end Engine

/-! ### Syntax trees -/

namespace Node

mutual

/-- The tree without its lexemes. -/
def shape : Node α → Node Unit
  | .leaf label span _ => .leaf label span ()
  | .branch label span children => .branch label span (shapeAll children)

/-- The trees without their lexemes. -/
def shapeAll : List (Node α) → List (Node Unit)
  | [] => []
  | n :: ns => shape n :: shapeAll ns

end

theorem shapeAll_eq_map (ns : List (Node α)) : shapeAll ns = ns.map shape := by
  induction ns with
  | nil => rfl
  | cons n ns ih => rw [shapeAll, ih, List.map_cons]

@[simp] theorem span_shape (n : Node α) : n.shape.span = n.span := by
  cases n <;> rfl

mutual

/-- **Attaching lexemes changes nothing else.** -/
theorem shape_withLexemes {text : List Char} : ∀ {n : Node Unit} {t : Node String},
    n.withLexemes text = .ok t → t.shape = n
  | .leaf label span lexeme, t, h => by
    cases hslice : span.slice text with
    | error fault => rw [withLexemes, hslice] at h; cases h
    | ok part =>
      cases (withLexemes_leaf hslice label).symm.trans h
      rfl
  | .branch label span children, t, h => by
    cases hall : withLexemesAll text children with
    | error fault => rw [withLexemes, hall] at h; cases h
    | ok lexed =>
      cases (withLexemes_branch hall label span).symm.trans h
      rw [shape, shapeAll_withLexemesAll hall]

/-- The trees of a list keep their shapes, one by one. -/
theorem shapeAll_withLexemesAll {text : List Char} :
    ∀ {ns : List (Node Unit)} {ts : List (Node String)},
      withLexemesAll text ns = .ok ts → shapeAll ts = ns
  | [], ts, h => by cases h; rfl
  | n :: ns, ts, h => by
    cases hn : n.withLexemes text with
    | error fault => rw [withLexemesAll, hn] at h; cases h
    | ok t =>
      cases hns : withLexemesAll text ns with
      | error fault => rw [withLexemesAll, hn, hns] at h; cases h
      | ok rest =>
        cases (withLexemesAll_cons hn hns).symm.trans h
        rw [shapeAll, shape_withLexemes hn, shapeAll_withLexemesAll hns]

end

/-- A tree whose shape is a branch is a branch with the same label and span, which is all that the
clauses of `Conforms` look at in a node itself. -/
theorem exists_eq_branch_of_shape_eq {t : Node α} {label : Label} {span : Span}
    {children : List (Node Unit)} (h : t.shape = .branch label span children) :
    ∃ others, t = .branch label span others ∧ children = others.map shape := by
  cases t with
  | leaf => cases h
  | branch label' span' others =>
    simp only [shape, shapeAll_eq_map, Node.branch.injEq] at h
    obtain ⟨rfl, rfl, rfl⟩ := h
    exact ⟨others, rfl, rfl⟩

end Node

/-- A tree conforms if its shape does. -/
theorem Conforms.of_shape {g : Grammar} {text : List Char} {e : Expr} {n : Node Unit}
    (h : Conforms g text e n) : ∀ {t : Node α}, t.shape = n → Conforms g text e t := by
  induction h with
  | terminal hslice hspells =>
    intro t ht
    cases t with
    | leaf label span lexeme => cases ht; exact .terminal hslice hspells
    | branch => cases ht
  | sequence hlength _ ih =>
    intro t ht
    obtain ⟨others, rfl, rfl⟩ := Node.exists_eq_branch_of_shape_eq ht
    rw [List.length_map] at hlength
    refine .sequence hlength fun i e other he hother => ?_
    exact ih i e other.shape he (by rw [List.getElem?_map, hother, Option.map_some]) rfl
  | choice he _ ih =>
    intro t ht
    obtain ⟨others, rfl, hothers⟩ := Node.exists_eq_branch_of_shape_eq ht
    obtain ⟨other, rfl, hother⟩ := List.map_eq_singleton_iff.mp hothers.symm
    exact .choice he (ih hother)
  | repeated hmin hmax _ hspan ih =>
    intro t ht
    obtain ⟨others, rfl, rfl⟩ := Node.exists_eq_branch_of_shape_eq ht
    simp only [List.length_map] at hmin hmax hspan
    refine .repeated hmin hmax ?_ ?_
    · intro other hother
      exact ih other.shape (List.mem_map_of_mem hother) rfl
    · intro i other hi hlt
      have hempty := hspan i other.shape (by rw [List.getElem?_map, hi, Option.map_some]) hlt
      rwa [Node.span_shape] at hempty
  | rule hr he _ ih =>
    intro t ht
    obtain ⟨others, rfl, hothers⟩ := Node.exists_eq_branch_of_shape_eq ht
    obtain ⟨other, rfl, hother⟩ := List.map_eq_singleton_iff.mp hothers.symm
    exact .rule hr he (ih hother)

/-- **The tree mirrors the grammar.** If matching a rule at a position of a text, in either mode,
returns a match, then its node conforms to the rule. The node can be made into a syntax tree, which
is the node with a lexeme at each leaf and conforms to the rule as well. -/
theorem attempt_conforms {g : Grammar} {id : RuleId} {text : String} {i : Nat} {mode : MatchMode}
    {node : Node Unit} {stop : Cursor}
    (h : g.attempt id text i mode = .ok (.matched node stop)) :
    Conforms g text.toList (.rule id) node ∧
      ∃ tree, SyntaxTree.ofMatch node text.toList = .ok tree ∧ tree.root.shape = node ∧
        Conforms g text.toList (.rule id) tree.root := by
  obtain ⟨hlen, c, n, steps, hc, hrun⟩ := Grammar.exists_runs_of_attempt h
  obtain ⟨hreach, _⟩ := Cursor.at?_eq_some_iff.mp hc
  have hnode : Conforms g text.toList (.rule id) node := hrun.conforms hlen hreach
  obtain ⟨root, hroot, _⟩ := hrun.covers.exists_withLexemes hlen hreach
  have hshape : root.shape = node := Node.shape_withLexemes hroot
  refine ⟨hnode, ⟨root⟩, ?_, hshape, hnode.of_shape hshape⟩
  rw [SyntaxTree.ofMatch, hroot]
  rfl

/-- Pairs up to the end of the text, each of a letter and a digit that may be missing. -/
def pairs : Grammar where
  rules := #[
    ⟨"pairs", [.sequence [.repeated (.choice [.rule ⟨1⟩, .literal ""]) .zeroToMany,
      .terminal .endOfInput]], nofun⟩,
    ⟨"pair", [.sequence [.terminal .any, .repeated (.terminal (.charRange '0' '9')) .zeroToOne]],
      nofun⟩]
  start := ⟨0⟩
  valid := rfl

/-- The match of a single pair. At the end of the text the choice matches once more, with nothing,
and that round is the last. -/
def singlePair : Node Unit :=
  .branch (.rule "pairs") (.of 0 3) [.branch .sequence (.of 0 3) [
    .branch (.repeated .zeroToMany) (.of 0 3) [
      .branch .choice (.of 0 3) [.branch (.rule "pair") (.of 0 3) [.branch .sequence (.of 0 3) [
        .leaf .any (.of 0 2) (),
        .branch (.repeated .zeroToOne) (.of 2 3) [.leaf .charRange (.of 2 3) ()]]]],
      .branch .choice (.of 3 3) [.leaf .literal (.of 3 3) ()]],
    .leaf .endOfInput (.of 3 3) ()]]

theorem singlePair_conforms :
    pairs.attempt ⟨0⟩ "é1" 0 .syntactic = .ok (.matched singlePair ⟨3, []⟩) ∧
    Conforms pairs "é1".toList (.rule ⟨0⟩) singlePair ∧
    ∃ tree, SyntaxTree.ofMatch singlePair "é1".toList = .ok tree ∧ tree.root.shape = singlePair ∧
      Conforms pairs "é1".toList (.rule ⟨0⟩) tree.root := by
  have hattempt : pairs.attempt ⟨0⟩ "é1" 0 .syntactic = .ok (.matched singlePair ⟨3, []⟩) := by
    decide +kernel
  exact ⟨hattempt, attempt_conforms hattempt⟩

end PegGrammar
