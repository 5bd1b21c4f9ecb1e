import Mathlib.Logic.Relation
import PegGrammar.Expr.Combinators
import PegGrammar.Proofs.Safety
import PegGrammar.Tree.Walk

/-!
# Syntax trees tile the text

The tree of a successful parse loses nothing. Every node has the span of the attempt that yielded
it, recorded exactly; its text, read off the leaves below it, is the text that its span cuts out;
and the spans of the children of a branch stand side by side from one end of the branch to the
other. If the parse had to take the whole text, the text of the tree is the text itself.

All of this is read off `Covers`. The text of a node is defined by a walk with a stack, and a
stack of nodes that cover some text together goes on covering it when the first node is replaced
by its children, so the walk is followed as it is and never compared with a recursion on the tree.

## Main definitions

* `Node.Contains` — the nodes of a tree
* `Consecutive` — spans that stand side by side
* `Node.Faithful` — what holds of each node of a syntax tree

## Main results

* `Node.mem_descendants_iff` — a walk visits the nodes of the tree and no others
* `CoversAll.rest_eq` — the lexemes on a walk are the text that the stack covers
* `parseWith_tree_tiles` — syntax trees tile the text
-/

namespace PegGrammar

open Engine Relation

variable {α : Type}

/-! ### The nodes of a tree -/

/-- `m` is a node of the tree `n`: `n` itself, or a child of a node of it. -/
def Node.Contains (n m : Node α) : Prop := ReflTransGen (fun a b => b ∈ a.children) n m

theorem Node.contains_iff {n m : Node α} :
    n.Contains m ↔ m = n ∨ ∃ child ∈ n.children, child.Contains m := by
  rw [Node.Contains, ReflTransGen.cases_head_iff, eq_comm]
  rfl

theorem Walk.mem_toList_iff {w : Walk α} {m : Node α} :
    m ∈ w.toList ↔ ∃ n ∈ w.stack, n.Contains m := by
  induction w using Walk.stepInduction with
  | done => simp
  | visit n stack ih =>
    rw [toList_cons, List.mem_cons, ih, List.exists_mem_cons_iff, Node.contains_iff, or_assoc]
    simp only [List.mem_append, or_and_right, exists_or]

theorem Node.mem_descendants_iff {n m : Node α} : m ∈ n.descendants ↔ n.Contains m := by
  rw [Node.descendants, Walk.mem_toList_iff]
  simp only [List.mem_singleton, exists_eq_left]

section Covers

variable {P : Node α → Cursor → Cursor → Prop} {n m : Node α} {ns : List (Node α)} {c d : Cursor}

theorem CoversAll.exists_covers_of_mem (h : CoversAll P ns c d) (hm : m ∈ ns) :
    ∃ c' d', c.Reaches c' ∧ Covers P m c' d' := by
  induction ns generalizing c with
  | nil => exact absurd hm List.not_mem_nil
  | cons n ns ih =>
    obtain _ | ⟨hn, hns⟩ := h
    rcases List.mem_cons.mp hm with rfl | hm
    · exact ⟨c, _, .refl c, hn⟩
    · obtain ⟨c', d', hreach, hcovers⟩ := ih hns hm
      exact ⟨c', d', hn.reaches.trans hreach, hcovers⟩

theorem Covers.exists_covers_of_contains (h : Covers P n c d) (hm : n.Contains m) :
    ∃ c' d', c.Reaches c' ∧ Covers P m c' d' := by
  induction hm with
  | refl => exact ⟨c, d, .refl c, h⟩
  | tail _ hchild ih =>
    obtain ⟨c', d', hreach, hcovers⟩ := ih
    cases hcovers with
    | leaf => exact absurd hchild List.not_mem_nil
    | branch hs _ =>
      obtain ⟨c'', d'', hreach', hcovers'⟩ := hs.exists_covers_of_mem hchild
      exact ⟨c'', d'', hreach.trans hreach', hcovers'⟩

/-! ### Spans side by side -/

/-- The spans of the nodes stand side by side from one offset to another: the first starts at the
one, each where the one before it stops, and the last stops at the other. -/
def Consecutive : UInt32 → List (Node α) → UInt32 → Prop
  | start, [], stop => start = stop
  | start, n :: ns, stop => n.span.start = start ∧ Consecutive n.span.stop ns stop

theorem CoversAll.consecutive (h : CoversAll P ns c d) :
    Consecutive (saturate c.offset) ns (saturate d.offset) := by
  induction ns generalizing c with
  | nil => cases h; rfl
  | cons n ns ih =>
    obtain _ | ⟨hn, hns⟩ := h
    rw [Consecutive, hn.span_eq]
    exact ⟨rfl, ih hns⟩

end Covers

/-! ### The text of a tree -/

section Text

variable {text : List Char} {P : Node Unit → Cursor → Cursor → Prop} {c d : Cursor}

/-- The lexeme of a leaf is the text of its span. -/
theorem Lexed.slice_span {n : Node String} (h : Lexed text P n c d) {lexeme : String}
    (hlexeme : n.lexeme? = some lexeme) : n.span.slice text = .ok lexeme.toList := by
  obtain ⟨raw, hraw, _⟩ := h
  cases raw with
  | leaf label span _ =>
    cases hslice : span.slice text with
    | error fault => rw [Node.withLexemes, hslice] at hraw; cases hraw
    | ok part =>
      cases (Node.withLexemes_leaf hslice label).symm.trans hraw
      cases hlexeme
      rw [String.toList_ofList]
      exact hslice
  | branch label span children =>
    cases hall : Node.withLexemesAll text children with
    | error fault => rw [Node.withLexemes, hall] at hraw; cases hraw
    | ok lexed =>
      cases (Node.withLexemes_branch hall label span).symm.trans hraw
      cases hlexeme

/-- The lexemes that a walk comes across are the text that its stack covers. -/
theorem CoversAll.rest_eq (hlen : Text.byteLength text ≤ maxInputLength)
    {w : Walk String} (hc : (Cursor.start text).Reaches c)
    (h : CoversAll (Lexed text P) w.stack c d) :
    c.rest = (w.toList.filterMap Node.lexeme?).flatMap String.toList ++ d.rest := by
  induction w using Walk.stepInduction generalizing c with
  | done => cases h; rw [Walk.toList_nil]; rfl
  | visit n stack ih =>
    obtain _ | ⟨hn, hstack⟩ := h
    rw [Walk.toList_cons]
    cases hn with
    | leaf hreach hlexed =>
      obtain ⟨part, hpart, hrest⟩ := Span.exists_slice_of hlen hc hreach
      have hlexeme := hlexed.slice_span rfl
      cases hpart.symm.trans hlexeme
      rw [hrest, ih (hc.trans hreach) hstack]
      simp [Node.lexeme?]
    | branch hs _ => exact ih hc (hs.append hstack)

theorem Covers.rest_eq (hlen : Text.byteLength text ≤ maxInputLength)
    (hc : (Cursor.start text).Reaches c) {n : Node String} (h : Covers (Lexed text P) n c d) :
    c.rest = n.text.toList ++ d.rest := by
  have hstack : CoversAll (Lexed text P) (Walk.mk [n]).stack c d := .cons h .nil
  rw [Node.text, String.toList_join]
  exact hstack.rest_eq hlen hc

end Text

/-! ### Syntax trees -/

/-- What holds of a node of the syntax tree of a text whose match went through these steps. -/
structure Node.Faithful (text : List Char) (steps : List Step) (n : Node String) : Prop where
  /-- The node was yielded by an attempt on record, and its span tells exactly where that attempt
  was made and where it stopped. -/
  exact_span : ∃ e c d raw, .settled e c (.matched raw d) ∈ steps ∧
    raw.withLexemes text = .ok n ∧ n.span.start.toNat = c.offset ∧ n.span.stop.toNat = d.offset
  /-- The two ends are in order. -/
  start_le_stop : n.span.start.toNat ≤ n.span.stop.toNat
  /-- The span lies within the text. -/
  stop_le : n.span.stop.toNat ≤ Text.byteLength text
  /-- The span starts at a position of the text. -/
  start_isBoundary : Text.isBoundary text n.span.start.toNat = true
  /-- The span stops at a position of the text. -/
  stop_isBoundary : Text.isBoundary text n.span.stop.toNat = true
  /-- The text of the node is the text of its span. -/
  slice_span : n.span.slice text = .ok n.text.toList
  /-- So is the lexeme of a leaf. -/
  slice_lexeme : ∀ lexeme, n.lexeme? = some lexeme → n.span.slice text = .ok lexeme.toList
  /-- The children of a branch stand side by side from one end of it to the other. -/
  consecutive : n.isLeaf = false → Consecutive n.span.start n.children n.span.stop

theorem Covers.faithful {text : List Char} (hlen : Text.byteLength text ≤ maxInputLength)
    {steps : List Step} {c d : Cursor} (hc : (Cursor.start text).Reaches c) {n : Node String}
    (h : Covers (Lexed text (Made steps)) n c d) : n.Faithful text steps := by
  have hd := hc.trans h.reaches
  obtain ⟨hstart, hstop⟩ := Span.toNat_of hlen hc h.reaches
  rw [← h.span_eq] at hstart hstop
  obtain ⟨part, hpart, hrest⟩ := Span.exists_slice_of hlen hc h.reaches
  have htext : part = n.text.toList :=
    List.append_cancel_right (hrest.symm.trans (h.rest_eq hlen hc))
  obtain ⟨raw, hraw, e, hmade⟩ := h.holds
  refine
    { exact_span := ⟨e, c, d, raw, hmade, hraw, hstart, hstop⟩
      start_le_stop := ?_
      stop_le := ?_
      start_isBoundary := ?_
      stop_isBoundary := ?_
      slice_span := ?_
      slice_lexeme := fun lexeme hlexeme => h.holds.slice_span hlexeme
      consecutive := ?_ }
  · rw [hstart, hstop]
    exact h.reaches.offset_le
  · rw [hstop]
    exact Cursor.offset_le_byteLength hd
  · rw [hstart]
    exact Cursor.isBoundary_offset hc
  · rw [hstop]
    exact Cursor.isBoundary_offset hd
  · rw [h.span_eq, hpart, htext]
  · intro hbranch
    cases h with
    | leaf => cases hbranch
    | branch hs _ => exact hs.consecutive

namespace Grammar

variable {σ : Type} {g : Grammar} {text : String} {config : ParseConfig}
  {handle : σ → Event → σ} {observer last : σ} {output : ParseOutput}

/-- The match behind a tree. -/
theorem exists_runs_of_parseWith
    (h : g.parseWith text config handle observer = .ok (.ok output, last)) :
    ∃ n steps raw stop,
      Runs g n (.rule g.start) (.start text.toList) steps (.matched raw stop) ∧
      Covers (Lexed text.toList (Made steps)) output.tree.root (.start text.toList) stop ∧
      (config.requireFullInput = true → stop.offset = Text.byteLength text.toList) := by
  have hlen := byteLength_le_of_parseWith h
  rcases runs_or_diverges (declares_start g) (.start text.toList) with
    ⟨n, steps, o, hrun⟩ | hdiv
  · rw [parseWith_eq hlen hrun] at h
    rcases conclude_cases hlen hrun config (finalMonitor config handle observer steps).stats with
      ⟨offset, p, rfl, hp⟩ | ⟨raw, stop, p, rfl, _, hp⟩ |
      ⟨raw, stop, root, rfl, hcovers, hfull, hp⟩
    · rw [hp] at h
      cases h
    · rw [hp] at h
      cases h
    · rw [hp] at h
      cases h
      exact ⟨n, steps, raw, stop, hrun, hcovers, hfull⟩
  · rw [parseWith_eq_error hlen hdiv] at h
    cases h

end Grammar

/-- **Syntax trees tile the text.** If a parse, as configured in any way and watched by any
observer, returns a tree, then a walk through the tree visits each of its nodes, each node is
faithful to the text and to the match behind the tree, and the tree starts where the text starts.
If the match had to take the whole text, the tree stops where the text stops, and its text is the
text. -/
theorem parseWith_tree_tiles {σ : Type} {g : Grammar} {text : String} {config : ParseConfig}
    {handle : σ → Event → σ} {observer last : σ} {output : ParseOutput}
    (h : g.parseWith text config handle observer = .ok (.ok output, last)) :
    ∃ n steps raw stop,
      Runs g n (.rule g.start) (.start text.toList) steps (.matched raw stop) ∧
      (∀ m, output.tree.root.Contains m →
        m ∈ output.tree.root.descendants ∧ m.Faithful text.toList steps) ∧
      output.tree.root.span.start.toNat = 0 ∧
      (config.requireFullInput = true →
        output.tree.root.span.stop.toNat = Text.byteLength text.toList ∧
          output.tree.text = text) := by
  have hlen := Grammar.byteLength_le_of_parseWith h
  have hstart := Cursor.Reaches.refl (.start text.toList)
  obtain ⟨n, steps, raw, stop, hrun, hcovers, hfull⟩ := Grammar.exists_runs_of_parseWith h
  obtain ⟨hfirst, hlast⟩ := Span.toNat_of hlen hstart hcovers.reaches
  rw [← hcovers.span_eq] at hfirst hlast
  refine ⟨n, steps, raw, stop, hrun, ?_, hfirst, ?_⟩
  · intro m hm
    obtain ⟨c, d, hc, hnode⟩ := hcovers.exists_covers_of_contains hm
    exact ⟨Node.mem_descendants_iff.mpr hm, hnode.faithful hlen (hstart.trans hc)⟩
  · intro hrequired
    have hend := hfull hrequired
    have hrest : stop.rest = [] := (Cursor.rest_eq_nil_iff hcovers.reaches).mpr hend
    refine ⟨hlast.trans hend, String.toList_injective ?_⟩
    have htext := hcovers.rest_eq hlen hstart
    rw [hrest, List.append_nil] at htext
    exact htext.symm

/-- Items up to the end of the text, with a mark behind them that may be missing. An item is
first tried as two letters and then as one. -/
def items : Grammar where
  rules := #[
    ⟨"items", [.sequence [.repeated (.rule ⟨1⟩) .zeroToMany,
      .repeated (.literal ";") .zeroToOne, .terminal .endOfInput]], nofun⟩,
    ⟨"item", [.literal "éé", .literal "é"], nofun⟩]
  start := ⟨0⟩
  valid := rfl

/-- The tree of a single item. The mark is a branch without children, and the end of the text is a
leaf without text. -/
def singleItem : SyntaxTree where
  root := .branch (.rule "items") (.of 0 2) [.branch .sequence (.of 0 2) [
    .branch (.repeated .zeroToMany) (.of 0 2) [
      .branch (.rule "item") (.of 0 2) [.leaf .literal (.of 0 2) "é"]],
    .branch (.repeated .zeroToOne) (.of 2 2) [],
    .leaf .endOfInput (.of 2 2) ""]]

theorem singleItem_tiles :
    items.parseWith "é" ⟨true, false⟩ (fun (_ : Unit) _ => ()) () = .ok (.ok ⟨singleItem, {}⟩, ()) ∧
    singleItem.text = "é" ∧
    ∃ steps, ∀ m, singleItem.root.Contains m → m.Faithful "é".toList steps := by
  have hparse : items.parseWith "é" ⟨true, false⟩ (fun (_ : Unit) _ => ()) ()
      = .ok (.ok ⟨singleItem, {}⟩, ()) := by decide +kernel
  obtain ⟨n, steps, raw, stop, hrun, hnodes, hfirst, hfull⟩ := parseWith_tree_tiles hparse
  exact ⟨hparse, (hfull rfl).2, steps, fun m hm => (hnodes m hm).2⟩

end PegGrammar
