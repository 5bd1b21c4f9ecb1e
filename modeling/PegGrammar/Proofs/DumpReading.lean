import PegGrammar.Proofs.QuotedReading
import PegGrammar.Proofs.Tiling
import PegGrammar.Tree.Dump

/-!
# A dump determines its tree

A dump is flat: it has one line for each node, and only the indentation says which line belongs
under which. Nothing is lost. Two trees of the shape that parsing gives them have the same dump
only if they are the same, whatever their spans and lexemes are, and a lexeme that looks like lines
of a dump is no exception, because a quoted text has no line break in it.

## How a dump is read

From the top, one line at a time. The line of a node tells everything about it but its children
(`Node.headline_append_inj`). The children are the lines that follow, as far as they are indented
further: the dump of a list of nodes ends where a line has fewer blanks in front, or the text ends.
`Outdented` is that condition on what follows the list. It passes from a list to the children of
its first node, because a line of the list itself has exactly the blanks of the list in front, and
no label begins with a blank.

## Main definitions

* `Node.Shaped` — labels where parsing puts them, with words for the names of rules
* `Node.dumpText` — the lines of a dump as one list of characters

## Main results

* `Node.headline_append_inj` — reading a line
* `Node.dumpTextAll_append_inj` — reading the lines of a list of nodes
* `dump_determines_tree` — trees with the same dump are the same
-/

namespace PegGrammar

variable {r s : List Char}

/-! ### Labels -/

namespace Label

/-- Whether the label is that of a terminal. -/
def isTerminal : Label → Bool
  | .literal | .charSet | .charRange | .any | .endOfInput => true
  | .rule _ | .sequence | .choice | .repeated _ => false

/-- If the label is that of a rule, the name is a word. -/
def Worded (label : Label) : Prop := ∀ name, label = .rule name → IsWord name

/-- The labels without a name in them. -/
def nameless : List Label :=
  [.sequence, .choice, .repeated .zeroToOne, .repeated .zeroToMany, .repeated .oneToMany,
    .literal, .charSet, .charRange, .any, .endOfInput]

theorem mem_nameless_or_eq_rule (label : Label) :
    label ∈ nameless ∨ ∃ name, label = .rule name := by
  cases label with
  | rule name => exact Or.inr ⟨name, rfl⟩
  | repeated bounds => cases bounds <;> simp [nameless]
  | sequence | choice | literal | charSet | charRange | any | endOfInput => simp [nameless]

/-- The label of a combination without a name can be told from a word. -/
theorem text_ne_of_isWord {label : Label} {name : String} (hmem : label ∈ nameless)
    (hterminal : label.isTerminal = false) (hname : IsWord name) : label.text ≠ name := by
  have hopen : ∀ l ∈ nameless, l.isTerminal = false → '<' ∈ l.text.toList := by decide
  rintro rfl
  exact hname.ne_of_mem (hopen label hmem hterminal) (by decide) rfl

/-- Among the labels of terminals, and among the others, the text tells which it is. -/
theorem eq_of_text_eq {k l : Label} (hk : k.Worded) (hl : l.Worded)
    (hterminal : k.isTerminal = l.isTerminal) (h : k.text = l.text) : k = l := by
  have hnameless : ∀ k ∈ nameless, ∀ l ∈ nameless, k.text = l.text → k = l := by decide
  rcases mem_nameless_or_eq_rule k with hk' | ⟨name, rfl⟩ <;>
    rcases mem_nameless_or_eq_rule l with hl' | ⟨name', rfl⟩
  · exact hnameless k hk' l hl' h
  · exact absurd h (text_ne_of_isWord hk' hterminal (hl name' rfl))
  · exact absurd h.symm (text_ne_of_isWord hl' hterminal.symm (hk name rfl))
  · exact congrArg Label.rule h

theorem ne_of_mem_text {label : Label} (hlabel : label.Worded) {c : Char}
    (hc : c ∈ label.text.toList) : c ≠ '@' ∧ c ≠ ' ' := by
  have hnameless : ∀ l ∈ nameless, l.text.toList.all (fun c => c != '@' && c != ' ') = true := by
    decide
  rcases mem_nameless_or_eq_rule label with hmem | ⟨name, rfl⟩
  · simpa using List.all_eq_true.mp (hnameless label hmem) c hc
  · exact ⟨(hlabel name rfl).ne_of_mem hc (by decide), (hlabel name rfl).ne_of_mem hc (by decide)⟩

theorem text_ne_empty {label : Label} (hlabel : label.Worded) : label.text ≠ "" := by
  have hnameless : ∀ l ∈ nameless, l.text ≠ "" := by decide
  rcases mem_nameless_or_eq_rule label with hmem | ⟨name, rfl⟩
  · exact hnameless label hmem
  · exact (hlabel name rfl).ne_empty

end Label

/-! ### Lines -/

/-- **Reading a span** in front of something that is no digit. -/
theorem Span.text_append_inj {x y : Span}
    (hr : StopsAt Char.isDigit r) (hs : StopsAt Char.isDigit s)
    (h : x.text.toList ++ r = y.text.toList ++ s) : x = y ∧ r = s := by
  have hdots : ∀ rest, StopsAt Char.isDigit ('.' :: '.' :: rest) := fun _ => stopsAt_cons.mpr rfl
  have htext : ∀ (z : Span) (rest : List Char), z.text.toList ++ rest
      = (toString z.start.toNat).toList
        ++ ('.' :: '.' :: ((toString z.stop.toNat).toList ++ rest)) := by
    intro z rest
    simp [Span.text]
  rw [htext, htext] at h
  obtain ⟨hstart, hrest⟩ := toString_append_inj (hdots _) (hdots _) h
  simp only [List.cons.injEq, true_and] at hrest
  obtain ⟨hstop, hend⟩ := toString_append_inj hr hs hrest
  obtain ⟨start, stop⟩ := x
  obtain ⟨start', stop'⟩ := y
  exact ⟨congrArg₂ Span.mk (UInt32.toNat_inj.mp hstart) (UInt32.toNat_inj.mp hstop), hend⟩

namespace Node

variable {a b n : Node String} {k : Nat}

/-- The part of a node's line behind its span. -/
def lexemePart (n : Node String) : List Char :=
  match n.lexeme? with
  | some lexeme => ' ' :: (Text.quoteText lexeme).toList
  | none => []

theorem toList_headline (n : Node String) :
    (n.headline {}).toList
      = n.label.text.toList ++ '@' :: (n.span.text.toList ++ n.lexemePart) := by
  rw [headline, lexemePart]
  cases n.lexeme? <;> simp

theorem lexemePart_append_inj
    (h : a.lexemePart ++ '\n' :: r = b.lexemePart ++ '\n' :: s) :
    a.lexeme? = b.lexeme? ∧ r = s := by
  rw [lexemePart, lexemePart] at h
  cases ha : a.lexeme? with
  | none =>
    cases hb : b.lexeme? with
    | none => simpa [ha, hb] using h
    | some y => simp [ha, hb] at h
  | some x =>
    cases hb : b.lexeme? with
    | none => simp [ha, hb] at h
    | some y =>
      simp only [ha, hb, List.cons_append, List.cons.injEq, true_and] at h
      obtain ⟨rfl, hrest⟩ := Text.quoteText_append_inj h
      exact ⟨rfl, (List.cons.inj hrest).2⟩

theorem stopsAt_lexemePart_append (n : Node String) (r : List Char) :
    StopsAt Char.isDigit (n.lexemePart ++ '\n' :: r) := by
  rw [lexemePart]
  cases n.lexeme? <;> rintro c ⟨⟩ <;> rfl

/-- **Reading a line.** It tells the label of the node, its span and its lexeme. -/
theorem headline_append_inj (ha : a.label.Worded) (hb : b.label.Worded)
    (hleaf : a.label.isTerminal = a.isLeaf) (hleaf' : b.label.isTerminal = b.isLeaf)
    (h : (a.headline {}).toList ++ '\n' :: r = (b.headline {}).toList ++ '\n' :: s) :
    a.label = b.label ∧ a.span = b.span ∧ a.lexeme? = b.lexeme? ∧ r = s := by
  have hlabel : ∀ {label : Label}, label.Worded → ∀ c ∈ label.text.toList, (c != '@') = true :=
    fun hlabel c hc => bne_iff_ne.mpr (Label.ne_of_mem_text hlabel hc).1
  have hat : ∀ rest, StopsAt (· != '@') ('@' :: rest) := fun _ => stopsAt_cons.mpr rfl
  simp only [toList_headline, List.append_assoc, List.cons_append] at h
  obtain ⟨htext, hrest⟩ := append_inj_of_stopsAt (hlabel ha) (hlabel hb) (hat _) (hat _) h
  obtain ⟨hspan, hrest⟩ := Span.text_append_inj (stopsAt_lexemePart_append a r)
    (stopsAt_lexemePart_append b s) (List.cons.inj hrest).2
  obtain ⟨hlexeme, hend⟩ := lexemePart_append_inj hrest
  -- A leaf is a node with a lexeme, so both labels are those of terminals or neither is.
  have hterminal : a.label.isTerminal = b.label.isTerminal := by
    have hisLeaf : ∀ m : Node String, m.isLeaf = m.lexeme?.isSome := by
      intro m
      cases m <;> rfl
    rw [hleaf, hleaf', hisLeaf, hisLeaf, hlexeme]
  exact ⟨Label.eq_of_text_eq ha hb hterminal (String.toList_inj.mp htext), hspan, hlexeme, hend⟩

/-- A line does not begin with a blank. -/
theorem exists_headline_eq_cons (hn : n.label.Worded) :
    ∃ c rest, (n.headline {}).toList = c :: rest ∧ c ≠ ' ' := by
  rw [toList_headline]
  cases htext : n.label.text.toList with
  | nil => exact absurd (String.toList_eq_nil_iff.mp htext) (Label.text_ne_empty hn)
  | cons c cs =>
    exact ⟨c, _, rfl, (Label.ne_of_mem_text hn (by rw [htext]; exact List.mem_cons_self)).2⟩

/-! ### Dumps as texts -/

/-- The lines of a tree in the default style, as one text. -/
def dumpText (margin : String) (n : Node String) : List Char :=
  (n.dumpLines {} margin).flatMap String.toList

/-- The lines of several trees in the default style, as one text. -/
def dumpTextAll (margin : String) (ns : List (Node String)) : List Char :=
  (dumpLinesAll {} margin ns).flatMap String.toList

/-- The text of a tree is its own line followed by the text of its children, further indented. -/
theorem dumpText_eq (margin : String) (n : Node String) :
    n.dumpText margin = margin.toList ++ ((n.headline {}).toList
      ++ '\n' :: dumpTextAll (margin ++ "  ") n.children) := by
  cases n with
  | leaf label span lexeme => simp [dumpText, dumpTextAll, dumpLines, dumpLinesAll, children]
  | branch label span nodes => simp [dumpText, dumpTextAll, dumpLines, children]

theorem dumpTextAll_nil (margin : String) : dumpTextAll margin [] = [] := rfl

theorem dumpTextAll_cons (margin : String) (n : Node String) (ns : List (Node String)) :
    dumpTextAll margin (n :: ns) = n.dumpText margin ++ dumpTextAll margin ns := by
  simp [dumpText, dumpTextAll, dumpLinesAll]

theorem toList_dump (n : Node String) : n.dump.toList = dumpTextAll "" [n] := by
  rw [dump, String.toList_join, dumpTextAll_cons, dumpTextAll_nil, List.append_nil, dumpText]

/-! ### Indentation -/

/-- The text has ended, or begins with fewer than `k` blanks. -/
def Outdented (k : Nat) (r : List Char) : Prop := r ≠ [] → ¬ List.replicate k ' ' <+: r

theorem Outdented.add {k : Nat} (hr : Outdented k r) (j : Nat) : Outdented (k + j) r := by
  intro hne hpre
  rw [List.replicate_add] at hpre
  exact hr hne ((List.prefix_append _ _).trans hpre)

/-- Nodes that stand at some indentation are not indented further. -/
theorem outdented_dumpTextAll_append {margin : String} {ns : List (Node String)}
    (hmargin : margin.toList = List.replicate k ' ') (hns : ∀ n ∈ ns, n.label.Worded)
    (hr : Outdented k r) : Outdented (k + 2) (dumpTextAll margin ns ++ r) := by
  cases ns with
  | nil => exact hr.add 2
  | cons n ns =>
    intro _ hpre
    obtain ⟨c, rest, hline, hc⟩ := exists_headline_eq_cons (hns n List.mem_cons_self)
    rw [dumpTextAll_cons, dumpText_eq, hmargin, hline, List.replicate_add, List.append_assoc,
      List.append_assoc, List.prefix_append_right_inj] at hpre
    exact hc (List.cons_prefix_cons.mp hpre).1.symm

/-! ### Trees -/

/-- The tree has the shape that parsing gives it: labels of terminals stand on leaves and all others
on branches, and the rules have words for names. -/
def Shaped (n : Node String) : Prop :=
  ∀ m, n.Contains m → m.label.isTerminal = m.isLeaf ∧ m.label.Worded

theorem shaped_iff :
    n.Shaped ↔ (n.label.isTerminal = n.isLeaf ∧ n.label.Worded) ∧
      ∀ child ∈ n.children, child.Shaped := by
  constructor
  · intro h
    exact ⟨h n .refl, fun child hchild m hm => h m (contains_iff.mpr (Or.inr ⟨child, hchild, hm⟩))⟩
  · rintro ⟨hown, hchildren⟩ m hm
    rcases contains_iff.mp hm with rfl | ⟨child, hchild, hm⟩
    · exact hown
    · exact hchildren child hchild m hm

theorem eq_of_parts_eq (hlabel : a.label = b.label) (hspan : a.span = b.span)
    (hlexeme : a.lexeme? = b.lexeme?) (hchildren : a.children = b.children) : a = b := by
  cases a <;> cases b <;> simp_all [label, span, lexeme?, children]

/-- **Reading the lines of a list of nodes.** -/
theorem dumpTextAll_append_inj {k : Nat} (margin : String) (as bs : List (Node String))
    {r s : List Char} (hmargin : margin.toList = List.replicate k ' ')
    (has : ∀ a ∈ as, a.Shaped) (hbs : ∀ b ∈ bs, b.Shaped) (hr : Outdented k r) (hs : Outdented k s)
    (h : dumpTextAll margin as ++ r = dumpTextAll margin bs ++ s) : as = bs ∧ r = s := by
  -- Where one list ends, the other cannot go on: what follows is not indented far enough.
  have hends : ∀ {t : List Char} (n : Node String) (more : List Char), Outdented k t →
      t ≠ n.dumpText margin ++ more := by
    rintro t n more ht rfl
    rw [dumpText_eq, hmargin, List.append_assoc] at ht
    exact ht (by simp) (List.prefix_append _ _)
  have hworded : ∀ {ns : List (Node String)}, (∀ n ∈ ns, n.Shaped) →
      ∀ n ∈ ns, n.label.Worded := fun hns n hn => (hns n hn n .refl).2
  match as, bs with
  | [], [] => exact ⟨rfl, h⟩
  | [], b :: bs =>
    rw [dumpTextAll_cons, List.append_assoc] at h
    exact absurd h (hends b _ hr)
  | a :: as, [] =>
    rw [dumpTextAll_cons, List.append_assoc] at h
    exact absurd h.symm (hends a _ hs)
  | a :: as, b :: bs =>
    rw [List.forall_mem_cons, shaped_iff] at has hbs
    obtain ⟨⟨⟨hleaf, hlabel⟩, hchildren⟩, has⟩ := has
    obtain ⟨⟨⟨hleaf', hlabel'⟩, hchildren'⟩, hbs⟩ := hbs
    simp only [dumpTextAll_cons, dumpText_eq, List.append_assoc, List.append_cancel_left_eq,
      List.cons_append] at h
    obtain ⟨hl, hspan, hlexeme, hlines⟩ := headline_append_inj hlabel hlabel' hleaf hleaf' h
    obtain ⟨hsame, hrest⟩ := dumpTextAll_append_inj (k := k + 2) (margin ++ "  ") a.children
      b.children (by simp [hmargin, List.replicate_add]) hchildren hchildren'
      (outdented_dumpTextAll_append hmargin (hworded has) hr)
      (outdented_dumpTextAll_append hmargin (hworded hbs) hs) hlines
    obtain ⟨rfl, hend⟩ := dumpTextAll_append_inj margin as bs hmargin has hbs hr hs hrest
    obtain rfl := eq_of_parts_eq hl hspan hlexeme hsame
    exact ⟨rfl, hend⟩
termination_by Node.sizeAll as
decreasing_by
  · rw [Node.sizeAll, size_eq_succ_sizeAll_children]
    omega
  · rw [Node.sizeAll, size_eq_succ_sizeAll_children]
    omega

/-- Dumps written one after the other determine how many trees there are, and which. -/
theorem dumpTextAll_inj {as bs : List (Node String)} (has : ∀ a ∈ as, a.Shaped)
    (hbs : ∀ b ∈ bs, b.Shaped) (h : dumpTextAll "" as = dumpTextAll "" bs) : as = bs := by
  have hend : Outdented 0 [] := fun hne => absurd rfl hne
  exact (dumpTextAll_append_inj "" as bs rfl has hbs hend hend (congrArg (· ++ []) h)).1

end Node

/-- **A dump determines its tree.** Trees of the shape that parsing gives them have the same dump
only if they are the same, whatever spans and lexemes they have. -/
theorem dump_determines_tree {a b : Node String} (ha : a.Shaped) (hb : b.Shaped)
    (h : a.dump = b.dump) : a = b := by
  have htext : Node.dumpTextAll "" [a] = Node.dumpTextAll "" [b] := by
    rw [← Node.toList_dump, ← Node.toList_dump, h]
  exact List.singleton_inj.mp (Node.dumpTextAll_inj (List.forall_mem_singleton.mpr ha)
    (List.forall_mem_singleton.mpr hb) htext)

/-! ### A lexeme that ends its line -/

/-- A rule with the name of a terminal. The lexeme of its first child would close its quotation and
end the line, if it were shown as it is. -/
def lineEnder : Node String :=
  .branch (.rule "Literal") (.of 0 3)
    [.leaf .literal (.of 0 3) "\"\n\"", .branch .sequence (.of 3 3) []]

/-- The same tree, put together from the ends of its spans and the characters of its lexeme. -/
def reassembled : Node String :=
  .branch (.rule "Literal") ⟨0, 3⟩
    [.leaf .literal ⟨0, 3⟩ (String.ofList ['"', '\n', '"']), .branch .sequence ⟨3, 3⟩ []]

theorem shaped_of_two_children {x y : Span} {lexeme : String} :
    (Node.branch (.rule "Literal") x
      [.leaf .literal x lexeme, .branch .sequence y []]).Shaped := by
  have hworded : (Label.rule "Literal").Worded := by
    rintro name ⟨⟩
    exact ⟨by decide, by decide⟩
  rw [Node.shaped_iff]
  refine ⟨⟨rfl, hworded⟩, fun child hchild => ?_⟩
  rcases List.mem_pair.mp hchild with rfl | rfl
  · exact Node.shaped_iff.mpr ⟨⟨rfl, nofun⟩, nofun⟩
  · exact Node.shaped_iff.mpr ⟨⟨rfl, nofun⟩, nofun⟩

/-- The dump has three lines, one for each node, and no other tree has these lines. -/
theorem lineEnder_dump :
    lineEnder.Shaped ∧ reassembled.Shaped ∧
    lineEnder.dump = "Literal@0..3\n  Literal@0..3 \"\\\"\\n\\\"\"\n  <seq>@3..3\n" ∧
    reassembled.dump = "Literal@0..3\n  Literal@0..3 \"\\\"\\n\\\"\"\n  <seq>@3..3\n" ∧
    lineEnder = reassembled := by
  have hdump : lineEnder.dump
      = "Literal@0..3\n  Literal@0..3 \"\\\"\\n\\\"\"\n  <seq>@3..3\n" := by decide +kernel
  have hdump' : reassembled.dump
      = "Literal@0..3\n  Literal@0..3 \"\\\"\\n\\\"\"\n  <seq>@3..3\n" := by decide +kernel
  exact ⟨shaped_of_two_children, shaped_of_two_children, hdump, hdump',
    dump_determines_tree shaped_of_two_children shaped_of_two_children (hdump.trans hdump'.symm)⟩

end PegGrammar
