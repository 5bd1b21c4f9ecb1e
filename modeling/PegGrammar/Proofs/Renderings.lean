import PegGrammar.Proofs.Conformance
import PegGrammar.Proofs.DumpReading
import PegGrammar.Proofs.Observation
import PegGrammar.Snapshot.Tester

/-!
# A rendering determines its result

A snapshot holds the rendering of a result, and a comparison of renderings is all that a check of a
snapshot does. So a change of the result goes unnoticed exactly if two results have the same
rendering. None have: a tree can be read off its dump, an error off its message and span, and a
rendering shows in its first word which of the two it belongs to.

The kind of an error does not show in its message. It shows in its span: an error of a start rule
that did not match has an empty span, and what remains of a text after a match is not empty. That
is a fact about parsing and not about the type of errors, so the statement is about results that
parsing can have.

## Main definitions

* `Attainable` — a result of parsing with a grammar that has words for names

## Main results

* `Conforms.shaped` — the trees of a grammar have the shape that dumps are read by
* `rendering_eq_iff` — attainable results with the same rendering are the same
-/

namespace PegGrammar

open Engine

/-! ### Trees -/

theorem Terminal.isTerminal_label (t : Terminal) : t.label.isTerminal = true := by
  cases t <;> rfl

theorem Terminal.worded_label (t : Terminal) : t.label.Worded := by
  cases t <;> rintro name ⟨⟩

/-- **The trees of a grammar with words for names have the shape that dumps are read by.** -/
theorem Conforms.shaped {g : Grammar} (hwords : ∀ r ∈ g.rules.toList, IsWord r.name)
    {text : List Char} {e : Expr} {n : Node String} (h : Conforms g text e n) : n.Shaped := by
  induction h with
  | @terminal t span lexeme part _ _ =>
    exact Node.shaped_iff.mpr ⟨⟨t.isTerminal_label, t.worded_label⟩, nofun⟩
  | sequence hlength _ ih =>
    refine Node.shaped_iff.mpr ⟨⟨rfl, nofun⟩, fun child hchild => ?_⟩
    obtain ⟨i, hi⟩ := List.mem_iff_getElem?.mp hchild
    have hlt := (List.getElem?_eq_some_iff.mp hi).1
    exact ih i _ child (List.getElem?_eq_getElem (hlength ▸ hlt)) hi
  | choice _ _ ih =>
    exact Node.shaped_iff.mpr ⟨⟨rfl, nofun⟩, List.forall_mem_singleton.mpr ih⟩
  | repeated _ _ _ _ ih => exact Node.shaped_iff.mpr ⟨⟨rfl, nofun⟩, ih⟩
  | @rule id r e span child hr _ _ ih =>
    have hname : (Label.rule r.name).Worded := by
      rintro name ⟨⟩
      exact hwords r (Array.mem_toList_iff.mpr (Array.mem_of_getElem? hr))
    exact Node.shaped_iff.mpr ⟨⟨rfl, hname⟩, List.forall_mem_singleton.mpr ih⟩

theorem Grammar.Answers.shaped {g : Grammar} (hwords : ∀ r ∈ g.rules.toList, IsWord r.name)
    {text : String} {tree : SyntaxTree} (h : g.Answers text (.ok tree)) : tree.root.Shaped := by
  obtain ⟨hlen, n, steps, o, full, hrun, hconcludes⟩ := h.exists_concludes
  cases o with
  | failed offset =>
    obtain ⟨err, herr, -⟩ := hconcludes
    cases herr
  | matched node stop =>
    simp only [Outcome.Concludes] at hconcludes
    split at hconcludes
    next =>
      obtain ⟨err, herr, -⟩ := hconcludes
      cases herr
    next =>
      obtain ⟨tree', htree, heq⟩ := hconcludes
      cases heq
      obtain ⟨root, hroot, -⟩ := hrun.covers.exists_withLexemes hlen (.refl _)
      rw [SyntaxTree.ofMatch, hroot] at htree
      cases htree
      have hconforms : Conforms g text.toList (.rule g.start) node := hrun.conforms hlen (.refl _)
      exact (hconforms.of_shape (Node.shape_withLexemes hroot)).shaped hwords

/-! ### Errors -/

/-- **Reading a position** in front of something that is no digit. -/
theorem LineCol.text_append_inj {p q : LineCol} {r s : List Char}
    (hr : StopsAt Char.isDigit r) (hs : StopsAt Char.isDigit s)
    (h : p.text.toList ++ r = q.text.toList ++ s) : p = q ∧ r = s := by
  have hcolumn : ∀ rest, StopsAt Char.isDigit (" column ".toList ++ rest) :=
    fun _ => stopsAt_cons.mpr rfl
  have htext : ∀ (x : LineCol) (rest : List Char), x.text.toList ++ rest
      = "line ".toList ++ ((toString x.line.toNat).toList
        ++ (" column ".toList ++ ((toString x.column.toNat).toList ++ rest))) := by
    intro x rest
    simp only [LineCol.text, String.toList_append, List.append_assoc]
  rw [htext, htext] at h
  obtain ⟨hline, hrest⟩ := toString_append_inj (hcolumn _) (hcolumn _) (List.append_cancel_left h)
  obtain ⟨hcol, hend⟩ := toString_append_inj hr hs (List.append_cancel_left hrest)
  obtain ⟨line, column⟩ := p
  obtain ⟨line', column'⟩ := q
  exact ⟨congrArg₂ LineCol.mk (UInt32.toNat_inj.mp hline) (UInt32.toNat_inj.mp hcol), hend⟩

theorem toList_renderError (err : ParseError) :
    (Snapshot.renderError err).toList = "cannot parse input at ".toList
      ++ (err.position.text.toList ++ ("\nspan: ".toList
        ++ (err.span.text.toList ++ "\n".toList))) := by
  unfold Snapshot.renderError ParseError.message
  simp only [String.toList_append, List.append_assoc]

/-- **Reading the rendering of an error.** It tells the position and the span. -/
theorem renderError_inj {err err' : ParseError}
    (h : Snapshot.renderError err = Snapshot.renderError err') :
    err.position = err'.position ∧ err.span = err'.span := by
  have hspan : ∀ rest, StopsAt Char.isDigit ("\nspan: ".toList ++ rest) :=
    fun _ => stopsAt_cons.mpr rfl
  have hend : StopsAt Char.isDigit "\n".toList := stopsAt_cons.mpr rfl
  have htext := congrArg String.toList h
  rw [toList_renderError, toList_renderError] at htext
  obtain ⟨hposition, hrest⟩ :=
    LineCol.text_append_inj (hspan _) (hspan _) (List.append_cancel_left htext)
  exact ⟨hposition, (Span.text_append_inj hend hend (List.append_cancel_left hrest)).1⟩

/-- The span of an error tells its kind. -/
theorem Grammar.Answers.kind_eq {g : Grammar} {text : String} {err : ParseError}
    (h : g.Answers text (.error err)) :
    err.kind = if err.span.isEmpty then .noMatch else .trailingInput := by
  obtain ⟨i, j, hreports, -, -, hkind⟩ := h.exists_reports
  have hempty : err.span.isEmpty = true ↔ i = j := by
    rw [Span.isEmpty, beq_iff_eq, ← UInt32.toNat_inj, hreports.start_eq, hreports.stop_eq]
  rcases hkind with ⟨hkind, rfl⟩ | ⟨hkind, hlt⟩
  · rw [hkind, if_pos (hempty.mpr rfl)]
  · rw [hkind, if_neg (hempty.not.mpr (Nat.ne_of_lt hlt))]

/-! ### Results -/

/-- The result of parsing some text with a grammar that has words for names. -/
def Attainable (result : ParseResult) : Prop :=
  ∃ (g : Grammar) (text : String), (∀ r ∈ g.rules.toList, IsWord r.name) ∧ g.Answers text result

/-- The first word of a rendering tells a tree from an error: behind the label of the root stands a
sign, and behind the first word of a message a blank. -/
theorem Node.Shaped.dump_ne_renderError {n : Node String} (h : n.Shaped) (err : ParseError) :
    n.dump ≠ Snapshot.renderError err := by
  intro heq
  have hlabel : ∀ c ∈ n.label.text.toList, (c != '@' && c != ' ') = true := by
    intro c hc
    simpa using Label.ne_of_mem_text (h n .refl).2 hc
  have hword : ∀ c ∈ "cannot".toList, (c != '@' && c != ' ') = true :=
    List.all_eq_true.mp (by decide)
  have hsign : ∀ rest, StopsAt (fun c => c != '@' && c != ' ') ('@' :: rest) :=
    fun _ => stopsAt_cons.mpr rfl
  have hblank : ∀ rest, StopsAt (fun c => c != '@' && c != ' ') (' ' :: rest) :=
    fun _ => stopsAt_cons.mpr rfl
  have htext := congrArg String.toList heq
  rw [Node.toList_dump, Node.dumpTextAll_cons, Node.dumpText_eq, Node.toList_headline,
    toList_renderError, show "cannot parse input at ".toList
      = "cannot".toList ++ ' ' :: "parse input at ".toList from rfl] at htext
  simp only [String.toList_empty, List.nil_append, List.append_assoc, List.cons_append] at htext
  cases (append_inj_of_stopsAt hlabel hword (hsign _) (hblank _) htext).2

/-- **Attainable results with the same rendering are the same.** -/
theorem rendering_eq_iff {t : Snapshot.Tester} (hstyle : t.style = {}) {r s : ParseResult}
    (hr : Attainable r) (hs : Attainable s) : t.render r = t.render s ↔ r = s := by
  refine ⟨fun heq => ?_, congrArg t.render⟩
  obtain ⟨g, text, hwords, hr⟩ := hr
  obtain ⟨g', text', hwords', hs⟩ := hs
  cases r with
  | ok a =>
    cases s with
    | ok b =>
      rw [Snapshot.Tester.render, Snapshot.Tester.render, hstyle] at heq
      have htext : Node.dumpTextAll "" [a.root] = Node.dumpTextAll "" [b.root] := by
        rw [← Node.toList_dump, ← Node.toList_dump]
        exact congrArg String.toList heq
      have hroots := Node.dumpTextAll_inj (List.forall_mem_singleton.mpr (hr.shaped hwords))
        (List.forall_mem_singleton.mpr (hs.shaped hwords')) htext
      obtain ⟨root⟩ := a
      cases hroots
      rfl
    | error err =>
      rw [Snapshot.Tester.render, Snapshot.Tester.render, hstyle] at heq
      exact absurd heq ((hr.shaped hwords).dump_ne_renderError err)
  | error err =>
    cases s with
    | ok b =>
      rw [Snapshot.Tester.render, Snapshot.Tester.render, hstyle] at heq
      exact absurd heq.symm ((hs.shaped hwords').dump_ne_renderError err)
    | error err' =>
      obtain ⟨hposition, hspan⟩ := renderError_inj heq
      have hkind : err.kind = err'.kind := by rw [hr.kind_eq, hs.kind_eq, hspan]
      obtain ⟨kind, span, position⟩ := err
      cases hkind
      cases hspan
      cases hposition
      rfl

end PegGrammar
