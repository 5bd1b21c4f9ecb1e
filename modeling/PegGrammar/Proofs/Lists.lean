import PegGrammar.Expr.Combinators
import PegGrammar.Proofs.RecognitionRuns
import PegGrammar.Proofs.Replay

/-!
# Lists with delimiters

`Expr.list` is put together from an option, a sequence and a repetition, and mentions its item
twice. What it matches can be said without any of them: items with exactly the delimiter between
each two, as many as can be had. `MaximalList` says it.

A list can end in three ways: there is no delimiter, there is no item behind the delimiter, or the
last delimiter and item consumed nothing. The last case needs an empty delimiter and an item that
matches the empty text; without it, such a list would have no end.

## What an expression gives

A course of a match records every step and the depth of its calls. For the outcome of a list only
the outcomes of its parts matter, so the proofs are about `Gives`: some course has this outcome. It
has one lemma for each form of which lists are made, and none of them mentions steps or depths.

## Main definitions

* `Engine.Gives` — an outcome without its course
* `MaximalList` — items with a delimiter between each two, as many as can be had
* `listNode`, `enclosedNode` — what lists leave in the tree

## Main results

* `Engine.returns_iff_gives` — attempts return what courses give
* `givesMany_pair_iff` — the rounds behind the first item are the others of a maximal list
* `list_is_maximal` — lists are as long as can be
-/

namespace PegGrammar

open Engine

namespace Engine

variable {g : Grammar} {e : Expr} {es : List Expr} {c : Cursor}

/-! ### Outcomes without their courses -/

/-- Some course of the expression at the cursor has the outcome. -/
def Gives (g : Grammar) (e : Expr) (c : Cursor) (o : Outcome (Node Unit)) : Prop :=
  ∃ n steps, Runs g n e c steps o

/-- Some course of the expressions, one after the other, has the outcome. -/
def GivesEach (g : Grammar) (es : List Expr) (c : Cursor) (o : Outcome (List (Node Unit))) :
    Prop :=
  ∃ n steps, RunsEach g n es c steps o

/-- Some course of the rounds of `e*` has the outcome. -/
def GivesMany (g : Grammar) (e : Expr) (c : Cursor) (o : Outcome (List (Node Unit))) : Prop :=
  ∃ n steps, RunsMany g n e .zeroToMany 0 c steps o

/-- `Returns` speaks of the engine with any limit from some limit on, and `Gives` of one course. For
expressions whose references are declared they are the same, so that the proofs below can be about
courses and the main result about attempts. -/
theorem returns_iff_gives {o : Outcome (Node Unit)} (he : ∀ id ∈ e.refs, g.Declares id) :
    Returns g e c o ↔ Gives g e c o := by
  constructor
  · rintro ⟨limit, h⟩
    let w : Watch Unit := ⟨fun _ _ => (), false⟩
    obtain ⟨m', hrun⟩ := h limit (Nat.le_refl limit) Unit w .syntactic { observer := () }
    have hcall := fun id hid c => computes_callRule w limit (he id hid) c .syntactic
    cases computes_attempt e hcall c with
    | returns steps o' only run =>
      rw [run, Except.ok.injEq, Prod.mk.injEq] at hrun
      exact ⟨limit, steps, (only steps o).mpr ⟨rfl, hrun.1.symm⟩⟩
    | diverges _ run =>
      rw [run] at hrun
      cases hrun
  · rintro ⟨n, steps, h⟩
    exact h.returns he

theorem Gives.reaches {node : Node Unit} {stop : Cursor} (h : Gives g e c (.matched node stop)) :
    c.Reaches stop := by
  obtain ⟨n, steps, h⟩ := h
  exact h.inReach

/-- A sequence gives what its elements give one after the other, as one node. The steps and the
depth of the two courses differ, which is what `Gives` hides. -/
theorem gives_sequence_iff {o : Outcome (Node Unit)} :
    Gives g (.sequence es) c o ↔
      ∃ parts, GivesEach g es c parts ∧ o = parts.enclose .sequence c := by
  constructor
  · rintro ⟨n, steps, h⟩
    obtain ⟨body, parts, hbody, ho, -⟩ := runs_sequence_iff.mp h
    exact ⟨parts, ⟨n, body, hbody⟩, ho⟩
  · rintro ⟨parts, ⟨n, body, hbody⟩, ho⟩
    exact ⟨n, _, .sequence hbody ho⟩

theorem givesEach_nil_iff {o : Outcome (List (Node Unit))} :
    GivesEach g [] c o ↔ o = .matched [] c := by
  constructor
  · rintro ⟨n, steps, h⟩
    exact (runsEach_nil_iff.mp h).2
  · rintro rfl
    exact ⟨0, [], .nil⟩

/-- The outcome of the elements is that of the first if it fails. Otherwise it is that of the
others, from where the first stopped, with one more node in front. -/
theorem givesEach_cons_iff {o : Outcome (List (Node Unit))} :
    GivesEach g (e :: es) c o ↔
      (∃ node stop others, Gives g e c (.matched node stop) ∧ GivesEach g es stop others ∧
        o = others.map (node :: ·)) ∨
      ∃ offset, Gives g e c (.failed offset) ∧ o = .failed offset := by
  constructor
  · rintro ⟨n, steps, h⟩
    rcases runsEach_cons_iff.mp h with ⟨first, node, stop, more, others, hfirst, hmore, -, ho⟩ |
      ⟨offset, hfails, ho⟩
    · exact Or.inl ⟨node, stop, others, ⟨n, first, hfirst⟩, ⟨n, more, hmore⟩, ho⟩
    · exact Or.inr ⟨offset, ⟨n, steps, hfails⟩, ho⟩
  · rintro (⟨node, stop, others, ⟨n, first, hfirst⟩, ⟨k, more, hmore⟩, rfl⟩ |
      ⟨offset, ⟨n, steps, hfails⟩, rfl⟩)
    · exact ⟨max n k, _, .cons_max hfirst hmore⟩
    · exact ⟨n, steps, .stuck hfails⟩

theorem gives_star_iff {o : Outcome (Node Unit)} :
    Gives g (.repeated e .zeroToMany) c o ↔
      ∃ parts, GivesMany g e c parts ∧ o = parts.enclose (.repeated .zeroToMany) c := by
  constructor
  · rintro ⟨n, steps, h⟩
    obtain ⟨body, parts, hbody, ho, -⟩ := runs_repeated_iff.mp h
    exact ⟨parts, ⟨n, body, hbody⟩, ho⟩
  · rintro ⟨parts, ⟨n, body, hbody⟩, ho⟩
    exact ⟨n, _, .repeated hbody ho⟩

/-- A round of `e*` goes in one of three ways: it fails, it consumes nothing and is the last, or it
is followed by more. No bounds are left in the statement, because `*` has none that could stop a
round. -/
theorem givesMany_iff {o : Outcome (List (Node Unit))} :
    GivesMany g e c o ↔
      (∃ offset, Gives g e c (.failed offset) ∧ o = .matched [] c) ∨
      (∃ node, Gives g e c (.matched node c) ∧ o = .matched [node] c) ∨
      ∃ node stop others, Gives g e c (.matched node stop) ∧ stop ≠ c ∧
        GivesMany g e stop others ∧ o = others.map (node :: ·) := by
  constructor
  · rintro ⟨n, steps, h⟩
    rcases (runsMany_more_iff rfl).mp h with ⟨offset, hfails, ⟨-, ho⟩ | ⟨hfew, -⟩⟩ |
      ⟨node, stop, hidle, hs, ho⟩ | ⟨round, node, stop, more, others, hround, hs, hmore, -, ho⟩
    · exact Or.inl ⟨offset, ⟨n, steps, hfails⟩, ho⟩
    · exact absurd hfew (Nat.not_lt_zero _)
    · obtain rfl := Cursor.Reaches.eq_of_length_le hidle.inReach (Nat.le_of_not_lt hs)
      exact Or.inr (Or.inl ⟨node, ⟨n, steps, hidle⟩, ho⟩)
    · refine Or.inr (Or.inr ⟨node, stop, others, ⟨n, round, hround⟩, ?_, ⟨n, more, ?_⟩, ho⟩)
      · rintro rfl
        exact Nat.lt_irrefl _ hs
      · exact hmore.rebound rfl rfl (Nat.zero_le _) (Nat.zero_le _)
  · rintro (⟨offset, ⟨n, steps, hfails⟩, rfl⟩ | ⟨node, ⟨n, steps, hidle⟩, rfl⟩ |
      ⟨node, stop, others, ⟨n, round, hround⟩, hne, ⟨k, more, hmore⟩, rfl⟩)
    · exact ⟨n, steps, .enough rfl hfails (Nat.zero_le _)⟩
    · exact ⟨n, steps, .idle rfl hidle (Nat.lt_irrefl _)⟩
    · have hreach : c.Reaches stop := hround.inReach
      have hlt : stop.rest.length < c.rest.length := by
        by_contra hlt
        exact hne (hreach.eq_of_length_le (Nat.le_of_not_lt hlt))
      have hmore' : RunsMany g k e .zeroToMany (0 + 1) stop more others :=
        hmore.rebound rfl rfl (Nat.zero_le _) (Nat.zero_le _)
      exact ⟨max n k, _, .again_max rfl hround hlt hmore'⟩

/-- An option never fails. It leaves a branch without children where its operand fails, so the tree
shows whether the operand was there. -/
theorem gives_optional_iff {o : Outcome (Node Unit)} :
    Gives g (.repeated e .zeroToOne) c o ↔
      (∃ offset, Gives g e c (.failed offset) ∧
        o = (Outcome.matched [] c).enclose (.repeated .zeroToOne) c) ∨
      ∃ node stop, Gives g e c (.matched node stop) ∧
        o = (Outcome.matched [node] stop).enclose (.repeated .zeroToOne) c := by
  constructor
  · rintro ⟨n, steps, h⟩
    obtain ⟨body, parts, hbody, rfl, -⟩ := runs_repeated_iff.mp h
    rcases (runsMany_more_iff rfl).mp hbody with ⟨offset, hfails, ⟨-, rfl⟩ | ⟨hfew, -⟩⟩ |
      ⟨node, stop, hidle, -, rfl⟩ | ⟨round, node, stop, more, others, hround, -, hmore, -, rfl⟩
    · exact Or.inl ⟨offset, ⟨n, body, hfails⟩, rfl⟩
    · exact absurd hfew (Nat.not_lt_zero _)
    · exact Or.inr ⟨node, stop, ⟨n, body, hidle⟩, rfl⟩
    · obtain ⟨-, rfl⟩ := (runsMany_full_iff rfl).mp hmore
      exact Or.inr ⟨node, stop, ⟨n, round, hround⟩, rfl⟩
  · rintro (⟨offset, ⟨n, steps, hfails⟩, rfl⟩ | ⟨node, stop, ⟨n, steps, h⟩, rfl⟩)
    · exact ⟨n, _, .repeated (.enough rfl hfails (Nat.zero_le _)) rfl⟩
    · by_cases hlt : stop.rest.length < c.rest.length
      · exact ⟨n, _, .repeated (.again rfl h hlt (.full rfl)) rfl⟩
      · exact ⟨n, _, .repeated (.idle rfl h hlt) rfl⟩

end Engine

/-! ### Literals -/

/-- Exactly this text stands between two cursors. -/
def Cursor.ReachesBy (c : Cursor) (part : List Char) (d : Cursor) : Prop :=
  c.rest = part ++ d.rest ∧ d.offset = c.offset + Text.byteLength part

instance (c : Cursor) (part : List Char) (d : Cursor) : Decidable (c.ReachesBy part d) :=
  inferInstanceAs (Decidable (_ ∧ _))

theorem Cursor.exists_reachesBy_iff {c : Cursor} {part : List Char} :
    (∃ d, c.ReachesBy part d) ↔ part <+: c.rest := by
  constructor
  · rintro ⟨d, hrest, -⟩
    exact ⟨d.rest, hrest.symm⟩
  · rintro ⟨rest, hrest⟩
    exact ⟨⟨c.offset + Text.byteLength part, rest⟩, hrest.symm, rfl⟩

namespace Engine

variable {g : Grammar} {c : Cursor} {text : String}

/-- What a literal leaves in the tree. -/
def literalNode (c stop : Cursor) : Node Unit := .leaf .literal (Span.of c.offset stop.offset) ()

/-- A literal matches if the text goes on with it, and fails where it was tried otherwise. Its node
is known from the two cursors alone, which is why the nodes of delimiters need not be named in what
follows. -/
theorem gives_literal_iff {o : Outcome (Node Unit)} :
    Gives g (.literal text) c o ↔
      (∃ stop, c.ReachesBy text.toList stop ∧ o = .matched (literalNode c stop) stop) ∨
      (¬ text.toList <+: c.rest ∧ o = .failed c.offset) := by
  have hsome : ∀ stop, (Terminal.literal text).accept? c = some stop ↔
      c.ReachesBy text.toList stop := fun _ => Cursor.skip?_eq_some_iff
  have hnone : (Terminal.literal text).accept? c = none ↔ ¬ text.toList <+: c.rest := by
    rw [← Cursor.exists_reachesBy_iff, Option.eq_none_iff_forall_ne_some, not_exists]
    exact forall_congr' fun stop => (hsome stop).not
  constructor
  · rintro ⟨n, steps, h⟩
    rcases runs_terminal_iff.mp h with ⟨stop, hstop, ho, -⟩ | ⟨hstop, ho, -⟩
    · exact Or.inl ⟨stop, (hsome stop).mp hstop, ho⟩
    · exact Or.inr ⟨hnone.mp hstop, ho⟩
  · rintro (⟨stop, hstop, ho⟩ | ⟨hstop, rfl⟩)
    · exact ⟨0, _, .accepted ((hsome stop).mpr hstop) ho⟩
    · exact ⟨0, _, .rejected (hnone.mpr hstop)⟩

end Engine

/-! ### Lists -/

/-- An item of a list, with the cursors before and behind it. -/
structure Entry where
  /-- Where the item begins. -/
  start : Cursor
  /-- What the item left in the tree. -/
  node : Node Unit
  /-- Where the item ends. -/
  stop : Cursor

/-- What a delimiter and the item behind it leave in the tree. -/
def Entry.pairNode (c : Cursor) (b : Entry) : Node Unit :=
  .branch .sequence (Span.of c.offset b.stop.offset) [literalNode c b.start, b.node]

/-- What the items behind the first leave in the tree, each with the delimiter before it. -/
def pairNodes : Cursor → List Entry → List (Node Unit)
  | _, [] => []
  | c, b :: others => b.pairNode c :: pairNodes b.stop others

/-- The end of a list. -/
def lastStop (first : Entry) (others : List Entry) : Cursor :=
  ((first :: others).getLast (List.cons_ne_nil first others)).stop

/-- What the items of a list leave in the tree: the first, and then the others with the delimiters
before them. -/
def itemsNode (first : Entry) (others : List Entry) : Node Unit :=
  .branch .sequence (Span.of first.start.offset (lastStop first others).offset) [first.node,
    .branch (.repeated .zeroToMany) (Span.of first.stop.offset (lastStop first others).offset)
      (pairNodes first.stop others)]

/-- What a list leaves in the tree. -/
def listNode (first : Entry) (others : List Entry) : Node Unit :=
  .branch (.repeated .zeroToOne) (Span.of first.start.offset (lastStop first others).offset)
    [itemsNode first others]

/-- What a list without items leaves in the tree. -/
def emptyListNode (c : Cursor) : Node Unit :=
  .branch (.repeated .zeroToOne) (Span.of c.offset c.offset) []

/-- An empty list is told from any other by the children of its node, even if the items of the other
match the empty text. -/
theorem emptyListNode_ne_listNode (c : Cursor) (first : Entry) (others : List Entry) :
    emptyListNode c ≠ listNode first others := by
  intro h
  have hchildren : [] = [itemsNode first others] := congrArg Node.children h
  cases hchildren

/-- No further item can be had: there is no delimiter, or no item behind it. -/
def NoFurther (g : Grammar) (item : Expr) (delimiter : String) (c : Cursor) : Prop :=
  ¬ delimiter.toList <+: c.rest ∨
    ∃ behind offset, c.ReachesBy delimiter.toList behind ∧ Returns g item behind (.failed offset)

/-- The entries make a list of items that is as long as can be. -/
structure MaximalList (g : Grammar) (item : Expr) (delimiter : String) (entries : List Entry) :
    Prop where
  /-- Each entry is the match of the item where it begins. -/
  matched : ∀ b ∈ entries, Returns g item b.start (.matched b.node b.stop)
  /-- Exactly the delimiter stands between two entries. -/
  separated : entries.IsChain fun a b => a.stop.ReachesBy delimiter.toList b.start
  /-- A delimiter and the item behind it consumed something, unless they are the last. -/
  progress : entries.dropLast.IsChain fun a b => b.stop ≠ a.stop
  /-- No further item can be had, or the last delimiter and item consumed nothing. -/
  maximal : ∀ last ∈ entries.getLast?, NoFurther g item delimiter last.stop ∨
    ∃ before previous, entries = before ++ [previous, last] ∧ last.stop = previous.stop

section MaximalList

variable {g : Grammar} {item : Expr} {delimiter : String} {a b : Entry} {others : List Entry}

/-- The start of the induction along a list: one item alone is a maximal list if it is matched and
no further item can be had behind it. -/
theorem maximalList_singleton_iff :
    MaximalList g item delimiter [a] ↔
      Returns g item a.start (.matched a.node a.stop) ∧ NoFurther g item delimiter a.stop := by
  constructor
  · intro h
    refine ⟨h.matched a List.mem_cons_self, ?_⟩
    rcases h.maximal a rfl with hlast | ⟨before, previous, heq, -⟩
    · exact hlast
    · have hlength := congrArg List.length heq
      simp at hlength
  · rintro ⟨ha, hlast⟩
    refine ⟨by simpa using ha, .singleton a, .nil, ?_⟩
    rintro last ⟨⟩
    exact Or.inl hlast

/-- What follows the first item is again a maximal list, provided that the second item moved on. If
it did not, the list may have ended there for want of progress, which the rest by itself does not
show. -/
theorem MaximalList.tail (h : MaximalList g item delimiter (a :: b :: others))
    (hstop : b.stop ≠ a.stop) : MaximalList g item delimiter (b :: others) where
  matched := (List.forall_mem_cons.mp h.matched).2
  separated := h.separated.tail
  progress := h.progress.tail
  maximal last hlast := by
    rcases h.maximal last hlast with hfurther | ⟨before, previous, heq, hidle⟩
    · exact Or.inl hfurther
    · cases before with
      | nil =>
        cases heq
        exact absurd hidle hstop
      | cons _ before => exact Or.inr ⟨before, previous, (List.cons.inj heq).2, hidle⟩

/-- The other way round: an item and a delimiter in front of a maximal list make a longer one, if
the item behind the delimiter moved on. -/
theorem MaximalList.cons (h : MaximalList g item delimiter (b :: others))
    (ha : Returns g item a.start (.matched a.node a.stop))
    (hab : a.stop.ReachesBy delimiter.toList b.start) (hstop : b.stop ≠ a.stop) :
    MaximalList g item delimiter (a :: b :: others) where
  matched := List.forall_mem_cons.mpr ⟨ha, h.matched⟩
  separated := h.separated.cons_cons hab
  progress := by
    cases others with
    | nil => exact .singleton a
    | cons d others => exact h.progress.cons_cons hstop
  maximal last hlast := by
    rcases h.maximal last hlast with hfurther | ⟨before, previous, heq, hidle⟩
    · exact Or.inl hfurther
    · exact Or.inr ⟨a :: before, previous, congrArg (a :: ·) heq, hidle⟩

/-- The one way for a list to end without being stuck: the second of two items leaves the engine
where it was. -/
theorem maximalList_pair (ha : Returns g item a.start (.matched a.node a.stop))
    (hab : a.stop.ReachesBy delimiter.toList b.start)
    (hb : Returns g item b.start (.matched b.node b.stop)) (hidle : b.stop = a.stop) :
    MaximalList g item delimiter [a, b] where
  matched := by simp [ha, hb]
  separated := .cons_cons hab (.singleton b)
  progress := .singleton a
  maximal := by
    rintro last ⟨⟩
    exact Or.inr ⟨[], a, rfl, hidle⟩

/-- An item that leaves the engine where it was is the last of its list, since everything else in a
list makes progress. -/
theorem MaximalList.eq_nil_of_stop_eq (h : MaximalList g item delimiter (a :: b :: others))
    (hstop : b.stop = a.stop) : others = [] := by
  cases others with
  | nil => rfl
  | cons d others => exact absurd hstop (List.isChain_cons_cons.mp h.progress).1

end MaximalList

section Lists

variable {g : Grammar} {item : Expr} {delimiter : String} {c : Cursor}

theorem givesEach_singleton_iff {e : Expr} {o : Outcome (List (Node Unit))} :
    GivesEach g [e] c o ↔ ∃ part, Gives g e c part ∧ o = part.map fun node => [node] := by
  rw [givesEach_cons_iff]
  constructor
  · rintro (⟨node, stop, others, h, hothers, rfl⟩ | ⟨offset, h, rfl⟩)
    · rw [givesEach_nil_iff.mp hothers]
      exact ⟨_, h, rfl⟩
    · exact ⟨_, h, rfl⟩
  · rintro ⟨_ | _, h, rfl⟩
    · exact Or.inl ⟨_, _, _, h, givesEach_nil_iff.mpr rfl, rfl⟩
    · exact Or.inr ⟨_, h, rfl⟩

/-- A literal first: the others follow it, or it is missing. -/
theorem givesEach_literal_cons_iff {text : String} {es : List Expr}
    {o : Outcome (List (Node Unit))} :
    GivesEach g (.literal text :: es) c o ↔
      (¬ text.toList <+: c.rest ∧ o = .failed c.offset) ∨
      ∃ behind others, c.ReachesBy text.toList behind ∧ GivesEach g es behind others ∧
        o = others.map (literalNode c behind :: ·) := by
  simp only [givesEach_cons_iff, gives_literal_iff]
  constructor
  · rintro (⟨node, stop, others, ⟨behind, hbehind, ⟨⟩⟩ | ⟨-, ⟨⟩⟩, hothers, ho⟩ |
      ⟨offset, ⟨_, -, ⟨⟩⟩ | ⟨hmissing, ⟨⟩⟩, ho⟩)
    · exact Or.inr ⟨_, others, hbehind, hothers, ho⟩
    · exact Or.inl ⟨hmissing, ho⟩
  · rintro (⟨hmissing, ho⟩ | ⟨behind, others, hbehind, hothers, ho⟩)
    · exact Or.inr ⟨_, Or.inr ⟨hmissing, rfl⟩, ho⟩
    · exact Or.inl ⟨_, _, others, Or.inl ⟨behind, hbehind, rfl⟩, hothers, ho⟩

/-- The repeated part of a list is a delimiter with an item behind it. It fails for want of either,
at the place where the one that is missing was tried. -/
theorem gives_pair_iff {o : Outcome (Node Unit)} :
    Gives g (.sequence [.literal delimiter, item]) c o ↔
      (¬ delimiter.toList <+: c.rest ∧ o = .failed c.offset) ∨
      ∃ behind part, c.ReachesBy delimiter.toList behind ∧ Gives g item behind part ∧
        o = (part.map fun node => [literalNode c behind, node]).enclose .sequence c := by
  simp only [gives_sequence_iff, givesEach_literal_cons_iff, givesEach_singleton_iff]
  constructor
  · rintro ⟨parts, ⟨hmissing, rfl⟩ | ⟨behind, others, hbehind, ⟨part, hpart, rfl⟩, rfl⟩, ho⟩
    · exact Or.inl ⟨hmissing, ho⟩
    · refine Or.inr ⟨behind, part, hbehind, hpart, ?_⟩
      cases part <;> exact ho
  · rintro (⟨hmissing, ho⟩ | ⟨behind, part, hbehind, hpart, ho⟩)
    · exact ⟨_, Or.inl ⟨hmissing, rfl⟩, ho⟩
    · refine ⟨_, Or.inr ⟨behind, _, hbehind, ⟨part, hpart, rfl⟩, rfl⟩, ?_⟩
      cases part <;> exact ho

/-- What a round of a list leaves in the tree is determined by the item alone, so that rounds and
entries of a list correspond one to one. -/
theorem gives_pair_matched_iff {node : Node Unit} {stop : Cursor} :
    Gives g (.sequence [.literal delimiter, item]) c (.matched node stop) ↔
      ∃ b : Entry, c.ReachesBy delimiter.toList b.start ∧
        Gives g item b.start (.matched b.node b.stop) ∧ node = b.pairNode c ∧ stop = b.stop := by
  rw [gives_pair_iff]
  constructor
  · rintro (⟨-, ⟨⟩⟩ | ⟨behind, _ | _, hbehind, hpart, ⟨⟩⟩)
    exact ⟨⟨behind, _, _⟩, hbehind, hpart, rfl, rfl⟩
  · rintro ⟨b, hbehind, hpart, rfl, rfl⟩
    exact Or.inr ⟨b.start, _, hbehind, hpart, rfl⟩

/-- A round fails exactly where no further item can be had. This turns the last case of the engine's
loop into the condition by which `MaximalList` says that a list is as long as can be. -/
theorem exists_gives_pair_failed_iff (hitem : ∀ id ∈ item.refs, g.Declares id) :
    (∃ offset, Gives g (.sequence [.literal delimiter, item]) c (.failed offset)) ↔
      NoFurther g item delimiter c := by
  simp only [gives_pair_iff, NoFurther, returns_iff_gives hitem]
  constructor
  · rintro ⟨offset, ⟨hmissing, -⟩ | ⟨behind, _ | _, hbehind, hpart, ⟨⟩⟩⟩
    · exact Or.inl hmissing
    · exact Or.inr ⟨behind, offset, hbehind, hpart⟩
  · rintro (hmissing | ⟨behind, offset, hbehind, hpart⟩)
    · exact ⟨_, Or.inl ⟨hmissing, rfl⟩⟩
    · exact ⟨offset, Or.inr ⟨behind, _, hbehind, hpart, rfl⟩⟩

/-- The rounds behind a first item are the other items of a maximal list. -/
theorem givesMany_pair_iff (hitem : ∀ id ∈ item.refs, g.Declares id) {first : Entry}
    (hfirst : Returns g item first.start (.matched first.node first.stop))
    {o : Outcome (List (Node Unit))} :
    GivesMany g (.sequence [.literal delimiter, item]) first.stop o ↔
      ∃ others, MaximalList g item delimiter (first :: others) ∧
        o = .matched (pairNodes first.stop others) (lastStop first others) := by
  constructor
  · intro h
    induction hlength : first.stop.rest.length using Nat.strongRecOn generalizing first o with
    | ind length ih =>
      subst hlength
      rcases givesMany_iff.mp h with hstuck | ⟨node, hidle, rfl⟩ |
        ⟨node, stop, others, hpair, hne, hothers, rfl⟩
      · obtain ⟨offset, hfails, rfl⟩ := hstuck
        have hfurther := (exists_gives_pair_failed_iff hitem).mp ⟨offset, hfails⟩
        exact ⟨[], maximalList_singleton_iff.mpr ⟨hfirst, hfurther⟩, rfl⟩
      · obtain ⟨b, hbehind, hb, rfl, hstop⟩ := gives_pair_matched_iff.mp hidle
        have hb' := (returns_iff_gives hitem).mpr hb
        exact ⟨[b], maximalList_pair hfirst hbehind hb' hstop.symm,
          congrArg (Outcome.matched _) hstop⟩
      · obtain ⟨b, hbehind, hb, rfl, rfl⟩ := gives_pair_matched_iff.mp hpair
        have hb' := (returns_iff_gives hitem).mpr hb
        have hshorter : b.stop.rest.length < first.stop.rest.length := by
          by_contra hlt
          exact hne (hpair.reaches.eq_of_length_le (Nat.le_of_not_lt hlt))
        obtain ⟨rest, hlist, rfl⟩ := ih _ hshorter hb' hothers rfl
        exact ⟨b :: rest, hlist.cons hfirst hbehind hne, rfl⟩
  · rintro ⟨others, hlist, rfl⟩
    induction others generalizing first with
    | nil =>
      obtain ⟨offset, hfails⟩ := (exists_gives_pair_failed_iff hitem).mpr
        (maximalList_singleton_iff.mp hlist).2
      exact givesMany_iff.mpr (Or.inl ⟨offset, hfails, rfl⟩)
    | cons b others ih =>
      have hb := hlist.matched b (by simp)
      have hbehind := (List.isChain_cons_cons.mp hlist.separated).1
      have hpair : Gives g (.sequence [.literal delimiter, item]) first.stop
          (.matched (b.pairNode first.stop) b.stop) :=
        gives_pair_matched_iff.mpr ⟨b, hbehind, (returns_iff_gives hitem).mp hb, rfl, rfl⟩
      by_cases hstop : b.stop = first.stop
      · obtain rfl := hlist.eq_nil_of_stop_eq hstop
        rw [hstop] at hpair
        exact givesMany_iff.mpr (Or.inr (Or.inl ⟨_, hpair, congrArg (Outcome.matched _) hstop⟩))
      · exact givesMany_iff.mpr (Or.inr (Or.inr ⟨_, _, _, hpair, hstop,
          ih hb (hlist.tail hstop), rfl⟩))

/-- A list that is not optional: it fails with its first item, and otherwise it is a maximal list
that begins at the cursor. -/
theorem gives_items_iff (hitem : ∀ id ∈ item.refs, g.Declares id) {o : Outcome (Node Unit)} :
    Gives g (.sequence [item, .repeated (.sequence [.literal delimiter, item]) .zeroToMany]) c o ↔
      (∃ offset, Gives g item c (.failed offset) ∧ o = .failed offset) ∨
      ∃ first others, first.start = c ∧ MaximalList g item delimiter (first :: others) ∧
        o = .matched (itemsNode first others) (lastStop first others) := by
  rw [gives_sequence_iff]
  constructor
  · rintro ⟨parts, hparts, rfl⟩
    rcases givesEach_cons_iff.mp hparts with ⟨node, stop, others, hfirst, hothers, rfl⟩ |
      ⟨offset, hfails, rfl⟩
    · obtain ⟨part, hstar, rfl⟩ := givesEach_singleton_iff.mp hothers
      obtain ⟨rounds, hrounds, rfl⟩ := gives_star_iff.mp hstar
      let first : Entry := ⟨c, node, stop⟩
      have hreturns : Returns g item first.start (.matched first.node first.stop) :=
        (returns_iff_gives hitem).mpr hfirst
      obtain ⟨others, hlist, rfl⟩ := (givesMany_pair_iff hitem hreturns).mp hrounds
      exact Or.inr ⟨first, others, rfl, hlist, rfl⟩
    · exact Or.inl ⟨offset, hfails, rfl⟩
  · rintro (⟨offset, hfails, rfl⟩ | ⟨first, others, rfl, hlist, rfl⟩)
    · exact ⟨_, givesEach_cons_iff.mpr (Or.inr ⟨offset, hfails, rfl⟩), rfl⟩
    · have hfirst := hlist.matched first List.mem_cons_self
      have hrounds := (givesMany_pair_iff hitem hfirst).mpr ⟨others, hlist, rfl⟩
      have hstar := givesEach_singleton_iff.mpr ⟨_, gives_star_iff.mpr ⟨_, hrounds, rfl⟩, rfl⟩
      exact ⟨_, givesEach_cons_iff.mpr (Or.inl
        ⟨_, _, _, (returns_iff_gives hitem).mp hfirst, hstar, rfl⟩), rfl⟩

/-- What a list gives: nothing where the item fails, and otherwise a maximal list of items. -/
theorem gives_list_iff (hitem : ∀ id ∈ item.refs, g.Declares id) {o : Outcome (Node Unit)} :
    Gives g (.list item delimiter) c o ↔
      (∃ offset, Gives g item c (.failed offset) ∧ o = .matched (emptyListNode c) c) ∨
      ∃ first others, first.start = c ∧ MaximalList g item delimiter (first :: others) ∧
        o = .matched (listNode first others) (lastStop first others) := by
  simp only [Expr.list, gives_optional_iff, gives_items_iff hitem]
  constructor
  · rintro (⟨offset, ⟨_, hfails, ⟨⟩⟩ | ⟨_, _, -, -, ⟨⟩⟩, ho⟩ |
      ⟨node, stop, ⟨_, -, ⟨⟩⟩ | ⟨first, others, rfl, hlist, ⟨⟩⟩, ho⟩)
    · exact Or.inl ⟨offset, hfails, ho⟩
    · exact Or.inr ⟨first, others, rfl, hlist, ho⟩
  · rintro (⟨offset, hfails, ho⟩ | ⟨first, others, rfl, hlist, ho⟩)
    · exact Or.inl ⟨offset, Or.inl ⟨offset, hfails, rfl⟩, ho⟩
    · exact Or.inr ⟨_, _, Or.inr ⟨first, others, rfl, hlist, rfl⟩, ho⟩

/-- What a list in brackets leaves in the tree, where the list stands between `behind` and
`mid`. -/
def enclosedNode (c behind mid stop : Cursor) (list : Node Unit) : Node Unit :=
  .branch .sequence (Span.of c.offset stop.offset)
    [literalNode c behind, list, literalNode mid stop]

/-- A list never fails, since the worst that can happen to it is to be empty. -/
theorem exists_matched_of_gives_list (hitem : ∀ id ∈ item.refs, g.Declares id)
    {o : Outcome (Node Unit)} (h : Gives g (.list item delimiter) c o) :
    ∃ node stop, o = .matched node stop := by
  rcases (gives_list_iff hitem).mp h with ⟨_, -, ho⟩ | ⟨_, _, -, -, ho⟩
  · exact ⟨_, _, ho⟩
  · exact ⟨_, _, ho⟩

/-- A list in brackets fails for want of a bracket only, since the list between them always matches.
The failure is at the place of the bracket that is missing, the closing one being looked for where
the list ends. -/
theorem gives_enclosedList_iff (hitem : ∀ id ∈ item.refs, g.Declares id) {opening closing : String}
    {o : Outcome (Node Unit)} :
    Gives g (.enclosedList item delimiter opening closing) c o ↔
      (¬ opening.toList <+: c.rest ∧ o = .failed c.offset) ∨
      ∃ behind list mid, c.ReachesBy opening.toList behind ∧
        Gives g (.list item delimiter) behind (.matched list mid) ∧
        ((¬ closing.toList <+: mid.rest ∧ o = .failed mid.offset) ∨
          ∃ stop, mid.ReachesBy closing.toList stop ∧
            o = .matched (enclosedNode c behind mid stop list) stop) := by
  rw [Expr.enclosedList, gives_sequence_iff]
  constructor
  · rintro ⟨parts, hparts, rfl⟩
    rcases givesEach_literal_cons_iff.mp hparts with ⟨hmissing, rfl⟩ |
      ⟨behind, others, hbehind, hothers, rfl⟩
    · exact Or.inl ⟨hmissing, rfl⟩
    · rcases givesEach_cons_iff.mp hothers with ⟨list, mid, rest, hlist, hrest, rfl⟩ |
        ⟨offset, hfails, -⟩
      · refine Or.inr ⟨behind, list, mid, hbehind, hlist, ?_⟩
        rcases givesEach_literal_cons_iff.mp hrest with ⟨hmissing, rfl⟩ |
          ⟨stop, last, hstop, hlast, rfl⟩
        · exact Or.inl ⟨hmissing, rfl⟩
        · rw [givesEach_nil_iff.mp hlast]
          exact Or.inr ⟨stop, hstop, rfl⟩
      · obtain ⟨_, _, ⟨⟩⟩ := exists_matched_of_gives_list hitem hfails
  · rintro (⟨hmissing, rfl⟩ | ⟨behind, list, mid, hbehind, hlist, hclosing⟩)
    · exact ⟨_, givesEach_literal_cons_iff.mpr (Or.inl ⟨hmissing, rfl⟩), rfl⟩
    · have hwhole : ∀ rest, GivesEach g [.literal closing] mid rest →
          GivesEach g [.literal opening, .list item delimiter, .literal closing] c
            ((rest.map (list :: ·)).map (literalNode c behind :: ·)) := by
        intro rest hrest
        have hothers := givesEach_cons_iff.mpr (Or.inl ⟨_, _, _, hlist, hrest, rfl⟩)
        exact givesEach_literal_cons_iff.mpr (Or.inr ⟨_, _, hbehind, hothers, rfl⟩)
      rcases hclosing with ⟨hmissing, rfl⟩ | ⟨stop, hstop, rfl⟩
      · exact ⟨_, hwhole _ (givesEach_literal_cons_iff.mpr (Or.inl ⟨hmissing, rfl⟩)), rfl⟩
      · exact ⟨_, hwhole _ (givesEach_literal_cons_iff.mpr
          (Or.inr ⟨_, _, hstop, givesEach_nil_iff.mpr rfl, rfl⟩)), rfl⟩

end Lists

/-- **Lists are as long as can be.** Let the item refer to declared rules only. Wherever attempts
return,

* a list does not fail;
* it matches without items, and ends where it began, exactly where the item fails;
* otherwise it matches a maximal list of items with exactly the delimiter between each two, and
  ends where the last item ends: a delimiter with no item behind it is not consumed;
* a list between an opening and a closing text matches when the opening text stands at the cursor
  and the closing text where the list ends. Without the opening text it fails at the cursor, and
  without the closing text where the list ends. -/
theorem list_is_maximal {g : Grammar} {item : Expr} (hitem : ∀ id ∈ item.refs, g.Declares id)
    (delimiter : String) (c : Cursor) :
    (∀ offset, ¬ Returns g (.list item delimiter) c (.failed offset)) ∧
    (Returns g (.list item delimiter) c (.matched (emptyListNode c) c) ↔
      ∃ offset, Returns g item c (.failed offset)) ∧
    (∀ node stop, Returns g (.list item delimiter) c (.matched node stop) ↔
      (node = emptyListNode c ∧ stop = c ∧ ∃ offset, Returns g item c (.failed offset)) ∨
      ∃ first others, first.start = c ∧ MaximalList g item delimiter (first :: others) ∧
        node = listNode first others ∧ stop = lastStop first others) ∧
    ∀ opening closing o, Returns g (.enclosedList item delimiter opening closing) c o ↔
      (¬ opening.toList <+: c.rest ∧ o = .failed c.offset) ∨
      ∃ behind list mid, c.ReachesBy opening.toList behind ∧
        Returns g (.list item delimiter) behind (.matched list mid) ∧
        ((¬ closing.toList <+: mid.rest ∧ o = .failed mid.offset) ∨
          ∃ stop, mid.ReachesBy closing.toList stop ∧
            o = .matched (enclosedNode c behind mid stop list) stop) := by
  have hlist : ∀ id ∈ (Expr.list item delimiter).refs, g.Declares id := by
    simpa [Expr.list, Expr.refs, Expr.refsAll, Expr.literal] using hitem
  have henclosed : ∀ opening closing,
      ∀ id ∈ (Expr.enclosedList item delimiter opening closing).refs, g.Declares id := by
    simpa [Expr.enclosedList, Expr.refs, Expr.refsAll, Expr.literal] using hlist
  simp only [returns_iff_gives hlist, returns_iff_gives (henclosed _ _), returns_iff_gives hitem]
  refine ⟨?_, ?_, ?_, fun opening closing o => gives_enclosedList_iff hitem⟩
  · intro offset h
    obtain ⟨_, _, ⟨⟩⟩ := exists_matched_of_gives_list hitem h
  · rw [gives_list_iff hitem]
    constructor
    · rintro (⟨offset, hfails, -⟩ | ⟨first, others, -, -, heq⟩)
      · exact ⟨offset, hfails⟩
      · exact absurd (Outcome.matched.inj heq).1 (emptyListNode_ne_listNode c first others)
    · rintro ⟨offset, hfails⟩
      exact Or.inl ⟨offset, hfails, rfl⟩
  · intro node stop
    rw [gives_list_iff hitem]
    constructor
    · rintro (⟨offset, hfails, ⟨⟩⟩ | ⟨first, others, hstart, hmaximal, ⟨⟩⟩)
      · exact Or.inl ⟨rfl, rfl, offset, hfails⟩
      · exact Or.inr ⟨first, others, hstart, hmaximal, rfl, rfl⟩
    · rintro (⟨rfl, rfl, offset, hfails⟩ | ⟨first, others, hstart, hmaximal, rfl, rfl⟩)
      · exact Or.inl ⟨offset, hfails, rfl⟩
      · exact Or.inr ⟨first, others, hstart, hmaximal, rfl⟩

/-- Digits. -/
def digits : Grammar where
  rules := #[⟨"digit", [.charSet "12"], nofun⟩]
  start := ⟨0⟩
  valid := rfl

/-- A digit of a text. -/
def digitEntry (offset : Nat) (digit : Char) (rest : List Char) : Entry where
  start := ⟨offset, digit :: rest⟩
  node := .branch (.rule "digit") (.of offset (offset + 1)) [
    .leaf .charSet (.of offset (offset + 1)) ()]
  stop := ⟨offset + 1, rest⟩

/-- In `(1,2,)` the list ends before the second comma, and that is where the closing parenthesis
is missed. -/
theorem digits_before_comma :
    (∀ id ∈ (Expr.rule ⟨0⟩).refs, digits.Declares id) ∧
    Returns digits (.list (.rule ⟨0⟩) ",") ⟨1, "1,2,)".toList⟩ (.matched
      (listNode (digitEntry 1 '1' ",2,)".toList) [digitEntry 3 '2' ",)".toList])
      ⟨4, ",)".toList⟩) ∧
    Returns digits (.enclosedList (.rule ⟨0⟩) "," "(" ")") (.start "(1,2,)".toList)
      (.failed 4) := by
  have hitem : ∀ id ∈ (Expr.rule ⟨0⟩).refs, digits.Declares id := by decide
  have hfirst : Returns digits (.rule ⟨0⟩) ⟨1, "1,2,)".toList⟩ (.matched
      (digitEntry 1 '1' ",2,)".toList).node ⟨2, ",2,)".toList⟩) :=
    (returns_iff_gives hitem).mpr ⟨1, _, .rule rfl (.hit (.accepted rfl rfl)) rfl⟩
  have hsecond : Returns digits (.rule ⟨0⟩) ⟨3, "2,)".toList⟩ (.matched
      (digitEntry 3 '2' ",)".toList).node ⟨4, ",)".toList⟩) :=
    (returns_iff_gives hitem).mpr ⟨1, _, .rule rfl (.hit (.accepted rfl rfl)) rfl⟩
  have hnone : Returns digits (.rule ⟨0⟩) ⟨5, ")".toList⟩ (.failed 5) :=
    (returns_iff_gives hitem).mpr ⟨1, _, .rule rfl (.miss (.rejected rfl) .nil) rfl⟩
  have hmaximal : MaximalList digits (.rule ⟨0⟩) ","
      [digitEntry 1 '1' ",2,)".toList, digitEntry 3 '2' ",)".toList] :=
    (maximalList_singleton_iff.mpr ⟨hsecond, Or.inr ⟨_, 5, by decide, hnone⟩⟩).cons hfirst
      (by decide) (by decide)
  obtain ⟨-, -, hlist, -⟩ := list_is_maximal hitem "," ⟨1, "1,2,)".toList⟩
  obtain ⟨-, -, -, henclosed⟩ := list_is_maximal hitem "," (.start "(1,2,)".toList)
  have hreturns := (hlist _ _).mpr (Or.inr ⟨_, _, rfl, hmaximal, rfl, rfl⟩)
  exact ⟨hitem, hreturns, (henclosed "(" ")" _).mpr
    (Or.inr ⟨_, _, _, by decide, hreturns, Or.inl ⟨by decide, rfl⟩⟩)⟩

end PegGrammar
