import PegGrammar.Parse.Basic
import PegGrammar.Proofs.Reach

/-!
# What the nodes of a match cover

A node covers the text between the cursor at which it was tried and the one at which it stopped.
Below it the same holds of every child, and the cursors fit together: the first child starts where
the node starts, each child where the one before it stopped, and the node stops where the last
child does. `Covers` says this of a whole tree at once.

## Why cursors and not spans

Spans are stored in 32 bits and saturate, so a chain of spans could fit together by accident. The
cursors are the ones of the match itself. That the spans agree with them is a consequence for
texts that are short enough (`Span.toNat_of`), and is used only where a span is read.

## The parameter

`Covers P` says in addition that `P` holds of each node and its two cursors. Nothing above needs
it, but it lets one definition serve the tree that matching yields, where `P` names the attempt
that yielded the node, and the tree with lexemes, where `P` says which node it came from.

## Main results

* `Runs.covers` — the node of a match covers the text from where it was tried to where it stopped
* `Covers.exists_withLexemes` — lexemes can be attached to every node that covers some text
-/

namespace PegGrammar

variable {α : Type}

mutual

/-- The node covers the text between two cursors, and so does every node below it. -/
inductive Covers (P : Node α → Cursor → Cursor → Prop) : Node α → Cursor → Cursor → Prop
  /-- A leaf covers what lies ahead up to some cursor. -/
  | leaf {label : Label} {lexeme : α} {c d : Cursor} :
    c.Reaches d →
    P (.leaf label (Span.of c.offset d.offset) lexeme) c d →
    Covers P (.leaf label (Span.of c.offset d.offset) lexeme) c d
  /-- A branch covers what its children cover together. -/
  | branch {label : Label} {children : List (Node α)} {c d : Cursor} :
    CoversAll P children c d →
    P (.branch label (Span.of c.offset d.offset) children) c d →
    Covers P (.branch label (Span.of c.offset d.offset) children) c d

/-- The nodes cover the text between two cursors, each where the one before it stopped. -/
inductive CoversAll (P : Node α → Cursor → Cursor → Prop) :
    List (Node α) → Cursor → Cursor → Prop
  /-- No nodes cover no text. -/
  | nil {c : Cursor} : CoversAll P [] c c
  /-- The first node, and then the others. -/
  | cons {n : Node α} {ns : List (Node α)} {c mid d : Cursor} :
    Covers P n c mid → CoversAll P ns mid d → CoversAll P (n :: ns) c d

end

/-! ### Reading a covering -/

/-- The span of a node is read off the two cursors, whatever else is known of it. -/
theorem Covers.span_eq {P : Node α → Cursor → Cursor → Prop} {n : Node α} {c d : Cursor}
    (h : Covers P n c d) : n.span = Span.of c.offset d.offset := by
  cases h <;> rfl

theorem Covers.holds {P : Node α → Cursor → Cursor → Prop} {n : Node α} {c d : Cursor}
    (h : Covers P n c d) : P n c d := by
  cases h <;> assumption

mutual

theorem Covers.reaches {P : Node α → Cursor → Cursor → Prop} {n : Node α} {c d : Cursor} :
    Covers P n c d → c.Reaches d
  | .leaf h _ => h
  | .branch hs _ => hs.reaches

theorem CoversAll.reaches {P : Node α → Cursor → Cursor → Prop} {ns : List (Node α)}
    {c d : Cursor} : CoversAll P ns c d → c.Reaches d
  | .nil => .refl _
  | .cons h hs => h.reaches.trans hs.reaches

end

mutual

/-- A property of the nodes of a tree can be replaced by a weaker one. The records of parts become
records of the whole in this way. -/
theorem Covers.mono {P Q : Node α → Cursor → Cursor → Prop} (hPQ : ∀ n c d, P n c d → Q n c d)
    {n : Node α} {c d : Cursor} : Covers P n c d → Covers Q n c d
  | .leaf h hP => .leaf h (hPQ _ _ _ hP)
  | .branch hs hP => .branch (hs.mono hPQ) (hPQ _ _ _ hP)

theorem CoversAll.mono {P Q : Node α → Cursor → Cursor → Prop}
    (hPQ : ∀ n c d, P n c d → Q n c d) {ns : List (Node α)} {c d : Cursor} :
    CoversAll P ns c d → CoversAll Q ns c d
  | .nil => .nil
  | .cons h hs => .cons (h.mono hPQ) (hs.mono hPQ)

end

/-- Nodes that follow one another without a gap can be joined to a longer row, the end of the one
being the beginning of the other. -/
theorem CoversAll.append {P : Node α → Cursor → Cursor → Prop} {ms ns : List (Node α)}
    {c mid d : Cursor} (hm : CoversAll P ms c mid) (hn : CoversAll P ns mid d) :
    CoversAll P (ms ++ ns) c d := by
  induction ms generalizing c with
  | nil => cases hm; exact hn
  | cons m ms ih =>
    obtain _ | ⟨h, hs⟩ := hm
    exact .cons h (ih hs)

/-! ### The nodes of a match -/

/-- What a match yields has a property. Failures yield nothing. -/
def Outcome.OnMatch (Q : α → Cursor → Prop) : Outcome α → Prop
  | .matched value stop => Q value stop
  | .failed _ => True

namespace Engine

/-- The node was yielded by an attempt on record. -/
def Made (steps : List Step) (n : Node Unit) (c d : Cursor) : Prop :=
  ∃ e, .settled e c (.matched n d) ∈ steps

/-- A node that was made in part of a record was made in the whole of it. -/
theorem Made.subset {steps more : List Step} (hsub : steps ⊆ more) (n : Node Unit)
    (c d : Cursor) (h : Made steps n c d) : Made more n c d := by
  obtain ⟨e, he⟩ := h
  exact ⟨e, hsub he⟩

/-- The last step of an attempt is its outcome. -/
theorem made_framed (e : Expr) (c : Cursor) (body : List Step) (n : Node Unit) (d : Cursor) :
    Made (framed e c body (.matched n d)) n c d :=
  ⟨e, List.mem_append_right _ (List.mem_singleton.mpr rfl)⟩

theorem subset_framed {body inner : List Step} (hsub : inner ⊆ body) (e : Expr) (c : Cursor)
    (o : Outcome (Node Unit)) : inner ⊆ framed e c body o := by
  intro s hs
  exact List.mem_append_left _ (List.mem_cons_of_mem _ (hsub hs))

/-- A combination covers what its parts cover. -/
theorem covers_enclose {e : Expr} {c : Cursor} {inner body : List Step} {label : Label}
    {parts : Outcome (List (Node Unit))}
    (h : parts.OnMatch fun ns d => CoversAll (Made inner) ns c d) (hsub : inner ⊆ body) :
    (parts.enclose label c).OnMatch fun n d =>
      Covers (Made (framed e c body (parts.enclose label c))) n c d := by
  cases parts with
  | failed offset => trivial
  | matched children stop =>
    exact .branch (CoversAll.mono (Made.subset (subset_framed hsub e c _)) h)
      (made_framed e c body _ stop)

theorem onMatch_singleton {P : Node Unit → Cursor → Cursor → Prop} {c : Cursor}
    {part : Outcome (Node Unit)} (h : part.OnMatch fun n d => Covers P n c d) :
    (part.map fun n => [n]).OnMatch fun ns d => CoversAll P ns c d := by
  cases part with
  | failed offset => trivial
  | matched n stop => exact .cons h .nil

/-- A node that was yielded first covers the text in front of the others. -/
theorem onMatch_cons {first more : List Step} {n : Node Unit} {c stop : Cursor}
    {others : Outcome (List (Node Unit))} (h : Covers (Made first) n c stop)
    (hs : others.OnMatch fun ns d => CoversAll (Made more) ns stop d) :
    (others.map (n :: ·)).OnMatch fun ns d => CoversAll (Made (first ++ more)) ns c d := by
  cases others with
  | failed offset => trivial
  | matched ns d =>
    exact .cons (h.mono (Made.subset (List.subset_append_left first more)))
      (CoversAll.mono (Made.subset (List.subset_append_right first more)) hs)

variable {g : Grammar}

mutual

theorem Runs.covers {n : Nat} {e : Expr} {c : Cursor} {steps : List Step}
    {o : Outcome (Node Unit)} :
    Runs g n e c steps o → o.OnMatch fun node d => Covers (Made steps) node c d
  | .accepted h ho => by
    subst ho
    exact .leaf (Terminal.reaches_of_accept? h) (made_framed _ _ _ _ _)
  | .rejected _ => trivial
  | .sequence h ho => by
    subst ho
    exact covers_enclose h.covers (List.subset_append_left _ _)
  | .choice h ho => by
    subst ho
    exact covers_enclose (onMatch_singleton h.covers) (List.subset_append_left _ _)
  | .repeated h ho => by
    subst ho
    exact covers_enclose h.covers (List.subset_append_left _ _)
  | .rule _ h ho => by
    subst ho
    refine covers_enclose (onMatch_singleton h.covers) ?_
    exact List.subset_append_of_subset_left _ (List.subset_cons_self _ _)

theorem RunsEach.covers {n : Nat} {es : List Expr} {c : Cursor} {steps : List Step}
    {o : Outcome (List (Node Unit))} :
    RunsEach g n es c steps o → o.OnMatch fun nodes d => CoversAll (Made steps) nodes c d
  | .nil => .nil
  | .cons h hs => onMatch_cons h.covers hs.covers
  | .stuck _ => trivial

theorem RunsFirst.covers {n : Nat} {es : List Expr} {c : Cursor} {furthest : Nat}
    {steps : List Step} {o : Outcome (Node Unit)} :
    RunsFirst g n es c furthest steps o → o.OnMatch fun node d => Covers (Made steps) node c d
  | .nil => trivial
  | .hit h => h.covers
  | @RunsFirst.miss _ _ _ _ _ _ _ first more o _ hs => by
    have hcovers := hs.covers
    cases o with
    | failed offset => trivial
    | matched node stop =>
      exact Covers.mono (Made.subset (List.subset_append_right _ more)) hcovers

theorem RunsMany.covers {n : Nat} {e : Expr} {bounds : Bounds} {count : Nat} {c : Cursor}
    {steps : List Step} {o : Outcome (List (Node Unit))} :
    RunsMany g n e bounds count c steps o →
      o.OnMatch fun nodes d => CoversAll (Made steps) nodes c d
  | .full _ => .nil
  | .enough _ _ _ => .nil
  | .tooFew _ _ _ => trivial
  | .idle _ h _ => .cons h.covers .nil
  | .again _ h _ hm => onMatch_cons h.covers hm.covers

end

end Engine

/-! ### Attaching lexemes -/

/-- The span between two cursors records their offsets exactly if the text ends early enough. -/
theorem Span.toNat_of_fits {c d : Cursor}
    (hfits : c.offset + Text.byteLength c.rest ≤ maxInputLength) (hd : c.Reaches d) :
    (Span.of c.offset d.offset).start.toNat = c.offset ∧
      (Span.of c.offset d.offset).stop.toNat = d.offset := by
  have hsize : maxInputLength < UInt32.size := by decide
  have hend := hd.offset_add_byteLength_rest
  exact ⟨toNat_saturate (by omega), toNat_saturate (by omega)⟩

/-- Between cursors of a text that is not too long, the offsets of a span are exact. This is what
the bound on the length of a text is for. -/
theorem Span.toNat_of {text : List Char} (hlen : Text.byteLength text ≤ maxInputLength)
    {c d : Cursor} (hc : (Cursor.start text).Reaches c) (hd : c.Reaches d) :
    (Span.of c.offset d.offset).start.toNat = c.offset ∧
      (Span.of c.offset d.offset).stop.toNat = d.offset :=
  Span.toNat_of_fits (Cursor.offset_add_byteLength_rest hc ▸ hlen) hd

/-- The span between two cursors cuts out the text between them. -/
theorem Span.exists_slice_of {text : List Char} (hlen : Text.byteLength text ≤ maxInputLength)
    {c d : Cursor} (hc : (Cursor.start text).Reaches c) (hd : c.Reaches d) :
    ∃ part, (Span.of c.offset d.offset).slice text = .ok part ∧ c.rest = part ++ d.rest := by
  obtain ⟨part, hpart, hrest⟩ := Cursor.slice?_eq_some_of_reaches hc hd
  obtain ⟨hstart, hstop⟩ := Span.toNat_of hlen hc hd
  refine ⟨part, ?_, hrest⟩
  rw [slice, hstart, hstop, Text.slice, hpart]

/-- The node is what attaching the lexemes of the text made of a node with a property. -/
def Lexed (text : List Char) (P : Node Unit → Cursor → Cursor → Prop) (n : Node String)
    (c d : Cursor) : Prop :=
  ∃ raw : Node Unit, raw.withLexemes text = .ok n ∧ P raw c d

theorem Node.withLexemes_leaf {text part : List Char} {span : Span}
    (h : span.slice text = .ok part) (label : Label) :
    (Node.leaf label span ()).withLexemes text = .ok (.leaf label span (String.ofList part)) := by
  rw [Node.withLexemes, h]
  rfl

theorem Node.withLexemes_branch {text : List Char} {children : List (Node Unit)}
    {lexed : List (Node String)} (h : Node.withLexemesAll text children = .ok lexed)
    (label : Label) (span : Span) :
    (Node.branch label span children).withLexemes text = .ok (.branch label span lexed) := by
  rw [Node.withLexemes, h]
  rfl

theorem Node.withLexemesAll_cons {text : List Char} {n : Node Unit} {ns : List (Node Unit)}
    {t : Node String} {ts : List (Node String)} (h : n.withLexemes text = .ok t)
    (hs : Node.withLexemesAll text ns = .ok ts) :
    Node.withLexemesAll text (n :: ns) = .ok (t :: ts) := by
  rw [Node.withLexemesAll, h, hs]
  rfl

mutual

/-- **Attaching lexemes never fails.** Every span of the tree lies between two cursors of the text,
and so it can be cut out of the text. -/
theorem Covers.exists_withLexemes {P : Node Unit → Cursor → Cursor → Prop} {text : List Char}
    (hlen : Text.byteLength text ≤ maxInputLength) {n : Node Unit} {c d : Cursor} :
    Covers P n c d → (Cursor.start text).Reaches c →
      ∃ t, n.withLexemes text = .ok t ∧ Covers (Lexed text P) t c d
  | @Covers.leaf _ _ label _ _ _ h hP, hc => by
    obtain ⟨part, hpart, _⟩ := Span.exists_slice_of hlen hc h
    have hlexed := Node.withLexemes_leaf hpart label
    exact ⟨_, hlexed, .leaf h ⟨_, hlexed, hP⟩⟩
  | @Covers.branch _ _ label _ c d hs hP, hc => by
    obtain ⟨ts, hts, hcovers⟩ := hs.exists_withLexemesAll hlen hc
    have hlexed := Node.withLexemes_branch hts label (Span.of c.offset d.offset)
    exact ⟨_, hlexed, .branch hcovers ⟨_, hlexed, hP⟩⟩

theorem CoversAll.exists_withLexemesAll {P : Node Unit → Cursor → Cursor → Prop}
    {text : List Char} (hlen : Text.byteLength text ≤ maxInputLength) {ns : List (Node Unit)}
    {c d : Cursor} : CoversAll P ns c d → (Cursor.start text).Reaches c →
      ∃ ts, Node.withLexemesAll text ns = .ok ts ∧ CoversAll (Lexed text P) ts c d
  | .nil, _ => ⟨[], rfl, .nil⟩
  | .cons h hs, hc => by
    obtain ⟨t, ht, hcovers⟩ := h.exists_withLexemes hlen hc
    obtain ⟨ts, hts, hall⟩ := hs.exists_withLexemesAll hlen (hc.trans h.reaches)
    exact ⟨t :: ts, Node.withLexemesAll_cons ht hts, .cons hcovers hall⟩

end

end PegGrammar
