import PegGrammar.Grammar.Basic
import PegGrammar.Proofs.Position

/-!
# Recognition

What a parsing expression means, said without an engine: `Recognizes g text e i v` is the textbook
big-step semantics of parsing expressions, over byte offsets of a text. A verdict is that the
expression ends at an offset, or that it fails; an expression that has neither verdict at an
offset has no meaning there, which happens exactly when rules call each other in a circle without
consuming anything.

The rules do not mention cursors, nodes, failure offsets, observers or counts of rounds. That the
engine computes this relation is proved in `PegGrammar.Proofs.RecognitionRuns`.

## Main definitions

* `Terminal.Accepts` — what terminals accept, on the characters of the text
* `Verdict`, `Recognizes` — the semantics

## Main results

* `Recognizes.choice_hit`, `choice_miss` — ordered choice, one alternative at a time
* `Terminal.accepts_iff` — terminals accept the same at an offset and at the cursor there
-/

namespace PegGrammar

/-! ### Terminals -/

namespace Text

/-- The character that begins at an offset of the text. -/
def CharAt (text : List Char) (i : Nat) (x : Char) : Prop :=
  ∃ front back, text = front ++ x :: back ∧ byteLength front = i

/-- The part that stands at an offset of the text. -/
def PartAt (text : List Char) (i : Nat) (part : List Char) : Prop :=
  ∃ front back, text = front ++ part ++ back ∧ byteLength front = i

end Text

/-- What a terminal accepts, from one offset of a text to another. -/
def Terminal.Accepts (text : List Char) (i j : Nat) : Terminal → Prop
  | .literal s => Text.PartAt text i s.toList ∧ j = i + Text.byteLength s.toList
  | .charSet set => ∃ x, Text.CharAt text i x ∧ x ∈ set.chars ∧ j = i + x.utf8Size
  | .charRange first last =>
    ∃ x, Text.CharAt text i x ∧ (first ≤ x ∧ x ≤ last) ∧ j = i + x.utf8Size
  | .any => ∃ x, Text.CharAt text i x ∧ j = i + x.utf8Size
  | .endOfInput => i = Text.byteLength text ∧ j = i

/-! ### The semantics -/

/-- What an expression makes of the text at an offset. -/
inductive Verdict where
  /-- It matches up to that offset. -/
  | ends (offset : Nat)
  /-- It does not match. -/
  | fails
  deriving DecidableEq, Repr

/-- The meaning of parsing expressions over a text: at an offset, an expression has a verdict. -/
inductive Recognizes (g : Grammar) (text : List Char) : Expr → Nat → Verdict → Prop
  /-- A terminal ends where it accepts the text. -/
  | accepts {t : Terminal} {i j : Nat} : t.Accepts text i j →
    Recognizes g text (.terminal t) i (.ends j)
  /-- A terminal that accepts nothing fails. -/
  | rejects {t : Terminal} {i : Nat} : (∀ j, ¬ t.Accepts text i j) →
    Recognizes g text (.terminal t) i .fails
  /-- A sequence without elements ends where it starts. -/
  | sequence_nil {i : Nat} : Recognizes g text (.sequence []) i (.ends i)
  /-- An element that ends is followed by the others. -/
  | sequence_cons {e : Expr} {es : List Expr} {i j : Nat} {v : Verdict} :
    Recognizes g text e i (.ends j) → Recognizes g text (.sequence es) j v →
    Recognizes g text (.sequence (e :: es)) i v
  /-- The first element that fails is the failure of the sequence. -/
  | sequence_fails {e : Expr} {es : List Expr} {i : Nat} :
    Recognizes g text e i .fails → Recognizes g text (.sequence (e :: es)) i .fails
  /-- An alternative is taken if it ends and all before it fail. -/
  | choice_takes {before after : List Expr} {e : Expr} {i j : Nat} :
    (∀ b ∈ before, Recognizes g text b i .fails) → Recognizes g text e i (.ends j) →
    Recognizes g text (.choice (before ++ e :: after)) i (.ends j)
  /-- A choice fails if all its alternatives fail. -/
  | choice_fails {es : List Expr} {i : Nat} : (∀ e ∈ es, Recognizes g text e i .fails) →
    Recognizes g text (.choice es) i .fails
  /-- `e?` ends where `e` ends. -/
  | optional_takes {e : Expr} {i j : Nat} : Recognizes g text e i (.ends j) →
    Recognizes g text (.repeated e .zeroToOne) i (.ends j)
  /-- `e?` ends where it starts if `e` fails. -/
  | optional_skips {e : Expr} {i : Nat} : Recognizes g text e i .fails →
    Recognizes g text (.repeated e .zeroToOne) i (.ends i)
  /-- `e*` ends where it starts if `e` fails. -/
  | star_stops {e : Expr} {i : Nat} : Recognizes g text e i .fails →
    Recognizes g text (.repeated e .zeroToMany) i (.ends i)
  /-- `e*` ends where it starts if `e` consumes nothing. -/
  | star_idles {e : Expr} {i : Nat} : Recognizes g text e i (.ends i) →
    Recognizes g text (.repeated e .zeroToMany) i (.ends i)
  /-- Otherwise `e*` goes on from where `e` ends. -/
  | star_again {e : Expr} {i j : Nat} {v : Verdict} : Recognizes g text e i (.ends j) → j ≠ i →
    Recognizes g text (.repeated e .zeroToMany) j v →
    Recognizes g text (.repeated e .zeroToMany) i v
  /-- `e+` fails if `e` fails. -/
  | plus_fails {e : Expr} {i : Nat} : Recognizes g text e i .fails →
    Recognizes g text (.repeated e .oneToMany) i .fails
  /-- Otherwise `e+` ends where `e*` ends. -/
  | plus_ends {e : Expr} {i j : Nat} {v : Verdict} : Recognizes g text e i (.ends j) →
    Recognizes g text (.repeated e .zeroToMany) i v →
    Recognizes g text (.repeated e .oneToMany) i v
  /-- A rule is the choice between its alternatives. -/
  | rule {id : RuleId} {r : Rule} {i : Nat} {v : Verdict} : g.rule? id = some r →
    Recognizes g text (.choice r.alternatives) i v → Recognizes g text (.rule id) i v

namespace Recognizes

variable {g : Grammar} {text : List Char} {e : Expr} {es : List Expr} {i j : Nat} {v : Verdict}

/-! ### Choices, one alternative at a time -/

theorem choice_hit (h : Recognizes g text e i (.ends j)) :
    Recognizes g text (.choice (e :: es)) i (.ends j) := by
  have htakes : Recognizes g text (.choice ([] ++ e :: es)) i (.ends j) :=
    choice_takes (fun _ hb => absurd hb List.not_mem_nil) h
  exact htakes

/-- A choice whose first alternative fails is the choice of the others. The definition speaks of all
alternatives before the one that matches, and this is the step of the induction over them. -/
theorem choice_miss (h : Recognizes g text e i .fails)
    (hs : Recognizes g text (.choice es) i v) : Recognizes g text (.choice (e :: es)) i v := by
  cases hs with
  | @choice_takes before after taken _ _ hb he =>
    have htakes : Recognizes g text (.choice ((e :: before) ++ taken :: after)) i _ :=
      choice_takes (List.forall_mem_cons.mpr ⟨h, hb⟩) he
    exact htakes
  | choice_fails hall => exact choice_fails (List.forall_mem_cons.mpr ⟨h, hall⟩)

end Recognizes

/-! ### Terminals at a cursor

A cursor of the text carries the rest of it, and the split at an offset is unique, so what stands
at the offset of a cursor is what its rest begins with. -/

section Terminals

variable {text : List Char} {c : Cursor} {j : Nat}

/-- A cursor of a text is determined by its offset: whoever cuts the text there finds the rest of
the cursor behind the cut. -/
theorem Cursor.rest_eq_of_split {front back : List Char} (hc : (Cursor.start text).Reaches c)
    (htext : text = front ++ back) (hlen : Text.byteLength front = c.offset) : c.rest = back := by
  obtain ⟨front', hfront, hoff⟩ := hc
  have hrest : some c.rest = some back := by
    rw [← Text.dropBytes?_append front', ← Text.dropBytes?_append front back, ← htext, hlen, hoff]
    simp only [Cursor.start, Nat.zero_add] at hfront ⊢
    rw [hfront]
  exact Option.some.inj hrest

/-- What stands in a text at an offset is what the rest of the cursor there begins with. So
terminals, which look at the rest, can be described by offsets. -/
theorem Text.partAt_iff {part : List Char} (hc : (Cursor.start text).Reaches c) :
    Text.PartAt text c.offset part ↔ ∃ back, c.rest = part ++ back := by
  constructor
  · rintro ⟨front, back, htext, hlen⟩
    exact ⟨back, Cursor.rest_eq_of_split hc (by rw [htext, List.append_assoc]) hlen⟩
  · rintro ⟨back, hrest⟩
    obtain ⟨front, hfront, hoff⟩ := hc
    refine ⟨front, back, ?_, by rw [hoff, Cursor.start, Nat.zero_add]⟩
    rw [List.append_assoc, ← hrest]
    exact hfront

theorem Text.charAt_iff {x : Char} (hc : (Cursor.start text).Reaches c) :
    Text.CharAt text c.offset x ↔ ∃ back, c.rest = x :: back := by
  have hpart : Text.CharAt text c.offset x ↔ Text.PartAt text c.offset [x] := by
    simp [Text.CharAt, Text.PartAt]
  rw [hpart, Text.partAt_iff hc]
  simp

theorem Cursor.exists_next?_iff {p : Char → Bool} (hc : (Cursor.start text).Reaches c) :
    (∃ stop, c.next? p = some stop ∧ stop.offset = j) ↔
      ∃ x, Text.CharAt text c.offset x ∧ p x = true ∧ j = c.offset + x.utf8Size := by
  simp only [Cursor.next?_eq_some_iff, Text.charAt_iff hc]
  constructor
  · rintro ⟨stop, ⟨x, hrest, hp, hoff⟩, rfl⟩
    exact ⟨x, ⟨_, hrest⟩, hp, hoff⟩
  · rintro ⟨x, ⟨back, hrest⟩, hp, rfl⟩
    exact ⟨⟨_, back⟩, ⟨x, hrest, hp, rfl⟩, rfl⟩

/-- A terminal accepts what it accepts at the cursor. -/
theorem Terminal.accepts_iff {t : Terminal} (hc : (Cursor.start text).Reaches c) :
    t.Accepts text c.offset j ↔ ∃ stop, t.accept? c = some stop ∧ stop.offset = j := by
  cases t with
  | literal s =>
    simp only [Terminal.Accepts, Terminal.accept?, Cursor.skip?_eq_some_iff, Text.partAt_iff hc]
    constructor
    · rintro ⟨⟨back, hrest⟩, rfl⟩
      exact ⟨⟨_, back⟩, ⟨hrest, rfl⟩, rfl⟩
    · rintro ⟨stop, ⟨hrest, hoff⟩, rfl⟩
      exact ⟨⟨_, hrest⟩, hoff⟩
  | charSet set =>
    rw [Terminal.accept?, Cursor.exists_next?_iff hc]
    simp [Terminal.Accepts, CharSet.contains]
  | charRange first last =>
    rw [Terminal.accept?, Cursor.exists_next?_iff hc]
    simp [Terminal.Accepts]
  | any =>
    rw [Terminal.accept?, Cursor.exists_next?_iff hc]
    simp [Terminal.Accepts]
  | endOfInput =>
    simp only [Terminal.Accepts, Terminal.accept?, List.isEmpty_iff, Cursor.rest_eq_nil_iff hc,
      Option.ite_none_right_eq_some, Option.some.injEq]
    constructor
    · rintro ⟨hend, rfl⟩
      exact ⟨c, ⟨hend, rfl⟩, rfl⟩
    · rintro ⟨_, ⟨hend, rfl⟩, rfl⟩
      exact ⟨hend, rfl⟩

end Terminals

end PegGrammar
