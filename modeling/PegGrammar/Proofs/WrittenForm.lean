import Mathlib.Data.List.Basic
import PegGrammar.Expr.Printer
import PegGrammar.Proofs.Subexpressions

/-!
# The written form of an expression

The text of an expression does not show everything about it. A sequence within a sequence is
written without a sign of its own, a choice of one alternative looks like the parentheses around a
repeated sequence, and a sequence of one element looks like the element. What the text does show is
a phrase: items with a blank between them, where an item is a word or a group in parentheses, and
has the signs of repetition behind it.

## The blank in front

Joining texts with a separator treats the first one differently from the others, and proofs about
it have to do the same. So the writers here put a blank in front of *every* item: the text of the
phrase is then the text of its first part followed by that of the rest, wherever it is cut. The
one blank too many stands in `cons_write_eq`, and nowhere else.

## Main definitions

* `Word`, `Item` — what a phrase consists of
* `Expr.phrase` — the phrase that an expression is written as

## Main results

* `Expr.cons_write_eq` — the text of an expression is the text of its phrase
-/

namespace PegGrammar

/-! ### Phrases -/

/-- A word of the notation. -/
inductive Word where
  /-- A terminal. -/
  | terminal (t : Terminal)
  /-- The name of a rule. -/
  | rule (id : RuleId)

/-- An item of a phrase, with the signs of repetition behind it in the order in which they are
read. -/
inductive Item where
  /-- A word. -/
  | word (w : Word) (signs : List Bounds)
  /-- Phrases in parentheses, with a bar between them. There is always a first one. -/
  | group (first : List Item) (others : List (List Item)) (signs : List Bounds)

namespace Item

/-- Put one more sign behind an item. -/
def sign (b : Bounds) : Item → Item
  | .word w signs => .word w (signs ++ [b])
  | .group first others signs => .group first others (signs ++ [b])

/-- Put one more sign behind a phrase. It is read as belonging to the last item. -/
def signLast (b : Bounds) : List Item → List Item
  | [] => []
  | [item] => [item.sign b]
  | item :: next :: items => item :: signLast b (next :: items)

end Item

/-! ### Writing phrases -/

section Write

variable (name : RuleId → String)

/-- The text of a word. -/
def Word.write : Word → List Char
  | .terminal t => t.write
  | .rule id => (name id).toList

/-- The signs of repetition behind an item. -/
def writeSigns (signs : List Bounds) : List Char := signs.map Bounds.symbol

mutual

/-- The text of an item. -/
def Item.write : Item → List Char
  | .word w signs => w.write name ++ writeSigns signs
  | .group first others signs =>
    '(' :: (Item.writeAll first ++ (Item.writeBars others ++ ' ' :: ')' :: writeSigns signs))

/-- The text of items, each with a blank in front. -/
def Item.writeAll : List Item → List Char
  | [] => []
  | item :: items => ' ' :: (item.write ++ Item.writeAll items)

/-- The text of phrases, each with a bar in front. -/
def Item.writeBars : List (List Item) → List Char
  | [] => []
  | phrase :: phrases => ' ' :: '|' :: (Item.writeAll phrase ++ Item.writeBars phrases)

end

end Write

/-! ### The phrase of an expression -/

namespace Expr

mutual

/-- The phrase that an expression is written as. -/
def phrase : Expr → List Item
  | .terminal t => [.word (.terminal t) []]
  | .sequence es => (phrases es).flatten
  | .choice es =>
    match phrases es with
    | [] => []
    | first :: others => [.group first others []]
  | .repeated e b =>
    if e.needsParentheses then [.group (phrase e) [] [b]] else Item.signLast b (phrase e)
  | .rule id => [.word (.rule id) []]

/-- The phrases of several expressions. -/
def phrases : List Expr → List (List Item)
  | [] => []
  | e :: es => phrase e :: phrases es

end

/-- Nothing in the expression is a sequence or choice without elements. -/
def Solid (e : Expr) : Prop := .sequence [] ∉ e.preorder ∧ .choice [] ∉ e.preorder

end Expr

namespace Expr

variable {e : Expr} {es : List Expr}

theorem Solid.of_preorder_subset {whole part : Expr} (h : whole.Solid)
    (hsub : part.preorder ⊆ whole.preorder) : part.Solid :=
  ⟨fun hmem => h.1 (hsub hmem), fun hmem => h.2 (hsub hmem)⟩

theorem Solid.ne_nil_of_sequence (h : (sequence es).Solid) : es ≠ [] := by
  rintro rfl
  exact h.1 (self_mem_preorder _)

theorem Solid.ne_nil_of_choice (h : (choice es).Solid) : es ≠ [] := by
  rintro rfl
  exact h.2 (self_mem_preorder _)

theorem phrases_eq_map (es : List Expr) : phrases es = es.map phrase := by
  induction es with
  | nil => rfl
  | cons e es ih => rw [phrases, ih, List.map_cons]

theorem writeAll_eq_map (name : RuleId → String) (es : List Expr) :
    writeAll name es = es.map (write name) := by
  induction es with
  | nil => rfl
  | cons e es ih => rw [writeAll, ih, List.map_cons]

end Expr

/-! ### Joining texts -/

/-- Joining with a separator, as the first text followed by the others with a separator in front
of each. -/
theorem intercalate_cons {α : Type} (sep x : List α) (xs : List (List α)) :
    sep.intercalate (x :: xs) = x ++ xs.flatMap (sep ++ ·) := by
  induction xs generalizing x with
  | nil => simp [List.intercalate]
  | cons y ys ih => simp [List.intercalate_cons_cons, ih]

section Join

variable {name : RuleId → String}

theorem Item.writeAll_append (items more : List Item) :
    Item.writeAll name (items ++ more) = Item.writeAll name items ++ Item.writeAll name more := by
  induction items with
  | nil => rfl
  | cons item items ih => simp [Item.writeAll, ih]

/-- Several phrases in a row are written as one, which is why nested sequences cannot be seen in a
text. -/
theorem Item.writeAll_flatten (phrases : List (List Item)) :
    Item.writeAll name phrases.flatten = phrases.flatMap (Item.writeAll name) := by
  induction phrases with
  | nil => rfl
  | cons phrase phrases ih => rw [List.flatten_cons, writeAll_append, ih, List.flatMap_cons]

theorem Item.writeBars_eq_flatMap (phrases : List (List Item)) :
    Item.writeBars name phrases
      = phrases.flatMap fun phrase => ' ' :: '|' :: Item.writeAll name phrase := by
  induction phrases with
  | nil => rfl
  | cons phrase phrases ih => rw [writeBars, ih, List.flatMap_cons]; rfl

theorem Item.write_sign (b : Bounds) (item : Item) :
    (item.sign b).write name = item.write name ++ [b.symbol] := by
  cases item <;> simp [sign, write, writeSigns]

/-- A sign behind a phrase ends up behind its last item. A reader takes it for a sign of that item
alone. -/
theorem Item.writeAll_signLast (b : Bounds) {items : List Item} (h : items ≠ []) :
    Item.writeAll name (signLast b items) = Item.writeAll name items ++ [b.symbol] := by
  induction items with
  | nil => exact absurd rfl h
  | cons item items ih =>
    cases items with
    | nil => simp [signLast, writeAll, write_sign]
    | cons next items => simp [signLast, writeAll] at ih ⊢; exact ih

/-- **The text of an expression is the text of its phrase**, up to the blank in front. -/
theorem Expr.cons_write_eq {e : Expr} (h : e.Solid) :
    ' ' :: e.write name = Item.writeAll name e.phrase := by
  induction e using Expr.elementInduction with
  | terminal t => simp [write, phrase, Item.writeAll, Item.write, Word.write, writeSigns]
  | rule id => simp [write, phrase, Item.writeAll, Item.write, Word.write, writeSigns]
  | sequence es ih =>
    obtain ⟨first, others, rfl⟩ := List.exists_cons_of_ne_nil h.ne_nil_of_sequence
    have hes : ∀ e ∈ first :: others, ' ' :: e.write name = Item.writeAll name e.phrase :=
      fun e he => ih e he (h.of_preorder_subset (preorder_subset_sequence he))
    rw [write, writeAll_eq_map, List.map_cons, intercalate_cons, List.flatMap_map,
      ← List.cons_append, hes first List.mem_cons_self, phrase, phrases_eq_map,
      Item.writeAll_flatten, List.flatMap_map, List.flatMap_cons]
    congr 1
    exact List.flatMap_congr fun e he => hes e (List.mem_cons_of_mem _ he)
  | choice es ih =>
    obtain ⟨first, others, rfl⟩ := List.exists_cons_of_ne_nil h.ne_nil_of_choice
    have hes : ∀ e ∈ first :: others, ' ' :: e.write name = Item.writeAll name e.phrase :=
      fun e he => ih e he (h.of_preorder_subset (preorder_subset_choice he))
    have hothers : others.flatMap (fun e => [' ', '|', ' '] ++ e.write name)
        = Item.writeBars name (others.map phrase) := by
      rw [Item.writeBars_eq_flatMap, List.flatMap_map]
      refine List.flatMap_congr fun e he => ?_
      rw [← hes e (List.mem_cons_of_mem _ he)]
      rfl
    rw [write, writeAll_eq_map, List.map_cons, intercalate_cons, List.flatMap_map, hothers, phrase,
      phrases_eq_map, List.map_cons]
    simp [Item.writeAll, Item.write, ← hes first List.mem_cons_self, parenthesize, writeSigns]
  | repeated e b ih =>
    have he := ih (h.of_preorder_subset (preorder_subset_repeated e b))
    rw [write, phrase]
    split
    · simp [Item.writeAll, Item.write, Item.writeBars, ← he, parenthesize, writeSigns]
    -- Without parentheses the sign is simply appended, and there has to be an item to take it.
    · have hne : e.phrase ≠ [] := by
        intro hnil
        simp [hnil, Item.writeAll] at he
      rw [Item.writeAll_signLast b hne, ← he]
      rfl

end Join

end PegGrammar
