import Mathlib.Data.List.Forall2
import PegGrammar.Expr.Combinators
import PegGrammar.Grammar.Printer
import PegGrammar.Proofs.Alike
import PegGrammar.Proofs.UniqueReading

/-!
# What a rendered expression means

A reader of a printed grammar takes each phrase for what it says: the items one after the other,
each repeated as its signs demand. Expressions with the same text have the same phrase, so if an
expression matches like its phrase, the text tells everything about how it matches.

## Where the text says something else

An expression matches like its phrase only if the signs of repetition end up behind what they
belong to. A repeated sequence of several elements is written in parentheses, but this is decided
by looking at the operand alone: when the several elements stand in a sequence that is itself the
only element of the operand, there are no parentheses, and the sign is read as belonging to the
last element. `Expr.Bracketed` excludes just these operands, and `render_ambiguous` is an example
of what happens without it.

## Main definitions

* `Item.toExpr` — what an item says
* `Expr.isSeveral`, `Expr.Bracketed` — operands that keep their parentheses

## Main results

* `Expr.alikeEach_phrase` — a bracketed expression matches like its phrase
* `render_determines_matching` — expressions with the same text match alike
-/

namespace PegGrammar

open Engine

/-! ### What a phrase says -/

/-- An expression with the signs of repetition applied to it, from left to right. -/
def Expr.signed (e : Expr) (signs : List Bounds) : Expr := signs.foldl .repeated e

/-- What a word says. -/
def Word.toExpr : Word → Expr
  | .terminal t => .terminal t
  | .rule id => .rule id

mutual

/-- What an item says. -/
def Item.toExpr : Item → Expr
  | .word w signs => w.toExpr.signed signs
  | .group first others signs =>
    (Expr.choice (.sequence (Item.toExprs first) :: Item.toSequences others)).signed signs

/-- What the items of a phrase say. -/
def Item.toExprs : List Item → List Expr
  | [] => []
  | item :: items => item.toExpr :: Item.toExprs items

/-- What phrases say, each as a sequence. -/
def Item.toSequences : List (List Item) → List Expr
  | [] => []
  | phrase :: phrases => .sequence (Item.toExprs phrase) :: Item.toSequences phrases

end

namespace Item

theorem toExpr_sign (b : Bounds) (item : Item) :
    (item.sign b).toExpr = .repeated item.toExpr b := by
  cases item <;> simp [sign, toExpr, Expr.signed]

theorem toExprs_append (items more : List Item) :
    toExprs (items ++ more) = toExprs items ++ toExprs more := by
  induction items with
  | nil => rfl
  | cons item items ih => rw [List.cons_append, toExprs, ih, toExprs, List.cons_append]

theorem toSequences_eq_map (phrases : List (List Item)) :
    toSequences phrases = phrases.map fun phrase => .sequence (toExprs phrase) := by
  induction phrases with
  | nil => rfl
  | cons phrase phrases ih => rw [toSequences, ih, List.map_cons]

end Item

/-! ### Operands that keep their parentheses -/

namespace Expr

/-- Whether an expression is a sequence of several elements, behind any number of sequences of
one. -/
def isSeveral : Expr → Bool
  | .sequence [e] => e.isSeveral
  | .sequence _ => true
  | _ => false

/-- Whether an expression, if it is a repetition, has an operand that is written in parentheses
or needs none. -/
def keepsOperand : Expr → Bool
  | .repeated operand _ => operand.needsParentheses || !operand.isSeveral
  | _ => true

/-- Every repetition in the expression keeps its operand together. -/
def Bracketed (e : Expr) : Prop := ∀ part ∈ e.preorder, part.keepsOperand = true

instance (e : Expr) : Decidable e.Bracketed :=
  inferInstanceAs (Decidable (∀ part ∈ e.preorder, part.keepsOperand = true))

instance (e : Expr) : Decidable e.Solid :=
  inferInstanceAs (Decidable (.sequence [] ∉ e.preorder ∧ .choice [] ∉ e.preorder))

variable {g : Grammar} {e : Expr} {es : List Expr}

theorem Bracketed.of_preorder_subset {whole part : Expr} (h : whole.Bracketed)
    (hsub : part.preorder ⊆ whole.preorder) : part.Bracketed :=
  fun e he => h e (hsub he)

theorem Bracketed.not_isSeveral {b : Bounds} (h : (repeated e b).Bracketed)
    (hparens : e.needsParentheses = false) : e.isSeveral = false := by
  have hkeeps := h _ (self_mem_preorder _)
  rwa [keepsOperand, hparens, Bool.false_or, Bool.not_eq_true'] at hkeeps

theorem isSeveral_sequence_eq_false_iff (h : es ≠ []) :
    (sequence es).isSeveral = false ↔ ∃ e, es = [e] ∧ e.isSeveral = false := by
  match es with
  | [] => exact absurd rfl h
  | [e] => simp [isSeveral]
  | _ :: _ :: _ => simp [isSeveral]

/-- What is not several elements is written as one item. -/
theorem exists_phrase_eq_singleton (hsolid : e.Solid) (hbracketed : e.Bracketed)
    (hone : e.isSeveral = false) : ∃ item, e.phrase = [item] := by
  induction e using elementInduction with
  | terminal t => exact ⟨_, rfl⟩
  | rule id => exact ⟨_, rfl⟩
  | sequence es ih =>
    obtain ⟨e, rfl, he⟩ := (isSeveral_sequence_eq_false_iff hsolid.ne_nil_of_sequence).mp hone
    have hsub := preorder_subset_sequence (List.mem_singleton_self e)
    obtain ⟨item, hitem⟩ := ih e (List.mem_singleton_self e) (hsolid.of_preorder_subset hsub)
      (hbracketed.of_preorder_subset hsub) he
    exact ⟨item, by rw [phrase, phrases_eq_map]; simpa using hitem⟩
  | choice es ih =>
    obtain ⟨first, others, rfl⟩ := List.exists_cons_of_ne_nil hsolid.ne_nil_of_choice
    exact ⟨_, rfl⟩
  | repeated e b ih =>
    rw [phrase]
    split
    · exact ⟨_, rfl⟩
    next hparens =>
      have hsub := preorder_subset_repeated e b
      obtain ⟨item, hitem⟩ := ih (hsolid.of_preorder_subset hsub)
        (hbracketed.of_preorder_subset hsub) (hbracketed.not_isSeveral (by simpa using hparens))
      exact ⟨item.sign b, by rw [hitem]; rfl⟩

/-- **A bracketed expression matches like its phrase.** -/
theorem alikeEach_phrase (hsolid : e.Solid) (hbracketed : e.Bracketed) :
    AlikeEach g [e] (Item.toExprs e.phrase) := by
  induction e using elementInduction with
  | terminal t => exact alikeEach_singleton_iff.mpr (.refl _)
  | rule id => exact alikeEach_singleton_iff.mpr (.refl _)
  | sequence es ih =>
    have hes : ∀ e ∈ es, AlikeEach g [e] (Item.toExprs e.phrase) := by
      intro e he
      have hsub := preorder_subset_sequence he
      exact ih e he (hsolid.of_preorder_subset hsub) (hbracketed.of_preorder_subset hsub)
    rw [phrase, phrases_eq_map]
    refine (alikeEach_sequence g es).trans ?_
    clear ih hsolid hbracketed
    -- The phrase of a sequence is one list, so this is an induction on the elements by themselves.
    induction es with
    | nil => exact fun _ _ _ => Iff.rfl
    | cons e es ih =>
      rw [List.forall_mem_cons] at hes
      rw [List.map_cons, List.flatten_cons, Item.toExprs_append]
      exact hes.1.append (ih hes.2)
  | choice es ih =>
    have hes : ∀ e ∈ es, Alike g e (.sequence (Item.toExprs e.phrase)) := by
      intro e he
      have hsub := preorder_subset_choice he
      exact alike_sequence_iff.mpr
        (ih e he (hsolid.of_preorder_subset hsub) (hbracketed.of_preorder_subset hsub))
    obtain ⟨first, others, rfl⟩ := List.exists_cons_of_ne_nil hsolid.ne_nil_of_choice
    rw [List.forall_mem_cons] at hes
    refine alikeEach_singleton_iff.mpr (.choice (.cons hes.1 ?_))
    rw [phrases_eq_map, Item.toSequences_eq_map, List.map_map, List.forall₂_map_right_iff,
      List.forall₂_same]
    exact hes.2
  | repeated e b ih =>
    have hsub := preorder_subset_repeated e b
    have he := ih (hsolid.of_preorder_subset hsub) (hbracketed.of_preorder_subset hsub)
    rw [phrase]
    split
    · refine alikeEach_singleton_iff.mpr (.repeated ?_ b)
      exact (alike_sequence_iff.mpr he).trans (alike_choice_singleton g _).symm
    next hparens =>
      -- The sign goes behind the last item, which is all of the operand only if there is one item.
      obtain ⟨item, hitem⟩ := exists_phrase_eq_singleton (hsolid.of_preorder_subset hsub)
        (hbracketed.of_preorder_subset hsub) (hbracketed.not_isSeveral (by simpa using hparens))
      rw [hitem] at he ⊢
      rw [Item.signLast, Item.toExprs, Item.toExpr_sign]
      exact alikeEach_singleton_iff.mpr ((alikeEach_singleton_iff.mp he).repeated b)

end Expr

/-! ### Rendering -/

namespace Grammar

variable {g : Grammar} {id : RuleId} {e : Expr}

/-- The names of the rules can be told from the signs of the notation and from each other. -/
def PlainNames (g : Grammar) : Prop :=
  (∀ r ∈ g.rules.toList, PlainName r.name) ∧ (g.rules.toList.map Rule.name).Nodup

theorem getElem?_names (h : g.Declares id) :
    (g.rules.toList.map Rule.name)[id.index]? = some (g.nameOf id) := by
  obtain ⟨r, hr⟩ := declares_iff_exists_rule?.mp h
  rw [List.getElem?_map, Array.getElem?_toList, nameOf, hr]
  rw [rule?] at hr
  rw [hr]
  rfl

theorem PlainNames.readable (h : g.PlainNames) : Readable g.nameOf g.Declares where
  plain id hid := by
    have hmem := List.mem_of_getElem? (getElem?_names hid)
    obtain ⟨r, hr, hname⟩ := List.mem_map.mp hmem
    rw [← hname]
    exact h.1 r hr
  distinct id id' hid hid' heq := by
    have hindex : id.index = id'.index := by
      refine (List.getElem?_inj ?_ h.2).mp ?_
      · rw [List.length_map, Array.length_toList]
        exact hid
      · rw [getElem?_names hid, getElem?_names hid', heq]
    obtain ⟨i⟩ := id
    obtain ⟨j⟩ := id'
    rw [show i = j from hindex]

theorem render_eq_ok (h : ∀ id ∈ e.refs, g.Declares id) :
    g.render e = .ok (e.render g.nameOf) := by
  have hnone : e.refs.find? (g.rules.size ≤ ·.index) = none := by
    rw [List.find?_eq_none]
    intro id hid
    rw [decide_eq_true_iff, Nat.not_le]
    exact h id hid
  rw [render, hnone]

end Grammar

/-- **The text tells how an expression matches.** In a grammar with plain names, expressions that
refer to declared rules, have no empty parts and keep their operands together match alike as soon
as they are rendered alike. -/
theorem render_determines_matching {g : Grammar} (hnames : g.PlainNames) {p q : Expr}
    (hp : ∀ id ∈ p.refs, g.Declares id) (hq : ∀ id ∈ q.refs, g.Declares id)
    (hpsolid : p.Solid) (hqsolid : q.Solid) (hpbracketed : p.Bracketed)
    (hqbracketed : q.Bracketed) (h : g.render p = g.render q) (c : Cursor) :
    AttemptAlike g p q c := by
  rw [Grammar.render_eq_ok hp, Grammar.render_eq_ok hq, Except.ok.injEq] at h
  have hphrase : p.phrase = q.phrase :=
    Expr.phrase_eq_of_write_eq hnames.readable hpsolid hqsolid hp hq (String.ofList_injective h)
  have halike : AlikeEach g [p] [q] := by
    refine (Expr.alikeEach_phrase hpsolid hpbracketed).trans ?_
    rw [hphrase]
    exact (Expr.alikeEach_phrase hqsolid hqbracketed).symm
  exact (alikeEach_singleton_iff.mp halike).attemptAlike hp hq c

/-! ### What two texts say -/

/-- Two rules with plain names. -/
def plainPair : Grammar where
  rules := #[⟨"left", [.literal "a"], nofun⟩, ⟨"right", [.literal "b"], nofun⟩]
  start := ⟨0⟩
  valid := rfl

instance (name : String) : Decidable (PlainName name) :=
  decidable_of_iff (name ≠ "" ∧ name ≠ "EOF" ∧ name.toList.all isNameChar = true)
    ⟨fun h => ⟨h.1, h.2.1, h.2.2⟩, fun h => ⟨h.1, h.2, h.3⟩⟩

instance (g : Grammar) : Decidable g.PlainNames :=
  inferInstanceAs (Decidable
    ((∀ r ∈ g.rules.toList, PlainName r.name) ∧ (g.rules.toList.map Rule.name).Nodup))

theorem plainNames_plainPair : plainPair.PlainNames := by decide +kernel

/-- The text `( left right )+` says the same of a repeated sequence and of a repeated choice. -/
theorem repeated_group_alike :
    plainPair.render (.repeated (.sequence [.rule ⟨0⟩, .rule ⟨1⟩]) .oneToMany)
      = .ok "( left right )+" ∧
    AttemptAlike plainPair (.repeated (.sequence [.rule ⟨0⟩, .rule ⟨1⟩]) .oneToMany)
      (.repeated (.choice [.sequence [.sequence [.rule ⟨0⟩], .rule ⟨1⟩]]) .oneToMany)
      (.start "aba".toList) :=
  ⟨by decide +kernel, render_determines_matching plainNames_plainPair (by decide) (by decide)
    (by decide) (by decide) (by decide) (by decide) (by decide +kernel) _⟩

/-- Two texts in a sequence that is the only element of a sequence, any number of times. -/
def pairRepeated : Expr :=
  .repeated (.sequence [.sequence [.literal "a", .literal "b"]]) .zeroToMany

/-- One text, and then the other any number of times. -/
def lastRepeated : Expr := .sequence [.literal "a", .repeated (.literal "b") .zeroToMany]

/-- **Without their parentheses, operands are taken for something else.** Both expressions are
rendered as `'a' 'b'*`, but only the second of them matches the text `a`: the first matches
nothing of it. -/
theorem render_ambiguous :
    plainPair.PlainNames ∧ pairRepeated.refs = [] ∧ lastRepeated.refs = [] ∧
    pairRepeated.Solid ∧ lastRepeated.Solid ∧
    plainPair.render pairRepeated = plainPair.render lastRepeated ∧
    ¬ AttemptAlike plainPair pairRepeated lastRepeated (.start "a".toList) := by
  refine ⟨plainNames_plainPair, rfl, rfl, by decide, by decide, by decide +kernel, fun h => ?_⟩
  let w : Watch Unit := ⟨fun _ _ => (), false⟩
  have hpair : ((attempt w (callRule plainPair w 0) pairRepeated (.start "a".toList) .syntactic).run
      { observer := () }).map (·.1.end?) = .ok (some 0) := by decide +kernel
  have hlast : ((attempt w (callRule plainPair w 0) lastRepeated (.start "a".toList) .syntactic).run
      { observer := () }).map (·.1.end?) = .ok (some 1) := by decide +kernel
  rw [h.end?_eq, hlast] at hpair
  cases hpair

end PegGrammar
