import PegGrammar.Proofs.RenderMeaning

/-!
# What a rendered expression shows of its structure

A printed grammar shows the structure of its expressions up to two things. A sequence that is an
element of a sequence is printed like its elements, and a choice of one alternative is printed like
the parentheses around a repeated sequence or repetition. `Expr.normal` removes both, and then the
text and the structure determine each other: two expressions are rendered alike exactly if they
have the same normal form. So no text can be read with another nesting, whatever characters there
are in its literals, sets and ranges.

## Sequences of one element

They are left out, because they are not printed at all: a sequence of one element looks like the
element, and the parentheses of a repeated sequence depend on them (`render_ambiguous`).

## How the normal form is read off the text

The text has one phrase (`Expr.phrase_eq_of_write_eq`), so it is enough to read the normal form off
a phrase. Each item of the phrase is one expression (`Item.normal`), and a phrase of several items
is the sequence of these. In the other direction, an expression and its normal form have the same
phrase.

## Main definitions

* `Expr.normal` — the normal form of an expression
* `Expr.Regular` — expressions that are shown with all their combinations
* `Item.normal` — the expression in normal form that an item shows

## Main results

* `Expr.normal_eq_joined` — the normal form is what the phrase shows
* `Expr.phrase_normal` — the normal form has the same phrase
* `render_determines_normal_form` — the text and the normal form determine each other
-/

namespace PegGrammar

namespace Expr

/-! ### Normal forms -/

/-- What an expression adds to a sequence of which it is an element: if it is a sequence itself, its
elements, and otherwise the expression. -/
def elements : Expr → List Expr
  | .sequence es => es
  | e => [e]

/-- An operand without the choice around it, if this is a choice of one alternative and the
alternative is a sequence or a repetition. -/
def bare : Expr → Expr
  | .choice [.sequence es] => .sequence es
  | .choice [.repeated e b] => .repeated e b
  | e => e

mutual

/-- The normal form of an expression: sequences are part of the sequences around them, and operands
are bare. -/
def normal : Expr → Expr
  | .terminal t => .terminal t
  | .sequence es => .sequence ((normals es).flatMap elements)
  | .choice es => .choice (normals es)
  | .repeated e b => .repeated (normal e).bare b
  | .rule id => .rule id

/-- The normal forms of several expressions. -/
def normals : List Expr → List Expr
  | [] => []
  | e :: es => normal e :: normals es

end

/-- Whether the expression is a sequence of one element. -/
def isSingleton : Expr → Bool
  | .sequence [_] => true
  | _ => false

/-- Nothing in the expression is a sequence of one element. -/
def NoSingletons (e : Expr) : Prop := ∀ part ∈ e.preorder, part.isSingleton = false

instance (e : Expr) : Decidable e.NoSingletons :=
  inferInstanceAs (Decidable (∀ part ∈ e.preorder, part.isSingleton = false))

/-- An expression without empty parts and without sequences of one element: one that is shown with
all its combinations. -/
structure Regular (e : Expr) : Prop where
  /-- There are no empty parts. -/
  solid : e.Solid
  /-- There are no sequences of one element. -/
  noSingletons : e.NoSingletons

/-- The terminals of an expression, from left to right. -/
def terminals (e : Expr) : List Terminal :=
  e.preorder.filterMap fun
    | .terminal t => some t
    | _ => none

/-- One expression as it is, and any other number of them as a sequence. -/
def joined : List Expr → Expr
  | [e] => e
  | es => .sequence es

variable {e : Expr} {es : List Expr} {b : Bounds}

theorem normals_eq_map (es : List Expr) : normals es = es.map normal := by
  induction es with
  | nil => rfl
  | cons e es ih => rw [normals, ih, List.map_cons]

theorem Regular.of_preorder_subset {whole part : Expr} (h : whole.Regular)
    (hsub : part.preorder ⊆ whole.preorder) : part.Regular :=
  ⟨h.solid.of_preorder_subset hsub, fun e he => h.noSingletons e (hsub he)⟩

theorem Regular.of_mem_sequence (h : (sequence es).Regular) (he : e ∈ es) : e.Regular :=
  h.of_preorder_subset (preorder_subset_sequence he)

theorem Regular.of_mem_choice (h : (choice es).Regular) (he : e ∈ es) : e.Regular :=
  h.of_preorder_subset (preorder_subset_choice he)

theorem Regular.of_repeated (h : (repeated e b).Regular) : e.Regular :=
  h.of_preorder_subset (preorder_subset_repeated e b)

/-- Taking an expression apart and putting it together again changes nothing, unless it is a
sequence of one element. This is why normal forms are compared for expressions without such
sequences only. -/
theorem joined_elements (h : e.isSingleton = false) : joined e.elements = e := by
  match e with
  | .sequence [] | .sequence (_ :: _ :: _) => rfl
  | .sequence [_] => simp [isSingleton] at h
  | .terminal _ | .choice _ | .repeated _ _ | .rule _ => rfl

/-! ### Sequences stay what they are -/

/-- Whatever a sequence has from its elements, an expression has from what it adds to a sequence. -/
theorem flatMap_elements {α : Type} {f : Expr → List α}
    (hf : ∀ es, f (.sequence es) = es.flatMap f) (e : Expr) : e.elements.flatMap f = f e := by
  cases e with
  | sequence es => rw [elements, hf]
  | terminal t => simp [elements]
  | choice es => simp [elements]
  | repeated e b => simp [elements]
  | rule id => simp [elements]

/-- And so the normal form of a sequence has from its elements what their normal forms have. -/
theorem normal_sequence_eq_flatMap {α : Type} {f : Expr → List α}
    (hf : ∀ es, f (.sequence es) = es.flatMap f) (es : List Expr) :
    f (sequence es).normal = es.flatMap fun e => f e.normal := by
  rw [normal, hf, normals_eq_map, List.flatMap_map, List.flatMap_assoc]
  exact List.flatMap_congr fun e _ => flatMap_elements hf e.normal

/-- The elements of a normal form come from the parts, each of which contributes its own. -/
theorem elements_normal_sequence (es : List Expr) :
    (sequence es).normal.elements = es.flatMap fun e => e.normal.elements := by
  rw [normal, elements, normals_eq_map, List.flatMap_map]

/-- No part disappears from a normal form. By induction on the expression, since an empty sequence
anywhere inside would be such a part. -/
theorem elements_normal_ne_nil (h : e.Solid) : e.normal.elements ≠ [] := by
  induction e using elementInduction with
  | terminal t => simp [normal, elements]
  | rule id => simp [normal, elements]
  | choice es ih => simp [normal, elements]
  | repeated e b ih => simp [normal, elements]
  | sequence es ih =>
    obtain ⟨first, others, rfl⟩ := List.exists_cons_of_ne_nil h.ne_nil_of_sequence
    have hfirst := ih first List.mem_cons_self
      (h.of_preorder_subset (preorder_subset_sequence List.mem_cons_self))
    rw [elements_normal_sequence, List.flatMap_cons]
    exact List.append_ne_nil_of_left_ne_nil hfirst _

/-- In an expression that is shown with all its combinations a sequence has at least two
elements. -/
theorem one_lt_length (h : (sequence es).Regular) : 1 < es.length := by
  match es with
  | [] => exact absurd rfl h.solid.ne_nil_of_sequence
  | [_] => exact absurd (h.noSingletons _ (self_mem_preorder _)) (by simp [isSingleton])
  | _ :: _ :: _ => simp

/-- A sequence of several elements has a normal form with several elements. -/
theorem one_lt_length_elements_normal (h : (sequence es).Regular) :
    1 < ((normals es).flatMap elements).length := by
  match es, one_lt_length h with
  | e :: e' :: es, _ =>
    have hpos : ∀ x ∈ [e, e'], 0 < x.normal.elements.length := by
      intro x hx
      have hmem : x ∈ e :: e' :: es := List.mem_append_left es hx
      exact List.length_pos_of_ne_nil (elements_normal_ne_nil (h.of_mem_sequence hmem).solid)
    have he := hpos e (by simp)
    have he' := hpos e' (by simp)
    simp only [normals, List.flatMap_cons, List.length_append]
    omega

theorem one_lt_length_of_normal_eq {xs : List Expr} (h : e.Regular)
    (hnormal : e.normal = .sequence xs) : 1 < xs.length := by
  cases e with
  | sequence es =>
    rw [normal, sequence.injEq] at hnormal
    rw [← hnormal]
    exact one_lt_length_elements_normal h
  | terminal t => cases hnormal
  | choice es => cases hnormal
  | repeated e b => cases hnormal
  | rule id => cases hnormal

/-- Taking the normal form makes no sequence of one element, because a sequence of several keeps
several. -/
theorem isSingleton_normal (h : e.Regular) : e.normal.isSingleton = false := by
  cases hnormal : e.normal with
  | sequence xs =>
    match xs, one_lt_length_of_normal_eq h hnormal with
    | _ :: _ :: _, _ => rfl
  | terminal t => rfl
  | choice es => rfl
  | repeated e b => rfl
  | rule id => rfl

/-! ### Parentheses -/

/-- Whether an operand is put in parentheses is decided by its outermost form, and the normal form
keeps that. -/
theorem needsParentheses_normal (h : e.Regular) :
    e.normal.needsParentheses = e.needsParentheses := by
  cases e with
  | sequence es =>
    rw [normal, needsParentheses, needsParentheses, decide_eq_true (one_lt_length h),
      decide_eq_true (one_lt_length_elements_normal h)]
  | terminal t => rfl
  | choice es => rfl
  | repeated e b => rfl
  | rule id => rfl

theorem needsParentheses_cases (h : e.needsParentheses = true) :
    (∃ es, e = .sequence es) ∨ ∃ x b, e = .repeated x b := by
  cases e <;> simp_all [needsParentheses]

/-- A choice of one alternative around an operand cannot be told from the parentheses that the
operand would get anyway. Bare operands are without it. -/
theorem bare_of_needsParentheses (h : e.needsParentheses = true) :
    e.bare = e ∧ (choice [e]).bare = e := by
  rcases needsParentheses_cases h with ⟨es, rfl⟩ | ⟨x, b, rfl⟩
  · exact ⟨rfl, rfl⟩
  · exact ⟨rfl, rfl⟩

/-- What needs no parentheses is not a sequence, and so it is one element. -/
theorem elements_normal_eq_singleton (h : e.Regular) (hparens : e.needsParentheses = false) :
    e.normal.elements = [e.normal] := by
  cases e with
  | sequence es => simp [needsParentheses, one_lt_length h] at hparens
  | terminal t => rfl
  | choice es => rfl
  | repeated e b => rfl
  | rule id => rfl

end Expr

/-! ### What a phrase shows -/

/-- An expression with the signs of repetition applied to it, from left to right, each to the bare
operand. -/
def Expr.repeatedBare (e : Expr) (signs : List Bounds) : Expr :=
  signs.foldl (fun e b => .repeated e.bare b) e

mutual

/-- The expression in normal form that an item shows. -/
def Item.normal : Item → Expr
  | .word w signs => w.toExpr.repeatedBare signs
  | .group first others signs =>
    (Expr.choice (.joined (Item.normals first) :: Item.normalsEach others)).repeatedBare signs

/-- The expressions in normal form that the items of a phrase show. -/
def Item.normals : List Item → List Expr
  | [] => []
  | item :: items => item.normal :: Item.normals items

/-- The expressions in normal form that phrases show. -/
def Item.normalsEach : List (List Item) → List Expr
  | [] => []
  | phrase :: phrases => .joined (Item.normals phrase) :: Item.normalsEach phrases

end

namespace Item

theorem normals_eq_map (items : List Item) : normals items = items.map normal := by
  induction items with
  | nil => rfl
  | cons item items ih => rw [normals, ih, List.map_cons]

theorem normalsEach_eq_map (phrases : List (List Item)) :
    normalsEach phrases = phrases.map fun phrase => .joined (normals phrase) := by
  induction phrases with
  | nil => rfl
  | cons phrase phrases ih => rw [normalsEach, ih, List.map_cons]

/-- One more sign at the end is one more repetition on the outside, of the bare operand. -/
theorem normal_sign (b : Bounds) (item : Item) :
    (item.sign b).normal = .repeated item.normal.bare b := by
  cases item <;> simp [sign, normal, Expr.repeatedBare]

end Item

namespace Expr

variable {e : Expr}

theorem phrase_sequence (es : List Expr) : (sequence es).phrase = es.flatMap phrase := by
  rw [phrase, phrases_eq_map, List.flatMap]

/-- The elements of the normal form are what the items of the phrase show. -/
theorem elements_normal_eq (h : e.Regular) : e.normal.elements = Item.normals e.phrase := by
  induction e using elementInduction with
  | terminal t => rfl
  | rule id => rfl
  | sequence es ih =>
    have hes : ∀ e ∈ es, e.normal.elements = Item.normals e.phrase :=
      fun e he => ih e he (h.of_mem_sequence he)
    calc (sequence es).normal.elements
        = es.flatMap fun e => e.normal.elements := elements_normal_sequence es
      _ = es.flatMap fun e => Item.normals e.phrase := List.flatMap_congr hes
      _ = Item.normals (sequence es).phrase := by
          simp only [phrase_sequence, Item.normals_eq_map, List.map_flatMap]
  | choice es ih =>
    have hes : ∀ e ∈ es, joined (Item.normals e.phrase) = e.normal := by
      intro e he
      have hregular := h.of_mem_choice he
      rw [← ih e he hregular, joined_elements (isSingleton_normal hregular)]
    obtain ⟨first, others, rfl⟩ := List.exists_cons_of_ne_nil h.solid.ne_nil_of_choice
    rw [List.forall_mem_cons] at hes
    have hothers : Item.normalsEach (phrases others) = normals others := by
      rw [Item.normalsEach_eq_map, phrases_eq_map, List.map_map, normals_eq_map]
      exact List.map_congr_left hes.2
    simp only [phrase, phrases, normal, normals, elements, Item.normals, Item.normal, repeatedBare,
      List.foldl_nil, hes.1, hothers]
  | repeated e b ih =>
    have hregular := h.of_repeated
    have he := ih hregular
    show [Expr.repeated e.normal.bare b] = _
    rw [phrase]
    cases hparens : e.needsParentheses with
    | true =>
      rw [← needsParentheses_normal hregular] at hparens
      obtain ⟨hbare, hbare'⟩ := bare_of_needsParentheses hparens
      have hjoined : joined (Item.normals e.phrase) = e.normal := by
        rw [← he, joined_elements (isSingleton_normal hregular)]
      simp only [if_true, Item.normals, Item.normal, Item.normalsEach, repeatedBare,
        List.foldl_cons, List.foldl_nil, hjoined, hbare, hbare']
    | false =>
      -- The operand is one element, so its phrase is one item, and the sign goes behind that.
      rw [elements_normal_eq_singleton hregular hparens, Item.normals_eq_map] at he
      obtain ⟨item, hitem, hnormal⟩ := List.map_eq_singleton_iff.mp he.symm
      rw [hitem]
      simp [Item.signLast, Item.normals, Item.normal_sign, hnormal]

/-- **The normal form is what the phrase shows.** -/
theorem normal_eq_joined (h : e.Regular) : e.normal = joined (Item.normals e.phrase) := by
  rw [← elements_normal_eq h, joined_elements (isSingleton_normal h)]

/-! ### The phrase of a normal form -/

/-- A repeated operand is written in the same way without the choice around it, if there is
something in the choice that is written in parentheses. -/
theorem phrase_repeated_bare (b : Bounds)
    (h : ∀ es, e = .choice [.sequence es] → 1 < es.length) :
    (repeated e.bare b).phrase = (repeated e b).phrase := by
  rw [bare.eq_def]
  split
  next es => simp [phrase, phrases, needsParentheses, h es rfl, Item.signLast, Item.sign]
  next x c => simp [phrase, phrases, needsParentheses, Item.signLast, Item.sign]
  next => rfl

/-- **The normal form has the same phrase.** -/
theorem phrase_normal (h : e.Regular) : e.normal.phrase = e.phrase := by
  induction e using elementInduction with
  | terminal t => rfl
  | rule id => rfl
  | sequence es ih =>
    rw [normal_sequence_eq_flatMap phrase_sequence, phrase_sequence]
    exact List.flatMap_congr fun e he => ih e he (h.of_mem_sequence he)
  | choice es ih =>
    have hphrases : phrases (normals es) = phrases es := by
      rw [phrases_eq_map, phrases_eq_map, normals_eq_map, List.map_map]
      exact List.map_congr_left fun e he => ih e he (h.of_mem_choice he)
    rw [normal, phrase, phrase, hphrases]
  | repeated e b ih =>
    have hregular := h.of_repeated
    have hchoice : ∀ xs, e.normal = .choice [.sequence xs] → 1 < xs.length := by
      intro xs hnormal
      cases e with
      | choice es =>
        rw [normal, choice.injEq, normals_eq_map] at hnormal
        obtain ⟨x, rfl, hx⟩ := List.map_eq_singleton_iff.mp hnormal
        exact one_lt_length_of_normal_eq (hregular.of_mem_choice (List.mem_singleton_self x)) hx
      | terminal t => cases hnormal
      | sequence es => cases hnormal
      | repeated e b => cases hnormal
      | rule id => cases hnormal
    rw [normal, phrase_repeated_bare b hchoice, phrase, phrase,
      needsParentheses_normal hregular, ih hregular]

/-! ### Terminals -/

theorem terminals_sequence (es : List Expr) : (sequence es).terminals = es.flatMap terminals := by
  simp only [terminals, preorder, preorderAll_eq_flatMap, List.filterMap_cons,
    List.filterMap_flatMap]
  rfl

theorem terminals_choice (es : List Expr) : (choice es).terminals = es.flatMap terminals := by
  simp only [terminals, preorder, preorderAll_eq_flatMap, List.filterMap_cons,
    List.filterMap_flatMap]
  rfl

theorem terminals_repeated (e : Expr) (b : Bounds) : (repeated e b).terminals = e.terminals := rfl

theorem terminals_bare (e : Expr) : e.bare.terminals = e.terminals := by
  rw [bare.eq_def]
  split
  · rw [terminals_choice, List.flatMap_singleton]
  · rw [terminals_choice, List.flatMap_singleton]
  · rfl

/-- Normal forms have the same terminals, in the same order. -/
theorem terminals_normal (e : Expr) : e.normal.terminals = e.terminals := by
  induction e using elementInduction with
  | terminal t => rfl
  | rule id => rfl
  | sequence es ih =>
    rw [normal_sequence_eq_flatMap terminals_sequence, terminals_sequence]
    exact List.flatMap_congr ih
  | choice es ih =>
    rw [normal, normals_eq_map, terminals_choice, terminals_choice, List.flatMap_map]
    exact List.flatMap_congr ih
  | repeated e b ih => rw [normal, terminals_repeated, terminals_repeated, terminals_bare, ih]

end Expr

/-! ### Rendering -/

theorem Grammar.plainNames_of_isWord {g : Grammar}
    (hwords : ∀ r ∈ g.rules.toList, IsWord r.name ∧ r.name ≠ "EOF")
    (hdistinct : (g.rules.toList.map Rule.name).Nodup) : g.PlainNames :=
  ⟨fun r hr => (hwords r hr).1.plainName (hwords r hr).2, hdistinct⟩

/-- **The text and the normal form determine each other.** In a grammar whose rules have distinct
words for names, none of them the word for the end of the text, expressions that refer to declared
rules and have neither empty parts nor sequences of one element are rendered alike exactly if they
have the same normal form. In particular they have the same terminals, character by character. -/
theorem render_determines_normal_form {g : Grammar}
    (hwords : ∀ r ∈ g.rules.toList, IsWord r.name ∧ r.name ≠ "EOF")
    (hdistinct : (g.rules.toList.map Rule.name).Nodup) {p q : Expr}
    (hp : ∀ id ∈ p.refs, g.Declares id) (hq : ∀ id ∈ q.refs, g.Declares id)
    (hpsolid : p.Solid) (hqsolid : q.Solid) (hpmany : p.NoSingletons) (hqmany : q.NoSingletons) :
    (g.render p = g.render q ↔ p.normal = q.normal) ∧
      (g.render p = g.render q → p.terminals = q.terminals) := by
  have hnames := Grammar.plainNames_of_isWord hwords hdistinct
  have hpregular : p.Regular := ⟨hpsolid, hpmany⟩
  have hqregular : q.Regular := ⟨hqsolid, hqmany⟩
  have hiff : g.render p = g.render q ↔ p.normal = q.normal := by
    rw [Grammar.render_eq_ok hp, Grammar.render_eq_ok hq, Except.ok.injEq]
    constructor
    · intro h
      have hphrase : p.phrase = q.phrase :=
        Expr.phrase_eq_of_write_eq hnames.readable hpsolid hqsolid hp hq (String.ofList_injective h)
      rw [Expr.normal_eq_joined hpregular, Expr.normal_eq_joined hqregular, hphrase]
    · intro h
      have hphrase : p.phrase = q.phrase := by
        rw [← Expr.phrase_normal hpregular, ← Expr.phrase_normal hqregular, h]
      have hwrite : ' ' :: p.write g.nameOf = ' ' :: q.write g.nameOf := by
        rw [Expr.cons_write_eq hpsolid, Expr.cons_write_eq hqsolid, hphrase]
      exact congrArg String.ofList (List.cons.inj hwrite).2
  refine ⟨hiff, fun h => ?_⟩
  rw [← p.terminals_normal, ← q.terminals_normal, hiff.mp h]

/-- A repeated choice of one sequence, the last element of which is a sequence. The characters of
its terminals are those that close a literal and a set. -/
def groupedChoice : Expr :=
  .repeated (.choice [.sequence [.rule ⟨0⟩,
    .sequence [.literal "it's", .terminal (.charSet (.ofString "]\\"))]]]) .oneToMany

/-- A repeated sequence, the first element of which is a sequence. -/
def groupedSequence : Expr :=
  .repeated (.sequence [.sequence [.rule ⟨0⟩, .literal "it's"],
    .terminal (.charSet (.ofString "]\\"))]) .oneToMany

/-- Both are rendered with one pair of parentheses, and this shows all there is to them. -/
theorem grouped_normal_eq :
    plainPair.render groupedChoice = .ok "( left 'it\\'s' [\\]\\\\] )+" ∧
    plainPair.render groupedSequence = .ok "( left 'it\\'s' [\\]\\\\] )+" ∧
    groupedChoice ≠ groupedSequence ∧ groupedChoice.normal = groupedSequence.normal ∧
    groupedChoice.terminals = groupedSequence.terminals := by
  have hchoice : plainPair.render groupedChoice = .ok "( left 'it\\'s' [\\]\\\\] )+" := by
    decide +kernel
  have hsequence : plainPair.render groupedSequence = .ok "( left 'it\\'s' [\\]\\\\] )+" := by
    decide +kernel
  have hwords : ∀ r ∈ plainPair.rules.toList, IsWord r.name ∧ r.name ≠ "EOF" := by
    intro r hr
    rcases List.mem_pair.mp hr with rfl | rfl
    · exact ⟨⟨by decide, by decide⟩, by decide⟩
    · exact ⟨⟨by decide, by decide⟩, by decide⟩
  obtain ⟨hiff, hterminals⟩ := render_determines_normal_form hwords plainNames_plainPair.2
    (p := groupedChoice) (q := groupedSequence) (by decide) (by decide) (by decide) (by decide)
    (by decide) (by decide)
  have hsame := hchoice.trans hsequence.symm
  exact ⟨hchoice, hsequence, by decide, hiff.mp hsame, hterminals hsame⟩

end PegGrammar
