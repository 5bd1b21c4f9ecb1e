import PegGrammar.RuleId

/-!
# Parsing expressions

An expression describes what to match and holds no state of a match. Terminals look at characters;
the other forms combine expressions, and a reference stands for a rule of the grammar in which the
expression is used.

## Main definitions

* `CharSet` — a set of characters that remembers the order in which they were first given
* `Bounds` — how often a repetition may match its operand
* `Terminal`, `Expr` — expressions
* `Expr.refs` — the rule references of an expression, from left to right
-/

namespace PegGrammar

/-! ### Character sets -/

/-- The characters of a list in order, each at its first occurrence only. -/
def firstOccurrences : List Char → List Char
  | [] => []
  | c :: cs => c :: (firstOccurrences cs).filter (· ≠ c)

theorem nodup_firstOccurrences (cs : List Char) : (firstOccurrences cs).Nodup := by
  induction cs with
  | nil => exact List.nodup_nil
  | cons c cs ih => exact List.nodup_cons.2 ⟨by simp, ih.filter _⟩

/-- A set of characters, kept in the order in which they were first given. Two sets with the same
members in different orders are different: a printed grammar shows the order. -/
structure CharSet where
  /-- The members. -/
  chars : List Char
  /-- No member is listed twice. -/
  nodup : chars.Nodup
  deriving DecidableEq

namespace CharSet

/-- The set of the characters of a text. -/
def ofString (s : String) : CharSet := ⟨firstOccurrences s.toList, nodup_firstOccurrences s.toList⟩

/-- Whether a character is in the set. -/
def contains (set : CharSet) (c : Char) : Bool := set.chars.contains c

/-- The number of members. -/
def size (set : CharSet) : Nat := set.chars.length

/-- Whether the set has no member. -/
def isEmpty (set : CharSet) : Bool := set.chars.isEmpty

/-- The members as a text, in the order in which they were first given. -/
def text (set : CharSet) : String := String.ofList set.chars

end CharSet

/-! ### Repetition bounds -/

/-- How often a repetition may match its operand. -/
inductive Bounds where
  /-- At most once. -/
  | zeroToOne
  /-- Any number of times. -/
  | zeroToMany
  /-- At least once. -/
  | oneToMany
  deriving DecidableEq, Repr

namespace Bounds

/-- The least number of matches that a repetition needs. -/
def min : Bounds → Nat
  | .zeroToOne | .zeroToMany => 0
  | .oneToMany => 1

/-- The greatest number of matches that a repetition takes, if there is one. -/
def max? : Bounds → Option Nat
  | .zeroToOne => some 1
  | .zeroToMany | .oneToMany => none

/-- The sign written after a repeated expression. -/
def symbol : Bounds → Char
  | .zeroToOne => '?'
  | .zeroToMany => '*'
  | .oneToMany => '+'

/-- Whether a repetition that has matched `count` times may try once more. -/
def allowsMore (b : Bounds) (count : Nat) : Bool := b.max?.all (count < ·)

end Bounds

/-! ### Expressions -/

/-- What a match looks for in the text itself. -/
inductive Terminal where
  /-- Exactly this text. -/
  | literal (text : String)
  /-- One character of the set. -/
  | charSet (set : CharSet)
  /-- One character from `first` to `last`, both included. -/
  | charRange (first last : Char)
  /-- Any one character. -/
  | any
  /-- The end of the text. -/
  | endOfInput
  deriving DecidableEq

/-- A parsing expression. -/
inductive Expr where
  /-- A terminal. -/
  | terminal (t : Terminal)
  /-- Each element after the one before it. -/
  | sequence (elements : List Expr)
  /-- The first alternative that matches. -/
  | choice (alternatives : List Expr)
  /-- The operand as often as it matches, within bounds. -/
  | repeated (operand : Expr) (bounds : Bounds)
  /-- The rule of that number. -/
  | rule (id : RuleId)

namespace Expr

/-- Whether the expression is a terminal. -/
def isTerminal : Expr → Bool
  | .terminal _ => true
  | _ => false

/-- The rule to which the expression as a whole refers. -/
def asRule? : Expr → Option RuleId
  | .rule id => some id
  | _ => none

mutual

/-- Every rule reference of an expression, from left to right, as often as it occurs. -/
def refs : Expr → List RuleId
  | .terminal _ => []
  | .sequence es => refsAll es
  | .choice es => refsAll es
  | .repeated e _ => refs e
  | .rule id => [id]

/-- The rule references of several expressions, one after the other. -/
def refsAll : List Expr → List RuleId
  | [] => []
  | e :: es => refs e ++ refsAll es

end

/-! ### Decidable equality -/

mutual

/-- Decides whether two expressions are equal. -/
def decEq : (a b : Expr) → Decidable (a = b)
  | .terminal s, .terminal t =>
    if h : s = t then isTrue (h ▸ rfl) else isFalse fun e => h (Expr.terminal.inj e)
  | .sequence as, .sequence bs =>
    match decEqAll as bs with
    | isTrue h => isTrue (h ▸ rfl)
    | isFalse h => isFalse fun e => h (Expr.sequence.inj e)
  | .choice as, .choice bs =>
    match decEqAll as bs with
    | isTrue h => isTrue (h ▸ rfl)
    | isFalse h => isFalse fun e => h (Expr.choice.inj e)
  | .repeated a m, .repeated b n =>
    match decEq a b with
    | isTrue h =>
      if k : m = n then isTrue (h ▸ k ▸ rfl) else isFalse fun e => k (Expr.repeated.inj e).2
    | isFalse h => isFalse fun e => h (Expr.repeated.inj e).1
  | .rule i, .rule j => if h : i = j then isTrue (h ▸ rfl) else isFalse fun e => h (Expr.rule.inj e)
  | .terminal _, .sequence _ | .terminal _, .choice _ | .terminal _, .repeated _ _
  | .terminal _, .rule _ | .sequence _, .terminal _ | .sequence _, .choice _
  | .sequence _, .repeated _ _ | .sequence _, .rule _ | .choice _, .terminal _
  | .choice _, .sequence _ | .choice _, .repeated _ _ | .choice _, .rule _
  | .repeated _ _, .terminal _ | .repeated _ _, .sequence _ | .repeated _ _, .choice _
  | .repeated _ _, .rule _ | .rule _, .terminal _ | .rule _, .sequence _ | .rule _, .choice _
  | .rule _, .repeated _ _ => isFalse nofun

/-- Decides whether two lists of expressions are equal. -/
def decEqAll : (as bs : List Expr) → Decidable (as = bs)
  | [], [] => isTrue rfl
  | [], _ :: _ => isFalse nofun
  | _ :: _, [] => isFalse nofun
  | a :: as, b :: bs =>
    match decEq a b, decEqAll as bs with
    | isTrue h, isTrue k => isTrue (h ▸ k ▸ rfl)
    | isFalse h, _ => isFalse fun e => h (List.cons.inj e).1
    | _, isFalse k => isFalse fun e => k (List.cons.inj e).2

end

instance : DecidableEq Expr := decEq

end Expr

end PegGrammar
