import PegGrammar.Expr.Printer
import PegGrammar.Fault

/-!
# Grammars

A grammar is a table of named rules with one of them as its start. Every grammar is closed and
solid: each rule reference in it, at any depth, has a rule, and none of its sequences and choices
is empty. Both conditions are part of the type, so that no function on grammars has to ask for
them again.

## Main definitions

* `GrammarError` — what can be wrong with a table of rules
* `violation?` — the first thing wrong with a table, in reading order
* `Grammar` — a table with nothing wrong
-/

namespace PegGrammar

/-! ### Rules -/

/-- A named rule with its alternatives, of which the first that matches is taken. -/
structure Rule where
  /-- The name, which labels the nodes of the rule. Several rules may share it. -/
  name : String
  /-- What the rule matches, in order of preference. -/
  alternatives : List Expr
  /-- A rule without alternatives cannot be given. -/
  alternatives_ne_nil : alternatives ≠ []
  deriving DecidableEq

/-! ### What can be wrong -/

/-- The two constructs that are ill-formed without elements. -/
inductive EmptyKind where
  /-- A sequence of nothing. -/
  | sequence
  /-- A choice between nothing. -/
  | choice
  deriving DecidableEq, Repr

/-- The name by which messages call an empty construct. -/
def EmptyKind.text : EmptyKind → String
  | .sequence => "sequence"
  | .choice => "sub-rule"

/-- Why there is no grammar. -/
inductive GrammarError where
  /-- A rule was declared but never given alternatives. -/
  | undefinedRule (name : String)
  /-- A rule was given alternatives twice. -/
  | alreadyDefined (name : String)
  /-- An identifier was used that stands for no rule. -/
  | unknownRule (id : RuleId)
  /-- A rule contains a sequence or choice without elements. -/
  | emptyCombinator (rule : String) (kind : EmptyKind)
  deriving DecidableEq, Repr

/-- The message of a grammar error. -/
def GrammarError.message : GrammarError → String
  | .undefinedRule name => "rule '" ++ name ++ "' is declared but never defined"
  | .alreadyDefined name => "rule '" ++ name ++ "' is defined more than once"
  | .unknownRule id => "rule " ++ id.text ++ " was not declared by this builder"
  | .emptyCombinator rule kind => "rule '" ++ rule ++ "' contains an empty " ++ kind.text

/-- The code of a grammar error, by which tools tell the kinds apart. -/
def GrammarError.code : GrammarError → String
  | .undefinedRule _ => "grammar::undefined_rule"
  | .alreadyDefined _ => "grammar::already_defined"
  | .unknownRule _ => "grammar::unknown_rule"
  | .emptyCombinator _ _ => "grammar::empty_combinator"

mutual

/-- The first thing wrong with an expression of the rule `owner`, in a table of `size` rules. An
empty construct comes before anything inside it, and elements count from left to right. -/
def Expr.violation? (size : Nat) (owner : String) : Expr → Option GrammarError
  | .terminal _ => none
  | .rule id => if id.index < size then none else some (.unknownRule id)
  | .repeated e _ => e.violation? size owner
  | .sequence [] => some (.emptyCombinator owner .sequence)
  | .choice [] => some (.emptyCombinator owner .choice)
  | .sequence (e :: es) => (e.violation? size owner).or (Expr.violationAny? size owner es)
  | .choice (e :: es) => (e.violation? size owner).or (Expr.violationAny? size owner es)

/-- The first thing wrong with several expressions. -/
def Expr.violationAny? (size : Nat) (owner : String) : List Expr → Option GrammarError
  | [] => none
  | e :: es => (e.violation? size owner).or (Expr.violationAny? size owner es)

end

/-- The first thing wrong with a table of rules: first the start, then the rules in order. -/
def violation? (rules : Array Rule) (start : RuleId) : Option GrammarError :=
  if start.index < rules.size then
    rules.toList.findSome? fun rule =>
      Expr.violationAny? rules.size rule.name rule.alternatives
  else some (.unknownRule start)

/-! ### Grammars -/

/-- A table of rules with nothing wrong. -/
structure Grammar where
  /-- The rules, numbered from zero. -/
  rules : Array Rule
  /-- The rule with which a text is parsed. -/
  start : RuleId
  /-- References have rules, and sequences and choices have elements. -/
  valid : violation? rules start = none
  deriving DecidableEq

namespace Grammar

/-- The rule of that number, if there is one. -/
def rule? (g : Grammar) (id : RuleId) : Option Rule := g.rules[id.index]?

/-- The rule of that number. An identifier that the grammar does not have is a fault. -/
def rule (g : Grammar) (id : RuleId) : Except Fault Rule :=
  match g.rule? id with
  | some r => .ok r
  | none => .error (.unknownRule id)

/-- The identifiers of the grammar, in order of declaration. -/
def ids (g : Grammar) : List RuleId := (List.range g.rules.size).map RuleId.mk

/-- The first declared rule of that name. -/
def ruleByName? (g : Grammar) (name : String) : Option RuleId :=
  (g.rules.findIdx? (·.name == name)).map RuleId.mk

/-- The name of a rule, and the empty text for an identifier that the grammar does not have. -/
def nameOf (g : Grammar) (id : RuleId) : String := ((g.rule? id).map Rule.name).getD ""

end Grammar

end PegGrammar
