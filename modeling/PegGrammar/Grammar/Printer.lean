import PegGrammar.Grammar.Discovery

/-!
# The text of a grammar

A rule is printed as its name, one line for each alternative and a closing line; a grammar as the
rules that can be reached through alternatives that are references, with a blank line between two.
-/

namespace PegGrammar.Grammar

/-- The text of an expression under this grammar. A reference that the grammar does not have has
no name, and printing it is a fault. -/
def render (g : Grammar) (e : Expr) : Except Fault String :=
  match e.refs.find? (g.rules.size ≤ ·.index) with
  | some id => .error (.unknownRule id)
  | none => .ok (e.render g.nameOf)

/-- The lines of a rule after its name: each alternative behind a sign, then the closing line. -/
def alternativeLines (g : Grammar) (r : Rule) : List String :=
  match r.alternatives with
  | [] => ["  ;"]
  | first :: others =>
    ("  : " ++ first.render g.nameOf)
      :: others.map (fun e => "  | " ++ e.render g.nameOf) ++ ["  ;"]

/-- The text of a rule. -/
def writeRule (g : Grammar) (r : Rule) : String :=
  "\n".intercalate (r.name :: g.alternativeLines r)

/-- The text of the rule of that number. -/
def ruleText (g : Grammar) (id : RuleId) : Except Fault String := (g.rule id).map g.writeRule

/-- The text of the grammar. -/
def text (g : Grammar) : String :=
  "\n\n".intercalate (((g.discover .directAlternatives).filterMap g.rule?).map g.writeRule)

end PegGrammar.Grammar
