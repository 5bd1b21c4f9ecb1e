/-!
# Rule identifiers

A grammar numbers its rules in order of declaration, and expressions refer to a rule by its
number. An identifier is only a number: whether some grammar has a rule under it is a question
for that grammar.
-/

namespace PegGrammar

/-- The number of a rule, counted from zero in order of declaration. -/
structure RuleId where
  /-- Place of the rule among the declarations. -/
  index : Nat
  deriving DecidableEq, Repr, Inhabited

/-- The form in which messages show an identifier, such as `#7`. -/
def RuleId.text (id : RuleId) : String := "#" ++ toString id.index

end PegGrammar
