import PegGrammar.Expr.Basic
import PegGrammar.Fault

/-!
# Building expressions

The constructors of `Expr` accept any operands. The functions here are the ones to build a grammar
with: they refuse a construct without operands and a character range without characters, so what
they build from well-formed parts is well formed.
-/

namespace PegGrammar.Expr

/-- Exactly this text. -/
def literal (text : String) : Expr := .terminal (.literal text)

/-- One of the characters of this text. -/
def charSet (chars : String) : Expr := .terminal (.charSet (.ofString chars))

/-- One character from `first` to `last`, both included. -/
def charRange (first last : Char) : Except Fault Expr :=
  if first ≤ last then .ok (.terminal (.charRange first last))
  else .error (.emptyRange first last)

/-- Each of the expressions after the one before it. -/
def seq : List Expr → Except Fault Expr
  | [] => .error (.noOperands .sequence)
  | es => .ok (.sequence es)

/-- The first of the expressions that matches. -/
def alt : List Expr → Except Fault Expr
  | [] => .error (.noOperands .choice)
  | es => .ok (.choice es)

/-- The expressions, as one operand, repeated within bounds. A single expression is the operand
itself; several are a sequence. -/
def quantify (bounds : Bounds) : List Expr → Except Fault Expr
  | [] => .error (.noOperands .repetition)
  | [e] => .ok (.repeated e bounds)
  | es => .ok (.repeated (.sequence es) bounds)

/-- Any number of items with a delimiter between each two of them. -/
def list (item : Expr) (delimiter : String) : Expr :=
  .repeated (.sequence [item, .repeated (.sequence [literal delimiter, item]) .zeroToMany])
    .zeroToOne

/-- A delimited list of items between an opening and a closing text. -/
def enclosedList (item : Expr) (delimiter opening closing : String) : Expr :=
  .sequence [literal opening, list item delimiter, literal closing]

end PegGrammar.Expr
