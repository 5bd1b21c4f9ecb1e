import PegGrammar.Tree.Basic

/-!
# Tree dumps

A dump shows a tree with one line for each node, in pre-order, indented by its depth: the label,
the span, and for a leaf its quoted lexeme. A quoted lexeme has no line break in it, so lines and
nodes correspond.
-/

namespace PegGrammar

/-- How a dump is laid out. -/
structure DumpStyle where
  /-- What each level is indented by. -/
  indent : String := "  "
  /-- Whether spans are shown. -/
  showSpans : Bool := true
  deriving DecidableEq, Repr

namespace Node

/-- The text of a node's own line after the indentation. -/
def headline (style : DumpStyle) (n : Node String) : String :=
  n.label.text
    ++ (if style.showSpans then "@" ++ n.span.text else "")
    ++ (match n.lexeme? with
        | some lexeme => " " ++ Text.quoteText lexeme
        | none => "")

mutual

/-- The lines of a tree, of which the root is indented by `margin`. -/
def dumpLines (style : DumpStyle) (margin : String) : Node String → List String
  | .leaf label span lexeme => [margin ++ headline style (.leaf label span lexeme) ++ "\n"]
  | .branch label span children =>
    (margin ++ headline style (.branch label span children) ++ "\n")
      :: dumpLinesAll style (margin ++ style.indent) children

/-- The lines of several trees, of which the roots are indented by `margin`. -/
def dumpLinesAll (style : DumpStyle) (margin : String) : List (Node String) → List String
  | [] => []
  | n :: ns => dumpLines style margin n ++ dumpLinesAll style margin ns

end

/-- The dump of a tree. -/
def dump (n : Node String) (style : DumpStyle := {}) : String :=
  String.join (n.dumpLines style "")

end Node

/-- The dump of a syntax tree in the default style. -/
def SyntaxTree.dump (t : SyntaxTree) (style : DumpStyle := {}) : String := t.root.dump style

end PegGrammar
