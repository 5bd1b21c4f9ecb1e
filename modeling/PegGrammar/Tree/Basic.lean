import PegGrammar.Expr.Basic
import PegGrammar.Text.Span

/-!
# Syntax trees

A match is a tree. Each node has a label that says which form of expression produced it and the
span of text it covers; leaves come from terminals and branches from everything else.

Matching records only spans. The text of each leaf is attached afterwards, which turns a tree
without lexemes, `Node Unit`, into a syntax tree, `Node String`.

## Implementation notes

Trees may also be read from outside (`PegGrammar.Tree.Codec`), so the type allows any label on any
node and any span: what the trees of a parse satisfy beyond that is a theorem about parsing.
-/

namespace PegGrammar

/-! ### Labels -/

/-- The form of expression that produced a node. -/
inductive Label where
  /-- A rule of that name. -/
  | rule (name : String)
  /-- A sequence. -/
  | sequence
  /-- A choice inside an expression. -/
  | choice
  /-- A repetition within these bounds. -/
  | repeated (bounds : Bounds)
  /-- A literal text. -/
  | literal
  /-- A character of a set. -/
  | charSet
  /-- A character of a range. -/
  | charRange
  /-- Any character. -/
  | any
  /-- The end of the text. -/
  | endOfInput
  deriving DecidableEq, Repr

namespace Label

/-- The form in which dumps show a label. -/
def text : Label → String
  | .rule name => name
  | .sequence => "<seq>"
  | .choice => "<|>"
  | .repeated bounds => "<" ++ String.singleton bounds.symbol ++ ">"
  | .literal => "Literal"
  | .charSet => "CharSet"
  | .charRange => "CharRange"
  | .any => "Any"
  | .endOfInput => "EOF"

/-- The name of the rule that the label stands for. -/
def ruleName? : Label → Option String
  | .rule name => some name
  | _ => none

/-- Whether the label is that of a combination without a name: a sequence, choice or repetition. -/
def isAnonymous : Label → Bool
  | .sequence | .choice | .repeated _ => true
  | _ => false

end Label

/-- The label of what a terminal matches. -/
def Terminal.label : Terminal → Label
  | .literal _ => .literal
  | .charSet _ => .charSet
  | .charRange _ _ => .charRange
  | .any => .any
  | .endOfInput => .endOfInput

/-! ### Nodes -/

/-- A node of a match. Leaves carry a lexeme of type `α`. -/
inductive Node (α : Type) where
  /-- What a terminal matched. -/
  | leaf (label : Label) (span : Span) (lexeme : α)
  /-- What a combination matched, with the matches of its parts in order. -/
  | branch (label : Label) (span : Span) (children : List (Node α))

/-- The result of a successful parse. -/
structure SyntaxTree where
  /-- The node of the start rule. -/
  root : Node String

namespace Node

variable {α : Type}

/-- The label of a node. -/
def label : Node α → Label
  | .leaf label _ _ | .branch label _ _ => label

/-- The span of a node. -/
def span : Node α → Span
  | .leaf _ span _ | .branch _ span _ => span

/-- The children of a node, from left to right. A leaf has none. -/
def children : Node α → List (Node α)
  | .leaf _ _ _ => []
  | .branch _ _ children => children

/-- Whether the node is a leaf. -/
def isLeaf : Node α → Bool
  | .leaf _ _ _ => true
  | .branch _ _ _ => false

/-- The lexeme of a leaf. -/
def lexeme? : Node α → Option α
  | .leaf _ _ lexeme => some lexeme
  | .branch _ _ _ => none

/-! ### Attaching lexemes -/

mutual

/-- The tree with the text of its span at each leaf. -/
def withLexemes (text : List Char) : Node Unit → Except Fault (Node String)
  | .leaf label span _ => return .leaf label span (String.ofList (← span.slice text))
  | .branch label span children => return .branch label span (← withLexemesAll text children)

/-- The trees with the text of its span at each leaf. -/
def withLexemesAll (text : List Char) : List (Node Unit) → Except Fault (List (Node String))
  | [] => return []
  | n :: ns => return (← withLexemes text n) :: (← withLexemesAll text ns)

end

/-! ### Decidable equality -/

mutual

/-- Decides whether two nodes are equal. -/
def decEq [DecidableEq α] : (a b : Node α) → Decidable (a = b)
  | .leaf k s x, .leaf l t y =>
    if h : k = l ∧ s = t ∧ x = y then isTrue (by obtain ⟨rfl, rfl, rfl⟩ := h; rfl)
    else isFalse fun e => h (Node.leaf.inj e)
  | .branch k s as, .branch l t bs =>
    if h : k = l ∧ s = t then
      match decEqAll as bs with
      | isTrue g => isTrue (by obtain ⟨rfl, rfl⟩ := h; rw [g])
      | isFalse g => isFalse fun e => g (Node.branch.inj e).2.2
    else isFalse fun e => h ⟨(Node.branch.inj e).1, (Node.branch.inj e).2.1⟩
  | .leaf _ _ _, .branch _ _ _ => isFalse nofun
  | .branch _ _ _, .leaf _ _ _ => isFalse nofun

/-- Decides whether two lists of nodes are equal. -/
def decEqAll [DecidableEq α] : (as bs : List (Node α)) → Decidable (as = bs)
  | [], [] => isTrue rfl
  | [], _ :: _ => isFalse nofun
  | _ :: _, [] => isFalse nofun
  | a :: as, b :: bs =>
    match decEq a b with
    | isTrue h =>
      match decEqAll as bs with
      | isTrue k => isTrue (h ▸ k ▸ rfl)
      | isFalse k => isFalse fun e => k (List.cons.inj e).2
    | isFalse h => isFalse fun e => h (List.cons.inj e).1

end

instance [DecidableEq α] : DecidableEq (Node α) := decEq

end Node

deriving instance DecidableEq for SyntaxTree

/-- The syntax tree of a match of the text. -/
def SyntaxTree.ofMatch (node : Node Unit) (text : List Char) : Except Fault SyntaxTree :=
  return ⟨← node.withLexemes text⟩

end PegGrammar
