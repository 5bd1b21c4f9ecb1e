import PegGrammar.Data
import PegGrammar.Tree.Basic

/-!
# Reading and writing serialised trees

A record is written as an object with a field for each part; a case without parts is written as
its name, and a case with a part as an object whose only field has the name of the case.

Reading is more liberal than writing. The fields of a record may come in any order and among
others, a record may also be an array of exactly its parts in order, and a case without parts may
also be an object with the absent value. Nothing is checked beyond the shape: labels, spans and
lexemes of a tree that is read need not fit each other.

## Main definitions

* `Span.encode`, `Label.encode`, `Node.encode`, `SyntaxTree.encode` — writing
* `Span.decode?`, `Label.decode?`, `Node.decode?`, `SyntaxTree.decode?` — reading
-/

namespace PegGrammar

/-! ### Writing -/

/-- The value of a span. -/
def Span.encode (s : Span) : Data :=
  .object [("start", .ofNat s.start.toNat), ("end", .ofNat s.stop.toNat)]

/-- The name of a case of bounds. -/
def Bounds.caseName : Bounds → String
  | .zeroToOne => "ZeroToOne"
  | .zeroToMany => "ZeroToN"
  | .oneToMany => "OneToN"

/-- The value of a label. -/
def Label.encode : Label → Data
  | .rule name => .object [("Rule", .text name)]
  | .sequence => .text "Sequence"
  | .choice => .text "SubRule"
  | .repeated bounds => .object [("Quantifier", .text bounds.caseName)]
  | .literal => .text "Literal"
  | .charSet => .text "CharSet"
  | .charRange => .text "CharRange"
  | .any => .text "Any"
  | .endOfInput => .text "EndOfInput"

mutual

/-- The value of a node. -/
def Node.encode : Node String → Data
  | .leaf label span lexeme =>
    .object [("Leaf",
      .object [("label", label.encode), ("range", span.encode), ("text", .text lexeme)])]
  | .branch label span children =>
    .object [("Branch",
      .object [("label", label.encode), ("range", span.encode),
        ("children", .array (Node.encodeAll children))])]

/-- The values of several nodes. -/
def Node.encodeAll : List (Node String) → List Data
  | [] => []
  | n :: ns => n.encode :: Node.encodeAll ns

end

/-- The value of a syntax tree. -/
def SyntaxTree.encode (t : SyntaxTree) : Data := .object [("root", t.root.encode)]

/-! ### Reading -/

/-- A whole number of 32 bits. -/
def Data.word? : Data → Option UInt32
  | .number (.ofNat n) 0 => if n < UInt32.size then some n.toUInt32 else none
  | _ => none

/-- A text. -/
def Data.text? : Data → Option String
  | .text s => some s
  | _ => none

/-- A case without parts: its name. -/
def Data.caseName? : Data → Option String
  | .text name => some name
  | .object [(name, .null)] => some name
  | _ => none

/-- The span of a value. -/
def Span.decode? : Data → Option Span
  | .object fields => do
    return ⟨← (← Data.field? "start" fields).word?, ← (← Data.field? "end" fields).word?⟩
  | .array [start, stop] => do return ⟨← start.word?, ← stop.word?⟩
  | _ => none

/-- The bounds of a value. -/
def Bounds.decode? (d : Data) : Option Bounds :=
  match d.caseName? with
  | some "ZeroToOne" => some .zeroToOne
  | some "ZeroToN" => some .zeroToMany
  | some "OneToN" => some .oneToMany
  | _ => none

/-- The label of a case without parts. -/
def Label.ofCaseName? : String → Option Label
  | "Sequence" => some .sequence
  | "SubRule" => some .choice
  | "Literal" => some .literal
  | "CharSet" => some .charSet
  | "CharRange" => some .charRange
  | "Any" => some .any
  | "EndOfInput" => some .endOfInput
  | _ => none

/-- The label of a value. -/
def Label.decode? : Data → Option Label
  | .object [("Rule", d)] => d.text?.map .rule
  | .object [("Quantifier", d)] => (Bounds.decode? d).map .repeated
  | d => d.caseName?.bind Label.ofCaseName?

/-- The three parts of a record, from its fields or from an array of the parts in order. -/
def Data.parts? (first second third : String) : Data → Option (Data × Data × Data)
  | .object fields => do
    return (← Data.field? first fields, ← Data.field? second fields, ← Data.field? third fields)
  | .array [a, b, c] => some (a, b, c)
  | _ => none

/-- The parts of a record are smaller than the record. -/
theorem Data.sizeOf_third_lt {first second third : String} {d a b c : Data}
    (h : d.parts? first second third = some (a, b, c)) : sizeOf c < sizeOf d := by
  unfold Data.parts? at h
  split at h
  · rename_i fields
    simp only [bind, pure, Option.bind_eq_some_iff] at h
    obtain ⟨_, _, _, _, _, h, e⟩ := h
    cases e
    have := Data.sizeOf_field?_lt h
    simp only [Data.object.sizeOf_spec]
    omega
  · cases h
    simp only [Data.array.sizeOf_spec, List.cons.sizeOf_spec, List.nil.sizeOf_spec]
    omega
  · cases h

mutual

/-- The node of a value. -/
def Node.decode? (d : Data) : Option (Node String) :=
  match d with
  | .object [("Leaf", record)] =>
    match record.parts? "label" "range" "text" with
    | some (label, span, lexeme) => do
      return .leaf (← Label.decode? label) (← Span.decode? span) (← lexeme.text?)
    | none => none
  | .object [("Branch", record)] =>
    match _h : record.parts? "label" "range" "children" with
    | some (label, span, .array children) => do
      return .branch (← Label.decode? label) (← Span.decode? span) (← Node.decodeAll? children)
    | _ => none
  | _ => none
termination_by sizeOf d
decreasing_by
  have := Data.sizeOf_third_lt _h
  simp only [Data.array.sizeOf_spec, Data.object.sizeOf_spec, List.cons.sizeOf_spec,
    Prod.mk.sizeOf_spec] at this ⊢
  omega

/-- The nodes of several values. -/
def Node.decodeAll? (ds : List Data) : Option (List (Node String)) :=
  match ds with
  | [] => some []
  | d :: ds => do return (← Node.decode? d) :: (← Node.decodeAll? ds)
termination_by sizeOf ds

end

/-- The syntax tree of a value. -/
def SyntaxTree.decode? : Data → Option SyntaxTree
  | .object fields => do return ⟨← Node.decode? (← Data.field? "root" fields)⟩
  | .array [root] => do return ⟨← Node.decode? root⟩
  | _ => none

end PegGrammar
