import PegGrammar.Grammar.Basic

/-!
# Grammars under construction

Rules may refer to each other in cycles, so a rule can be declared before it is defined:
declaring it hands out its identifier, and defining it supplies the alternatives later.

A draft accepts every call. A definition that is out of place is remembered, and building the
grammar reports the first such call before anything else; giving a rule no alternatives is a fault
of the call itself and leaves the definition undone.

## Main definitions

* `Draft` — the declarations so far
* `Draft.declare`, `Draft.define`, `Draft.rule` — the calls
* `Draft.build` — the grammar, or the first thing wrong
* `Draft.Call`, `Draft.perform` — calls as data, and what a call answers
-/

namespace PegGrammar

/-- A declared rule. -/
structure Draft.Slot where
  /-- The name it was declared with. -/
  name : String
  /-- Its alternatives, once it is defined. -/
  body? : Option { alternatives : List Expr // alternatives ≠ [] } := none

/-- The rule of a slot that has been defined. -/
def Draft.Slot.rule? (slot : Draft.Slot) : Option Rule :=
  slot.body?.map fun body => ⟨slot.name, body.1, body.2⟩

/-- A grammar under construction. -/
structure Draft where
  /-- The declared rules, in order. -/
  slots : Array Draft.Slot := #[]
  /-- The first definition that was out of place. -/
  misuse? : Option GrammarError := none

namespace Draft

/-- The draft without declarations. -/
def empty : Draft := {}

/-- Declare a rule: its identifier, and the draft that knows it. -/
def declare (d : Draft) (name : String) : RuleId × Draft :=
  (⟨d.slots.size⟩, { d with slots := d.slots.push { name } })

/-- Remember a misuse, unless there has been one before. -/
def blame (d : Draft) (error : GrammarError) : Draft :=
  { d with misuse? := d.misuse?.or (some error) }

/-- Supply the alternatives of a declared rule. Defining it a second time, or defining a rule that
has not been declared, is remembered as a misuse and changes no rule. -/
def define (d : Draft) (id : RuleId) (alternatives : List Expr) : Except Fault Draft :=
  if h : alternatives = [] then .error (.noOperands .rule)
  else
    match d.slots[id.index]? with
    | none => .ok (d.blame (.unknownRule id))
    | some ⟨name, some _⟩ => .ok (d.blame (.alreadyDefined name))
    | some ⟨name, none⟩ =>
      .ok { d with slots := d.slots.setIfInBounds id.index ⟨name, some ⟨alternatives, h⟩⟩ }

/-- Declare and define a rule. It stays declared even when it cannot be defined. -/
def rule (d : Draft) (name : String) (alternatives : List Expr) : Except Fault RuleId × Draft :=
  let (id, declared) := d.declare name
  match declared.define id alternatives with
  | .ok defined => (.ok id, defined)
  | .error fault => (.error fault, declared)

/-- The name of a declared rule. -/
def name? (d : Draft) (id : RuleId) : Option String := d.slots[id.index]?.map Slot.name

/-- The rules of slots that are all defined, or the name of the first that is not. -/
def definedRules : List Slot → Except GrammarError (List Rule)
  | [] => .ok []
  | slot :: slots =>
    match slot.rule? with
    | none => .error (.undefinedRule slot.name)
    | some r => (definedRules slots).map (r :: ·)

/-- Finish the grammar. What is wrong is looked for in this order: misplaced definitions, rules
without a definition, the start rule, the rules. -/
def build (d : Draft) (start : RuleId) : Except GrammarError Grammar :=
  match d.misuse? with
  | some error => .error error
  | none => do
    let rules ← definedRules d.slots.toList
    match h : violation? rules.toArray start with
    | some error => .error error
    | none => .ok ⟨rules.toArray, start, h⟩

/-! ### Calls as data -/

/-- A call on a draft. -/
inductive Call where
  /-- Declare a rule. -/
  | declare (name : String)
  /-- Define a declared rule. -/
  | define (id : RuleId) (alternatives : List Expr)
  /-- Declare and define a rule. -/
  | rule (name : String) (alternatives : List Expr)

/-- Perform a call: the identifier it hands out, if any, and the draft after it. A call that is a
fault leaves behind what it did before the fault. -/
def perform (d : Draft) : Call → Except Fault (Option RuleId) × Draft
  | .declare name =>
    let (id, after) := d.declare name
    (.ok (some id), after)
  | .define id alternatives =>
    match d.define id alternatives with
    | .ok after => (.ok none, after)
    | .error fault => (.error fault, d)
  | .rule name alternatives =>
    let (answer, after) := d.rule name alternatives
    (answer.map some, after)

/-- The draft after a whole history of calls. -/
def performAll (d : Draft) (calls : List Call) : Draft :=
  calls.foldl (fun d call => (d.perform call).2) d

end Draft

end PegGrammar
