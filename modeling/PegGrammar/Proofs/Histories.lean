import Mathlib.Data.List.Induction
import PegGrammar.Grammar.Draft
import PegGrammar.Proofs.Subexpressions

/-!
# Histories of a draft

A draft remembers as little as it can: the declared rules, the alternatives of those that have been
defined, and the first definition that was out of place. Here each of these is read off the history
of the calls instead, so that what becomes of a draft can be said in terms of the calls alone.

## What counts as a definition

A call without alternatives is a fault and defines nothing, and so does a call for a rule that has
not been declared by then, even if a rule of that number is declared later. Every other call
defines its rule, also when the rule has been defined before: the second definition is out of
place, and it is the first whose alternatives the draft keeps.

## The argument

`Tracks` relates a draft to a history, one field of the draft at a time. It holds of the empty
draft, and `Tracks.concat` says what one more call has to do to each field for it to hold again.
No later argument looks into a draft again.

## Main definitions

* `declaredNames`, `definitions` — what a history declares and defines
* `WellPlaced`, `FirstMisplaced` — whether a definition is out of place, and which is the first

## Main results

* `tracks_performAll` — what a draft remembers of its history
-/

namespace PegGrammar.Draft

variable {calls before after : List Call} {call : Call} {id : RuleId} {err : GrammarError}

/-! ### What a history declares and defines -/

/-- The name that a call declares, if it declares one. -/
def Call.declares? : Call → Option String
  | .declare name | .rule name _ => some name
  | .define _ _ => none

/-- The names that a history declares, in order. -/
def declaredNames (calls : List Call) : List String := calls.filterMap Call.declares?

/-- What a call defines while `count` rules are declared. -/
def Call.defines (count : Nat) : Call → List (RuleId × List Expr)
  | .declare _ => []
  | .define id alternatives =>
    if alternatives ≠ [] ∧ id.index < count then [(id, alternatives)] else []
  | .rule _ alternatives => if alternatives ≠ [] then [(⟨count⟩, alternatives)] else []

/-- What a history defines that begins while `count` rules are declared. -/
def definitionsFrom (count : Nat) : List Call → List (RuleId × List Expr)
  | [] => []
  | call :: calls =>
    call.defines count ++ definitionsFrom (count + (declaredNames [call]).length) calls

/-- The definitions of a history, in order: a rule and its alternatives. -/
def definitions (calls : List Call) : List (RuleId × List Expr) := definitionsFrom 0 calls

/-- The first alternatives that a history gives to a rule. -/
def firstDefinition? (calls : List Call) (id : RuleId) : Option (List Expr) :=
  ((definitions calls).find? (·.1 = id)).map Prod.snd

/-! ### Well-formed histories -/

/-- Every definition is of a rule that has been declared by then and has not been defined. -/
def WellPlaced (calls : List Call) : Prop :=
  ∀ (before : List Call) (id : RuleId) (alternatives : List Expr) (after : List Call),
    calls = before ++ .define id alternatives :: after → alternatives ≠ [] →
    id.index < (declaredNames before).length ∧ ∀ body, (id, body) ∉ definitions before

/-- The rule of that number is defined. -/
def Defined (calls : List Call) (i : Nat) : Prop := ∃ body, (⟨i⟩, body) ∈ definitions calls

/-- What is wrong with a call after the calls before it, if it is a definition out of place. -/
def misplacement? (before : List Call) : Call → Option GrammarError
  | .declare _ | .rule _ _ | .define _ [] => none
  | .define id (_ :: _) =>
    match (declaredNames before)[id.index]?, firstDefinition? before id with
    | none, _ => some (.unknownRule id)
    | some name, some _ => some (.alreadyDefined name)
    | some _, none => none

/-! ### One more call -/

@[simp] theorem declaredNames_concat (calls : List Call) (call : Call) :
    declaredNames (calls ++ [call]) = declaredNames calls ++ call.declares?.toList := by
  cases h : call.declares? <;> simp [declaredNames, h]

/-- The definitions in a second part of a history, with the rules numbered from where the first part
left off. -/
theorem definitionsFrom_append (count : Nat) (calls more : List Call) :
    definitionsFrom count (calls ++ more)
      = definitionsFrom count calls
        ++ definitionsFrom (count + (declaredNames calls).length) more := by
  induction calls generalizing count with
  | nil => rfl
  | cons call calls ih =>
    have hcount : (declaredNames (call :: calls)).length
        = (declaredNames [call]).length + (declaredNames calls).length := by
      rw [declaredNames, declaredNames, declaredNames, ← List.length_append,
        ← List.filterMap_append, List.singleton_append]
    rw [List.cons_append, definitionsFrom, definitionsFrom, ih, List.append_assoc, hcount,
      Nat.add_assoc]

/-- A history is followed call by call. The number of a rule that the last call declares and defines
at once is the number of rules declared before it. -/
@[simp] theorem definitions_concat (calls : List Call) (call : Call) :
    definitions (calls ++ [call])
      = definitions calls ++ call.defines (declaredNames calls).length := by
  rw [definitions, definitionsFrom_append, Nat.zero_add]
  simp only [definitionsFrom, List.append_nil]
  rfl

/-- A later definition counts only if there was none before. -/
theorem firstDefinition?_concat (calls : List Call) (call : Call) (id : RuleId) :
    firstDefinition? (calls ++ [call]) id = (firstDefinition? calls id).or
      (((call.defines (declaredNames calls).length).find? (·.1 = id)).map Prod.snd) := by
  rw [firstDefinition?, definitions_concat, List.find?_append, Option.map_or]
  rfl

/-- A rule is without a first definition only if it is without any, so a slot that is still empty
says something about the whole history. -/
theorem firstDefinition?_eq_none_iff :
    firstDefinition? calls id = none ↔ ∀ body, (id, body) ∉ definitions calls := by
  rw [firstDefinition?, Option.map_eq_none_iff, List.find?_eq_none]
  constructor
  · intro h body hbody
    simpa using h _ hbody
  · rintro h ⟨other, body⟩ hmem
    rw [decide_eq_true_iff]
    rintro rfl
    exact h body hmem

theorem mem_definitions_of_firstDefinition? {body : List Expr}
    (h : firstDefinition? calls id = some body) : (id, body) ∈ definitions calls := by
  obtain ⟨⟨other, body'⟩, hfind, rfl⟩ := Option.map_eq_some_iff.mp h
  obtain rfl : other = id := by simpa using List.find?_some hfind
  exact List.mem_of_find?_eq_some hfind

theorem defined_iff {i : Nat} :
    Defined calls i ↔ ∃ body, firstDefinition? calls ⟨i⟩ = some body := by
  rw [← Option.isSome_iff_exists, ← not_iff_not, Option.not_isSome_iff_eq_none,
    firstDefinition?_eq_none_iff, Defined, not_exists]

/-- A split of a history that ends with a call is at that call or before it. -/
theorem concat_eq_append_cons_iff {last : Call} :
    calls ++ [last] = before ++ call :: after ↔
      (calls = before ∧ last = call ∧ after = []) ∨
        ∃ rest, calls = before ++ call :: rest ∧ after = rest ++ [last] := by
  rcases List.eq_nil_or_concat after with rfl | ⟨rest, other, rfl⟩
  · simp
  · constructor
    · intro h
      rw [List.concat_eq_append, ← List.cons_append, ← List.append_assoc] at h
      obtain ⟨hcalls, hlast⟩ := List.append_inj' h rfl
      exact Or.inr ⟨rest, hcalls, by rw [hlast, List.concat_eq_append]⟩
    · rintro (⟨_, _, hnil⟩ | ⟨rest', hcalls, hafter⟩)
      · simp at hnil
      · rw [hcalls, hafter, List.append_assoc, List.cons_append]

theorem misplacement?_define_eq_none_iff {alternatives : List Expr} (h : alternatives ≠ []) :
    misplacement? before (.define id alternatives) = none ↔
      id.index < (declaredNames before).length ∧ ∀ body, (id, body) ∉ definitions before := by
  obtain ⟨first, others, rfl⟩ := List.exists_cons_of_ne_nil h
  rw [← firstDefinition?_eq_none_iff, misplacement?]
  cases hname : (declaredNames before)[id.index]? with
  | none => simpa using fun hlt => absurd hlt (by simpa using hname)
  | some name =>
    obtain ⟨hlt, _⟩ := List.getElem?_eq_some_iff.mp hname
    cases firstDefinition? before id <;> simp [hlt]

/-- The condition on definitions, as a condition on every call. It is the form that can be taken
apart at the last call of a history. -/
theorem wellPlaced_iff :
    WellPlaced calls ↔ ∀ before call after, calls = before ++ call :: after →
      misplacement? before call = none := by
  constructor
  · rintro h before call after hcalls
    match call with
    | .declare _ | .rule _ _ | .define _ [] => rfl
    | .define id (first :: others) =>
      exact (misplacement?_define_eq_none_iff (List.cons_ne_nil _ _)).mpr
        (h before id _ after hcalls (List.cons_ne_nil _ _))
  · intro h before id alternatives after hcalls hne
    exact (misplacement?_define_eq_none_iff hne).mp (h before _ after hcalls)

/-- The invariant of a history, one call on. Whether a call is in its place depends on the calls
before it only. -/
theorem wellPlaced_concat_iff :
    WellPlaced (calls ++ [call]) ↔ WellPlaced calls ∧ misplacement? calls call = none := by
  simp only [wellPlaced_iff, concat_eq_append_cons_iff]
  constructor
  · intro h
    exact ⟨fun before call after hcalls => h before call _ (Or.inr ⟨after, hcalls, rfl⟩),
      h calls call [] (Or.inl ⟨rfl, rfl, rfl⟩)⟩
  · rintro ⟨h, hlast⟩ before call after (⟨rfl, rfl, rfl⟩ | ⟨rest, hcalls, rfl⟩)
    · exact hlast
    · exact h before call rest hcalls

/-- The error is that of the first definition out of place. -/
def FirstMisplaced (calls : List Call) (err : GrammarError) : Prop :=
  ∃ before call after, calls = before ++ call :: after ∧ WellPlaced before ∧
    misplacement? before call = some err

/-- The first call out of place stays the first, and a later one becomes it only if everything
before was well placed. -/
theorem firstMisplaced_concat_iff :
    FirstMisplaced (calls ++ [call]) err ↔
      FirstMisplaced calls err ∨ (WellPlaced calls ∧ misplacement? calls call = some err) := by
  simp only [FirstMisplaced, concat_eq_append_cons_iff]
  constructor
  · rintro ⟨before, call, after, ⟨rfl, rfl, rfl⟩ | ⟨rest, hcalls, rfl⟩, hbefore, herr⟩
    · exact Or.inr ⟨hbefore, herr⟩
    · exact Or.inl ⟨before, call, rest, hcalls, hbefore, herr⟩
  · rintro (⟨before, other, rest, hcalls, hbefore, herr⟩ | ⟨hcalls, herr⟩)
    · exact ⟨before, other, _, Or.inr ⟨rest, hcalls, rfl⟩, hbefore, herr⟩
    · exact ⟨calls, call, [], Or.inl ⟨rfl, rfl, rfl⟩, hcalls, herr⟩

/-! ### A draft and its history -/

/-- The alternatives that a draft has for the rule of that number. -/
def bodyOf? (d : Draft) (i : Nat) : Option (List Expr) :=
  (d.slots[i]?.bind Slot.body?).map Subtype.val

/-- What a draft remembers of a history. -/
structure Tracks (calls : List Call) (d : Draft) : Prop where
  /-- The names of the declared rules. -/
  names : d.slots.toList.map Slot.name = declaredNames calls
  /-- The alternatives that each rule was given first. -/
  bodies : ∀ i, d.bodyOf? i = firstDefinition? calls ⟨i⟩
  /-- Nothing out of place, if nothing was. -/
  misuse_eq_none_iff : d.misuse? = none ↔ WellPlaced calls
  /-- The first definition out of place otherwise. -/
  misuse_eq_some_iff : ∀ err, d.misuse? = some err ↔ FirstMisplaced calls err

theorem tracks_empty : Tracks [] empty where
  names := rfl
  bodies _ := rfl
  misuse_eq_none_iff := by
    refine iff_of_true rfl fun before id alternatives after hcalls => ?_
    simp at hcalls
  misuse_eq_some_iff err := by
    refine iff_of_false nofun ?_
    rintro ⟨before, call, after, hcalls, _⟩
    simp at hcalls

namespace Tracks

variable {d d' : Draft}

theorem size_slots (h : Tracks calls d) : d.slots.size = (declaredNames calls).length := by
  rw [← h.names, List.length_map, Array.length_toList]

/-- A rule has a slot of its own if it has been declared, under the number that its declaration gave
it. -/
theorem getElem?_names (h : Tracks calls d) (i : Nat) :
    (declaredNames calls)[i]? = d.slots[i]?.map Slot.name := by
  rw [← h.names, List.getElem?_map, Array.getElem?_toList]

/-- **One more call.** A call has to add what it declares to the names, what it defines to the
rules without alternatives, and what is wrong with it to a draft without misuse. -/
theorem concat (h : Tracks calls d)
    (hnames : d'.slots.toList.map Slot.name = d.slots.toList.map Slot.name ++ call.declares?.toList)
    (hbodies : ∀ i, d'.bodyOf? i = (d.bodyOf? i).or
      (((call.defines d.slots.size).find? (·.1 = ⟨i⟩)).map Prod.snd))
    (hmisuse : d'.misuse? = d.misuse?.or (misplacement? calls call)) :
    Tracks (calls ++ [call]) d' where
  names := by rw [hnames, h.names, declaredNames_concat]
  bodies i := by rw [hbodies, h.bodies, h.size_slots, firstDefinition?_concat]
  misuse_eq_none_iff := by
    rw [hmisuse, Option.or_eq_none_iff, wellPlaced_concat_iff, h.misuse_eq_none_iff]
  misuse_eq_some_iff err := by
    rw [hmisuse, Option.or_eq_some_iff, firstMisplaced_concat_iff, h.misuse_eq_some_iff,
      h.misuse_eq_none_iff]

end Tracks

/-! ### What each call does -/

section Calls

variable {d : Draft} {alternatives : List Expr} {name : String}

theorem names_declare (d : Draft) (name : String) :
    (d.declare name).2.slots.toList.map Slot.name = d.slots.toList.map Slot.name ++ [name] := by
  simp [declare]

theorem bodyOf?_declare (d : Draft) (name : String) (i : Nat) :
    (d.declare name).2.bodyOf? i = d.bodyOf? i := by
  rw [bodyOf?, bodyOf?, declare, Array.getElem?_push]
  split
  next h => rw [h, Array.getElem?_size]; rfl
  next => rfl

theorem define_nil (d : Draft) (id : RuleId) : d.define id [] = .error (.noOperands .rule) := rfl

/-- A definition without a declared rule is noted and otherwise ignored. -/
theorem define_unknown (hne : alternatives ≠ []) (hslot : d.slots[id.index]? = none) :
    d.define id alternatives = .ok (d.blame (.unknownRule id)) := by
  rw [define, dif_neg hne, hslot]

/-- A second definition is noted under the name of the rule, whose alternatives stay as they
were. -/
theorem define_again {body : { alternatives : List Expr // alternatives ≠ [] }}
    (hne : alternatives ≠ []) (hslot : d.slots[id.index]? = some ⟨name, some body⟩) :
    d.define id alternatives = .ok (d.blame (.alreadyDefined name)) := by
  rw [define, dif_neg hne, hslot]

/-- A definition in its place gives the rule its alternatives and changes nothing else. -/
theorem exists_define_fresh (id : RuleId) (hne : alternatives ≠ [])
    (hslot : d.slots[id.index]? = some ⟨name, none⟩) :
    ∃ d', d.define id alternatives = .ok d' ∧
      d'.slots.toList.map Slot.name = d.slots.toList.map Slot.name ∧ d'.misuse? = d.misuse? ∧
      ∀ i, d'.bodyOf? i = if i = id.index then some alternatives else d.bodyOf? i := by
  obtain ⟨hlt, hget⟩ := Array.getElem?_eq_some_iff.mp hslot
  refine ⟨{ d with slots := d.slots.setIfInBounds id.index ⟨name, some ⟨alternatives, hne⟩⟩ }, ?_,
    ?_, rfl, fun i => ?_⟩
  · rw [define, dif_neg hne, hslot]
  · rw [Array.toList_setIfInBounds, List.map_set]
    have hname : (d.slots.toList.map Slot.name)[id.index]? = some name := by
      rw [List.getElem?_map, Array.getElem?_toList, hslot, Option.map_some]
    obtain ⟨_, rfl⟩ := List.getElem?_eq_some_iff.mp hname
    exact List.set_getElem_self _
  · rw [bodyOf?, bodyOf?, Array.getElem?_setIfInBounds]
    split
    next h => rw [if_pos h.symm]; rfl
    next h => rw [if_neg (Ne.symm h)]

end Calls

namespace Tracks

variable {d : Draft} {alternatives : List Expr} {name : String}

/-- The calls that only declare a rule: a slot is added, and no rule gets alternatives. -/
theorem declare (h : Tracks calls d) (hnames : call.declares? = some name)
    (hdefines : call.defines d.slots.size = []) (hplaced : misplacement? calls call = none) :
    Tracks (calls ++ [call]) (d.declare name).2 := by
  refine h.concat ?_ (fun i => ?_) ?_
  · rw [names_declare, hnames]
    rfl
  · rw [bodyOf?_declare, hdefines]
    simp
  · rw [hplaced, Option.or_none]
    rfl

/-- The calls that are out of place: an error is noted if it is the first, and no rule is
touched. -/
theorem blame (h : Tracks calls d) (hnames : call.declares? = none)
    (hbodies : ∀ i, d.bodyOf? i = none →
      (call.defines d.slots.size).find? (·.1 = (⟨i⟩ : RuleId)) = none)
    (hplaced : misplacement? calls call = some err) :
    Tracks (calls ++ [call]) (d.blame err) := by
  refine h.concat ?_ (fun i => ?_) ?_
  · rw [hnames]
    simp [Draft.blame]
  · change d.bodyOf? i = _
    cases hbody : d.bodyOf? i with
    | none => rw [hbodies i hbody]; rfl
    | some body => rfl
  · rw [hplaced]
    rfl

/-- What is wrong with a definition can be read off the draft, although it is a question about the
calls before. Here the slots of the draft stand for the history. -/
theorem misplacement?_eq (h : Tracks calls d) (id : RuleId) (hne : alternatives ≠ []) :
    misplacement? calls (.define id alternatives) =
      match d.slots[id.index]? with
      | none => some (.unknownRule id)
      | some ⟨name, some _⟩ => some (.alreadyDefined name)
      | some ⟨_, none⟩ => none := by
  obtain ⟨first, others, rfl⟩ := List.exists_cons_of_ne_nil hne
  have hbody := h.bodies id.index
  rw [bodyOf?] at hbody
  rw [misplacement?, h.getElem?_names, ← hbody]
  cases d.slots[id.index]? with
  | none => rfl
  | some slot => obtain ⟨name, _ | body⟩ := slot <;> rfl

/-- A definition, in its place or not. The three states that the slot of its rule can be in are the
three cases of `misplacement?_eq`. -/
theorem define (h : Tracks calls d) (id : RuleId) (hne : alternatives ≠ []) :
    Tracks (calls ++ [.define id alternatives]) (d.perform (.define id alternatives)).2 := by
  have hplaced := h.misplacement?_eq id hne
  cases hslot : d.slots[id.index]? with
  | none =>
    rw [Draft.perform, define_unknown hne hslot]
    rw [hslot] at hplaced
    have hge : ¬ id.index < d.slots.size := by simpa using hslot
    exact h.blame rfl (fun i _ => by simp [Call.defines, hge]) hplaced
  | some slot =>
    obtain ⟨hlt, _⟩ := Array.getElem?_eq_some_iff.mp hslot
    have hdefines : (Call.define id alternatives).defines d.slots.size = [(id, alternatives)] :=
      if_pos ⟨hne, hlt⟩
    obtain ⟨name, _ | body⟩ := slot
    · obtain ⟨d', hdefine, hnames, hmisuse, hbodies⟩ := exists_define_fresh id hne hslot
      rw [hslot] at hplaced
      rw [Draft.perform, hdefine]
      refine h.concat (by simp [hnames, Call.declares?]) (fun i => ?_) (by simp [hmisuse, hplaced])
      rw [hbodies, hdefines]
      split
      next hi => simp [hi, bodyOf?, hslot]
      next hi => simp [show id ≠ ⟨i⟩ from fun heq => hi (by rw [heq])]
    -- The second definition counts as one, but it is not the first, so the bodies stay.
    · rw [Draft.perform, define_again hne hslot]
      rw [hslot] at hplaced
      refine h.blame rfl (fun i hi => ?_) hplaced
      have hother : id ≠ ⟨i⟩ := by
        rintro rfl
        simp [bodyOf?, hslot] at hi
      simp [hdefines, hother]

/-- A rule that is declared and defined in one call is never out of place, since nobody else can
have its number. -/
theorem rule (h : Tracks calls d) (name : String) (hne : alternatives ≠ []) :
    Tracks (calls ++ [.rule name alternatives]) (d.perform (.rule name alternatives)).2 := by
  have hslot : (d.declare name).2.slots[d.slots.size]? = some ⟨name, none⟩ := by
    simp [Draft.declare]
  obtain ⟨d', hdefine, hnames, hmisuse, hbodies⟩ :=
    exists_define_fresh ⟨d.slots.size⟩ hne hslot
  have hid : (d.declare name).1 = ⟨d.slots.size⟩ := rfl
  have hperform : (d.perform (.rule name alternatives)).2 = d' := by
    simp only [Draft.perform, Draft.rule, hid, hdefine]
  have hdefines : (Call.rule name alternatives).defines d.slots.size
      = [(⟨d.slots.size⟩, alternatives)] := if_pos hne
  rw [hperform]
  refine h.concat ?_ (fun i => ?_) ?_
  · rw [hnames, names_declare]
    rfl
  · rw [hbodies, hdefines, bodyOf?_declare]
    split
    next hi => simp [hi, bodyOf?]
    next hi =>
      have hother : (⟨d.slots.size⟩ : RuleId) ≠ ⟨i⟩ := fun heq => hi (RuleId.mk.inj heq).symm
      simp [hother]
  · rw [hmisuse]
    simp [misplacement?, Draft.declare]

/-- **What a draft remembers stays true** under every call. -/
theorem perform (h : Tracks calls d) (call : Call) :
    Tracks (calls ++ [call]) (d.perform call).2 := by
  match call with
  | .declare name => exact h.declare rfl rfl rfl
  | .rule name [] => exact h.declare rfl rfl rfl
  | .rule name (first :: others) => exact h.rule name (List.cons_ne_nil first others)
  | .define id [] =>
    refine h.concat ?_ (fun i => ?_) ?_
    · simp [Draft.perform, define_nil, Call.declares?]
    · simp [Draft.perform, define_nil, Call.defines]
    · simp [Draft.perform, define_nil, misplacement?]
  | .define id (first :: others) => exact h.define id (List.cons_ne_nil first others)

end Tracks

/-- **A draft and its history.** -/
theorem tracks_performAll (calls : List Call) : Tracks calls (empty.performAll calls) := by
  induction calls using List.reverseRecOn with
  | nil => exact tracks_empty
  | append_singleton calls call ih =>
    rw [performAll, List.foldl_append]
    exact ih.perform call

end PegGrammar.Draft
