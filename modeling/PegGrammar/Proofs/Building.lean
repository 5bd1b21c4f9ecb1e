import PegGrammar.Proofs.Histories

/-!
# Building a grammar

Whether a draft becomes a grammar is a question about the whole history of its calls, and it is
answered here in terms of the calls alone: when there is a grammar, which one it is, and what is
reported when there is none.

`Draft.build` asks three questions in a row: whether a definition was out of place, whether every
rule is defined, and whether anything is wrong with the table of the rules. What a draft remembers
of its history (`Tracks`) turns each of them into a question about the history, and where the
answer is an error, into which one is the first.

## Main definitions

* `AllDefined`, `Closed`, `Solid` — with `WellPlaced`, when a history is well formed
* `FirstProblem` — the first thing wrong with a history that is not

## Main results

* `filter_definitions` — in a history with every definition in its place, no rule has two
* `build_decides_history` — a draft becomes a grammar just when its history is well formed
-/

namespace PegGrammar.Draft

variable {calls : List Call} {call : Call} {id start : RuleId} {err : GrammarError} {d : Draft}

/-! ### Well-formed histories -/

/-- Every declared rule is defined. -/
def AllDefined (calls : List Call) : Prop := ∀ i < (declaredNames calls).length, Defined calls i

/-- The start and every reference, at any depth of any alternative, is declared. -/
def Closed (calls : List Call) (start : RuleId) : Prop :=
  start.index < (declaredNames calls).length ∧
    ∀ d ∈ definitions calls, ∀ id, .rule id ∈ Expr.preorderAll d.2 →
      id.index < (declaredNames calls).length

/-- No sequence and no choice, at any depth of any alternative, is empty. -/
def Solid (calls : List Call) : Prop :=
  ∀ d ∈ definitions calls,
    .sequence [] ∉ Expr.preorderAll d.2 ∧ .choice [] ∉ Expr.preorderAll d.2

/-- Everything in the rules of a history, with the name of its rule: the rules in order of
declaration, and each of them in reading order. -/
def walk (calls : List Call) : List (String × Expr) :=
  (declaredNames calls).zipIdx.flatMap fun declared =>
    (Expr.preorderAll ((firstDefinition? calls ⟨declared.2⟩).getD [])).map (declared.1, ·)

/-- The first thing wrong with a history and a start. Each kind of problem is looked for only
where there is none of the kinds before. -/
inductive FirstProblem (calls : List Call) (start : RuleId) : GrammarError → Prop
  /-- The first definition out of place, in the order of the calls. -/
  | misplaced {before after : List Call} {call : Call} {err : GrammarError} :
    calls = before ++ call :: after → WellPlaced before → misplacement? before call = some err →
    FirstProblem calls start err
  /-- The first rule, in the order of declaration, that is not defined. -/
  | undefined {i : Nat} {name : String} :
    WellPlaced calls → (declaredNames calls)[i]? = some name → ¬ Defined calls i →
    (∀ j < i, Defined calls j) → FirstProblem calls start (.undefinedRule name)
  /-- A start that is not declared. -/
  | unknownStart :
    WellPlaced calls → AllDefined calls → (declaredNames calls).length ≤ start.index →
    FirstProblem calls start (.unknownRule start)
  /-- The first defect in the rules, in reading order. -/
  | defect {before after : List (String × Expr)} {owner : String} {e : Expr}
      {err : GrammarError} :
    WellPlaced calls → AllDefined calls → start.index < (declaredNames calls).length →
    walk calls = before ++ (owner, e) :: after →
    (∀ p ∈ before, p.2.defect? (declaredNames calls).length p.1 = none) →
    e.defect? (declaredNames calls).length owner = some err → FirstProblem calls start err

/-! ### The only definition of a rule -/

theorem index_lt_of_mem_defines {count : Nat} {body : List Expr}
    (h : (id, body) ∈ call.defines count) :
    id.index < count + call.declares?.toList.length := by
  match call with
  | .declare _ => simp [Call.defines] at h
  | .define _ _ =>
    simp only [Call.defines] at h
    split at h <;> simp_all [Call.declares?]
  | .rule _ _ =>
    simp only [Call.defines] at h
    split at h <;> simp_all [Call.declares?]

/-- In any history whatever, the rules that are defined are among those that are declared: a
definition that comes before its declaration, or without any, does not count as one. -/
theorem index_lt_of_mem_definitions {body : List Expr} (h : (id, body) ∈ definitions calls) :
    id.index < (declaredNames calls).length := by
  induction calls using List.reverseRecOn with
  | nil => simp [definitions, definitionsFrom] at h
  | append_singleton calls call ih =>
    rw [declaredNames_concat, List.length_append]
    rw [definitions_concat, List.mem_append] at h
    rcases h with h | h
    · exact Nat.lt_add_right _ (ih h)
    · exact index_lt_of_mem_defines h

/-- A call in its place defines no rule that has been defined before. -/
theorem firstDefinition?_eq_none_of_mem_defines {body : List Expr}
    (hplaced : misplacement? calls call = none)
    (h : (id, body) ∈ call.defines (declaredNames calls).length) :
    firstDefinition? calls id = none := by
  match call with
  | .declare _ => simp [Call.defines] at h
  | .define _ _ =>
    simp only [Call.defines] at h
    split at h
    next hok =>
      obtain ⟨rfl, rfl⟩ := Prod.mk.inj (List.mem_singleton.mp h)
      exact firstDefinition?_eq_none_iff.mpr
        ((misplacement?_define_eq_none_iff hok.1).mp hplaced).2
    next => simp at h
  | .rule _ _ =>
    simp only [Call.defines] at h
    split at h
    next =>
      obtain ⟨rfl, rfl⟩ := Prod.mk.inj (List.mem_singleton.mp h)
      refine firstDefinition?_eq_none_iff.mpr fun body hbody => ?_
      exact Nat.lt_irrefl _ (index_lt_of_mem_definitions hbody)
    next => simp at h

theorem Call.length_defines_le_one (call : Call) (count : Nat) :
    (call.defines count).length ≤ 1 := by
  cases call <;> simp only [Call.defines] <;> (try split) <;> simp

/-- **No rule has two definitions**, if every definition is in its place. -/
theorem filter_definitions (h : WellPlaced calls) (id : RuleId) :
    (definitions calls).filter (·.1 = id) = ((firstDefinition? calls id).map (id, ·)).toList := by
  induction calls using List.reverseRecOn with
  | nil => rfl
  | append_singleton calls call ih =>
    obtain ⟨hcalls, hplaced⟩ := wellPlaced_concat_iff.mp h
    rw [definitions_concat, List.filter_append, ih hcalls, firstDefinition?_concat]
    match hdefines : call.defines (declaredNames calls).length with
    | [] => simp
    | [(other, body)] =>
      -- A definition of this rule is its first, since it would be out of place otherwise.
      by_cases hid : other = id
      · subst hid
        rw [firstDefinition?_eq_none_of_mem_defines hplaced (hdefines ▸ List.mem_singleton_self _)]
        simp
      · simp [hid]
    | _ :: _ :: _ =>
      have hlength := call.length_defines_le_one (declaredNames calls).length
      simp [hdefines] at hlength

/-- In a well-placed history a rule has one definition, so the first that is found is any that there
is. -/
theorem mem_definitions_iff (h : WellPlaced calls) {body : List Expr} :
    (id, body) ∈ definitions calls ↔ firstDefinition? calls id = some body := by
  refine ⟨fun hmem => ?_, mem_definitions_of_firstDefinition?⟩
  have hfilter : (id, body) ∈ (definitions calls).filter (·.1 = id) :=
    List.mem_filter.mpr ⟨hmem, by simp⟩
  rw [filter_definitions h] at hfilter
  simpa using hfilter

/-! ### The rules of a table -/

theorem definedRules_eq_ok_iff {slots : List Slot} {rules : List Rule} :
    definedRules slots = .ok rules ↔ slots.map Slot.rule? = rules.map some := by
  induction slots generalizing rules with
  | nil => cases rules <;> simp [definedRules]
  | cons slot slots ih =>
    rw [definedRules, List.map_cons]
    cases hrule : slot.rule? with
    | none => cases rules <;> simp
    | some r =>
      cases rules with
      | nil => cases definedRules slots <;> simp [Except.map]
      | cons first rules =>
        rw [List.map_cons, List.cons.injEq, Option.some_inj, ← ih]
        cases definedRules slots <;> simp [Except.map]

/-- The error names the first slot without alternatives, in the order of the declarations. -/
theorem definedRules_eq_error_iff {slots : List Slot} :
    definedRules slots = .error err ↔
      ∃ slot, slots.find? (·.rule?.isNone) = some slot ∧ err = .undefinedRule slot.name := by
  induction slots with
  | nil => simp [definedRules]
  | cons slot slots ih =>
    rw [definedRules, List.find?_cons]
    cases slot.rule? with
    | none => simp [eq_comm]
    | some r =>
      refine Iff.trans ?_ ih
      cases definedRules slots <;> simp [Except.map]

/-- What a table of rules has to do with a history: rule `i` has the name that was declared and
the alternatives that were given first. -/
structure Tabulates (calls : List Call) (rules : List Rule) : Prop where
  /-- There is a rule for each declaration. -/
  length_eq : rules.length = (declaredNames calls).length
  /-- The names are as declared. -/
  name_eq : ∀ (i : Nat) (r : Rule), rules[i]? = some r → (declaredNames calls)[i]? = some r.name
  /-- The alternatives are as defined. -/
  body_eq : ∀ (i : Nat) (r : Rule), rules[i]? = some r →
    firstDefinition? calls ⟨i⟩ = some r.alternatives

namespace Tracks

theorem firstDefinition?_eq (h : Tracks calls d) {i : Nat} {slot : Slot}
    (hslot : d.slots[i]? = some slot) :
    firstDefinition? calls ⟨i⟩ = slot.rule?.map Rule.alternatives := by
  rw [← h.bodies, bodyOf?, hslot, Slot.rule?, Option.map_map]
  rfl

/-- A slot makes a rule exactly if the history defines the rule of that number. -/
theorem isNone_rule?_iff (h : Tracks calls d) {i : Nat} (hi : i < d.slots.size) :
    d.slots[i].rule?.isNone = true ↔ ¬ Defined calls i := by
  rw [defined_iff, h.firstDefinition?_eq (Array.getElem?_eq_getElem hi)]
  cases d.slots[i].rule? <;> simp

/-- The same in terms of the history: the first rule that was declared and never defined. -/
theorem definedRules_eq_error_iff (h : Tracks calls d) :
    definedRules d.slots.toList = .error err ↔
      ∃ i name, (declaredNames calls)[i]? = some name ∧ ¬ Defined calls i ∧
        (∀ j < i, Defined calls j) ∧ err = .undefinedRule name := by
  rw [Draft.definedRules_eq_error_iff]
  simp only [Array.find?_toList, Array.find?_eq_some_iff_getElem, Bool.not_eq_true',
    ← Bool.not_eq_true]
  constructor
  · rintro ⟨_, ⟨hnone, i, hi, rfl, hbefore⟩, rfl⟩
    refine ⟨i, _, ?_, (h.isNone_rule?_iff hi).mp hnone, fun j hj => ?_, rfl⟩
    · rw [h.getElem?_names, Array.getElem?_eq_getElem hi, Option.map_some]
    · have hdefined := mt (h.isNone_rule?_iff (Nat.lt_trans hj hi)).mpr (hbefore j hj)
      exact not_not.mp hdefined
  · rintro ⟨i, name, hname, hundefined, hbefore, rfl⟩
    rw [h.getElem?_names, Option.map_eq_some_iff] at hname
    obtain ⟨slot, hslot, rfl⟩ := hname
    obtain ⟨hi, rfl⟩ := Array.getElem?_eq_some_iff.mp hslot
    refine ⟨_, ⟨(h.isNone_rule?_iff hi).mpr hundefined, i, hi, rfl, fun j hj hnone => ?_⟩, rfl⟩
    exact (h.isNone_rule?_iff (Nat.lt_trans hj hi)).mp hnone (hbefore j hj)

/-- **The table of rules is the history read off.** Names come from the declarations and
alternatives from the first definitions, both by the number of the rule. -/
theorem tabulates (h : Tracks calls d) {rules : List Rule}
    (hrules : definedRules d.slots.toList = .ok rules) : Tabulates calls rules := by
  rw [definedRules_eq_ok_iff] at hrules
  have hslot : ∀ (i : Nat) (r : Rule), rules[i]? = some r →
      ∃ slot : Slot, d.slots[i]? = some slot ∧ slot.rule? = some r := by
    intro i r hr
    have hi := congrArg (·[i]?) hrules
    simpa [hr] using hi
  refine ⟨?_, fun i r hr => ?_, fun i r hr => ?_⟩
  · have hlength := congrArg List.length hrules
    rw [List.length_map, List.length_map, Array.length_toList, h.size_slots] at hlength
    exact hlength.symm
  · obtain ⟨slot, hslot, hrule⟩ := hslot i r hr
    rw [h.getElem?_names, hslot]
    obtain ⟨body, _, rfl⟩ := Option.map_eq_some_iff.mp hrule
    rfl
  · obtain ⟨slot, hslot, hrule⟩ := hslot i r hr
    rw [h.firstDefinition?_eq hslot, hrule]
    rfl

/-- Making the rules succeeds exactly if every declared rule is defined, so the second kind of
problem can be told from the later ones by one equation. -/
theorem allDefined_iff (h : Tracks calls d) :
    AllDefined calls ↔ ∃ rules, definedRules d.slots.toList = .ok rules := by
  constructor
  · intro hall
    cases hrules : definedRules d.slots.toList with
    | ok rules => exact ⟨rules, rfl⟩
    | error err =>
      obtain ⟨i, name, hname, hundefined, -, -⟩ := h.definedRules_eq_error_iff.mp hrules
      obtain ⟨hi, -⟩ := List.getElem?_eq_some_iff.mp hname
      exact absurd (hall i hi) hundefined
  · rintro ⟨rules, hrules⟩ i hi
    have htable := h.tabulates hrules
    rw [← htable.length_eq] at hi
    exact defined_iff.mpr ⟨_, htable.body_eq i _ (List.getElem?_eq_getElem hi)⟩

end Tracks

/-! ### The walk over the rules -/

/-- The walk over a history, in which every sub-expression stands next to the name of its rule, is
the walk that `violation?` makes over the table. -/
theorem Tabulates.walk_eq {rules : List Rule} (h : Tabulates calls rules) :
    walk calls = rules.flatMap fun r => (Expr.preorderAll r.alternatives).map (r.name, ·) := by
  rw [walk, List.flatMap_def, List.flatMap_def]
  congr 1
  refine List.ext_getElem? fun i => ?_
  rw [List.getElem?_map, List.getElem?_map, List.getElem?_zipIdx, Nat.zero_add]
  cases hr : rules[i]? with
  | none =>
    rw [List.getElem?_eq_none_iff, h.length_eq, ← List.getElem?_eq_none_iff] at hr
    rw [hr]
    rfl
  | some r =>
    rw [h.name_eq i r hr]
    simp [h.body_eq i r hr]

theorem findSome?_flatMap {α β γ : Type} (f : α → List β) (p : β → Option γ) (l : List α) :
    (l.flatMap f).findSome? p = l.findSome? fun a => (f a).findSome? p := by
  induction l with
  | nil => rfl
  | cons a l ih =>
    rw [List.flatMap_cons, List.findSome?_append, ih, List.findSome?_cons]
    cases (f a).findSome? p <;> rfl

/-- The check of a finished table, as a search through the history: the start comes first, and then
the first defect in reading order. -/
theorem Tabulates.violation?_eq {rules : List Rule} (h : Tabulates calls rules) (start : RuleId) :
    violation? rules.toArray start =
      if start.index < (declaredNames calls).length then
        (walk calls).findSome? fun p => p.2.defect? (declaredNames calls).length p.1
      else some (.unknownRule start) := by
  rw [violation?, List.size_toArray, h.length_eq, h.walk_eq, findSome?_flatMap]
  simp only [List.findSome?_map, Expr.violationAny?_eq_findSome?]
  rfl

theorem mem_walk_iff {owner : String} {e : Expr} :
    (owner, e) ∈ walk calls ↔ ∃ i body, (declaredNames calls)[i]? = some owner ∧
      firstDefinition? calls ⟨i⟩ = some body ∧ e ∈ Expr.preorderAll body := by
  rw [walk, List.mem_flatMap]
  constructor
  · rintro ⟨⟨name, i⟩, hname, hmem⟩
    obtain ⟨e', he', heq⟩ := List.mem_map.mp hmem
    obtain ⟨rfl, rfl⟩ := Prod.mk.inj heq
    cases hbody : firstDefinition? calls ⟨i⟩ with
    | none => simp [hbody, Expr.preorderAll] at he'
    | some body =>
      rw [hbody] at he'
      exact ⟨i, body, List.mem_zipIdx_iff_getElem?.mp hname, hbody, he'⟩
  · rintro ⟨i, body, hname, hbody, he⟩
    refine ⟨(owner, i), List.mem_zipIdx_iff_getElem?.mpr hname, List.mem_map.mpr ⟨e, ?_, rfl⟩⟩
    rw [hbody]
    exact he

/-- The walk finds nothing wrong just when every reference is declared and nothing is empty. -/
theorem walk_clean_iff (h : WellPlaced calls) :
    (start.index < (declaredNames calls).length ∧
        ∀ p ∈ walk calls, p.2.defect? (declaredNames calls).length p.1 = none) ↔
      Closed calls start ∧ Solid calls := by
  constructor
  · rintro ⟨hstart, hwalk⟩
    have hdefinition : ∀ d ∈ definitions calls, ∀ e ∈ Expr.preorderAll d.2,
        (∀ id, e = .rule id → id.index < (declaredNames calls).length) ∧
          e ≠ .sequence [] ∧ e ≠ .choice [] := by
      rintro ⟨id, body⟩ hd e he
      have hname := List.getElem?_eq_getElem (index_lt_of_mem_definitions hd)
      exact Expr.defect?_eq_none_iff.mp
        (hwalk _ (mem_walk_iff.mpr ⟨_, body, hname, (mem_definitions_iff h).mp hd, he⟩))
    refine ⟨⟨hstart, fun d hd id hid => (hdefinition d hd _ hid).1 id rfl⟩, fun d hd => ⟨?_, ?_⟩⟩
    · exact fun hmem => (hdefinition d hd _ hmem).2.1 rfl
    · exact fun hmem => (hdefinition d hd _ hmem).2.2 rfl
  · rintro ⟨⟨hstart, hclosed⟩, hsolid⟩
    refine ⟨hstart, fun ⟨owner, e⟩ hp => ?_⟩
    obtain ⟨i, body, -, hbody, he⟩ := mem_walk_iff.mp hp
    have hd := mem_definitions_of_firstDefinition? hbody
    refine Expr.defect?_eq_none_iff.mpr ⟨?_, ?_, ?_⟩
    · rintro id rfl
      exact hclosed _ hd id he
    · rintro rfl
      exact (hsolid _ hd).1 he
    · rintro rfl
      exact (hsolid _ hd).2 he

/-! ### The three questions -/

/-- Building goes in one of four ways, which this and the next three lemmas describe in the order in
which they are looked for. A misuse that was noted on the way is reported whatever else is wrong. -/
theorem build_of_misuse (h : d.misuse? = some err) : d.build start = .error err := by
  rw [build, h]

/-- Without misuse, a declared rule that was never defined is what is reported. -/
theorem build_of_undefined (h : d.misuse? = none)
    (hrules : definedRules d.slots.toList = .error err) : d.build start = .error err := by
  rw [build, h, hrules]
  rfl

theorem build_of_violation {rules : List Rule} (h : d.misuse? = none)
    (hrules : definedRules d.slots.toList = .ok rules)
    (hviolation : violation? rules.toArray start = some err) : d.build start = .error err := by
  rw [build, h, hrules]
  dsimp only [bind, Except.bind]
  split
  next error herror => rw [Option.some_inj.mp (hviolation.symm.trans herror)]
  next hnone => simp [hnone] at hviolation

theorem build_of_valid {rules : List Rule} (h : d.misuse? = none)
    (hrules : definedRules d.slots.toList = .ok rules)
    (hvalid : violation? rules.toArray start = none) :
    d.build start = .ok ⟨rules.toArray, start, hvalid⟩ := by
  rw [build, h, hrules]
  dsimp only [bind, Except.bind]
  split
  next error herror => simp [hvalid] at herror
  next => rfl

namespace Tracks

/-- The first problem of a history is what its draft reports. -/
theorem build_of_firstProblem (h : Tracks calls d) (hproblem : FirstProblem calls start err) :
    d.build start = .error err := by
  cases hproblem with
  | misplaced hcalls hbefore hplaced =>
    exact build_of_misuse ((h.misuse_eq_some_iff err).mpr ⟨_, _, _, hcalls, hbefore, hplaced⟩)
  | undefined hplaced hname hundefined hbefore =>
    exact build_of_undefined (h.misuse_eq_none_iff.mpr hplaced)
      (h.definedRules_eq_error_iff.mpr ⟨_, _, hname, hundefined, hbefore, rfl⟩)
  | unknownStart hplaced hdefined hstart =>
    obtain ⟨rules, hrules⟩ := h.allDefined_iff.mp hdefined
    refine build_of_violation (h.misuse_eq_none_iff.mpr hplaced) hrules ?_
    rw [(h.tabulates hrules).violation?_eq, if_neg (Nat.not_lt.mpr hstart)]
  | defect hplaced hdefined hstart hwalk hbefore hdefect =>
    obtain ⟨rules, hrules⟩ := h.allDefined_iff.mp hdefined
    refine build_of_violation (h.misuse_eq_none_iff.mpr hplaced) hrules ?_
    rw [(h.tabulates hrules).violation?_eq, if_pos hstart]
    exact List.findSome?_eq_some_iff.mpr ⟨_, _, _, hwalk, hdefect, hbefore⟩

/-- A history without any problem can be built, and its table is the one that the history
describes. -/
theorem build_of_wellFormed (h : Tracks calls d) (hplaced : WellPlaced calls)
    (hdefined : AllDefined calls) (hclosed : Closed calls start) (hsolid : Solid calls) :
    ∃ rules hvalid, Tabulates calls rules ∧
      d.build start = .ok ⟨rules.toArray, start, hvalid⟩ := by
  obtain ⟨rules, hrules⟩ := h.allDefined_iff.mp hdefined
  obtain ⟨hstart, hclean⟩ := (walk_clean_iff hplaced).mpr ⟨hclosed, hsolid⟩
  have hvalid : violation? rules.toArray start = none := by
    rw [(h.tabulates hrules).violation?_eq, if_pos hstart]
    exact List.findSome?_eq_none_iff.mpr hclean
  exact ⟨rules, hvalid, h.tabulates hrules,
    build_of_valid (h.misuse_eq_none_iff.mpr hplaced) hrules hvalid⟩

end Tracks

/-- A history that is not well formed has a first problem. The questions are asked in the order
of `build`: each of them is answered by a problem or lets the next one be asked. -/
theorem wellFormed_or_firstProblem (calls : List Call) (start : RuleId) :
    (WellPlaced calls ∧ AllDefined calls ∧ Closed calls start ∧ Solid calls) ∨
      ∃ err, FirstProblem calls start err := by
  have h := tracks_performAll calls
  cases hmisuse : (empty.performAll calls).misuse? with
  | some err =>
    obtain ⟨before, call, after, hcalls, hbefore, hplaced⟩ := (h.misuse_eq_some_iff err).mp hmisuse
    exact Or.inr ⟨err, .misplaced hcalls hbefore hplaced⟩
  | none =>
    have hplaced := h.misuse_eq_none_iff.mp hmisuse
    cases hrules : definedRules (empty.performAll calls).slots.toList with
    | error err =>
      obtain ⟨i, name, hname, hundefined, hbefore, rfl⟩ := h.definedRules_eq_error_iff.mp hrules
      exact Or.inr ⟨_, .undefined hplaced hname hundefined hbefore⟩
    | ok rules =>
      have hdefined := h.allDefined_iff.mpr ⟨rules, hrules⟩
      by_cases hstart : start.index < (declaredNames calls).length
      · cases hwalk : (walk calls).findSome? fun p =>
            p.2.defect? (declaredNames calls).length p.1 with
        | some err =>
          obtain ⟨before, ⟨owner, e⟩, after, heq, hdefect, hbefore⟩ :=
            List.findSome?_eq_some_iff.mp hwalk
          exact Or.inr ⟨err, .defect hplaced hdefined hstart heq hbefore hdefect⟩
        | none =>
          obtain ⟨hclosed, hsolid⟩ := (walk_clean_iff hplaced).mp
            ⟨hstart, List.findSome?_eq_none_iff.mp hwalk⟩
          exact Or.inl ⟨hplaced, hdefined, hclosed, hsolid⟩
      · exact Or.inr ⟨_, .unknownStart hplaced hdefined (Nat.not_lt.mp hstart)⟩

/-- **A draft becomes a grammar just when its history is well formed**: every definition is in its
place, every rule is defined, every reference is declared and nothing is empty. Rule `i` of the
grammar is then the `i`-th declaration with its only definition, and otherwise it is the first
problem of the history that is reported. -/
theorem build_decides_history (calls : List Call) (start : RuleId) :
    ((∃ g, (empty.performAll calls).build start = .ok g) ↔
        WellPlaced calls ∧ AllDefined calls ∧ Closed calls start ∧ Solid calls) ∧
      (∀ g, (empty.performAll calls).build start = .ok g →
        g.start = start ∧ g.rules.size = (declaredNames calls).length ∧
        ∀ (i : Nat) (r : Rule), g.rules[i]? = some r →
          (declaredNames calls)[i]? = some r.name ∧
          (definitions calls).filter (·.1 = ⟨i⟩) = [(⟨i⟩, r.alternatives)]) ∧
      ∀ err, (empty.performAll calls).build start = .error err ↔ FirstProblem calls start err := by
  have h := tracks_performAll calls
  rcases wellFormed_or_firstProblem calls start with hformed | ⟨problem, hproblem⟩
  · obtain ⟨hplaced, hdefined, hclosed, hsolid⟩ := hformed
    obtain ⟨rules, hvalid, htable, hbuild⟩ := h.build_of_wellFormed hplaced hdefined hclosed hsolid
    refine ⟨iff_of_true ⟨_, hbuild⟩ ⟨hplaced, hdefined, hclosed, hsolid⟩, fun g hg => ?_,
      fun err => ⟨fun herr => ?_, h.build_of_firstProblem⟩⟩
    · obtain rfl := Except.ok.inj (hbuild.symm.trans hg)
      refine ⟨rfl, htable.length_eq, fun i r hr => ?_⟩
      rw [List.getElem?_toArray] at hr
      refine ⟨htable.name_eq i r hr, ?_⟩
      rw [filter_definitions hplaced, htable.body_eq i r hr]
      rfl
    · cases hbuild.symm.trans herr
  · have hbuild := h.build_of_firstProblem hproblem
    refine ⟨iff_of_false ?_ ?_, fun g hg => ?_,
      fun err => ⟨fun herr => ?_, h.build_of_firstProblem⟩⟩
    · rintro ⟨g, hg⟩
      cases hbuild.symm.trans hg
    · rintro ⟨hplaced, hdefined, hclosed, hsolid⟩
      obtain ⟨rules, hvalid, -, hok⟩ := h.build_of_wellFormed hplaced hdefined hclosed hsolid
      cases hbuild.symm.trans hok
    · cases hbuild.symm.trans hg
    · cases hbuild.symm.trans herr
      exact hproblem

end PegGrammar.Draft
