import PegGrammar.Grammar.Printer
import PegGrammar.Proofs.Discovery
import PegGrammar.Proofs.RenderMeaning
import PegGrammar.Proofs.Splitting

/-!
# The rules in the text of a grammar

A grammar is printed without any sign that tells where a rule ends, other than the line feeds
between the rules and between the lines of a rule. They are enough: whatever its literals, sets and
ranges hold, no expression is written with a line feed. So the text falls apart at its blank lines
into the texts of the rules, and each of those at its line feeds into a name, a line for each
alternative and the closing line.

The names are the one part that is written as it is. A name with a line feed would look like two
lines, and an empty one like a blank line, so both have to be excluded.

## Main results

* `Expr.lineFeed_not_mem_write` — no expression is written with a line feed
* `text_splits_into_rules` — the text of a grammar falls apart into its rules
-/

namespace PegGrammar

open Text

/-! ### Expressions are written on one line -/

theorem lineFeed_not_mem_writeEscaped {close : Char} (hclose : close ≠ '\n') (c : Char) :
    '\n' ∉ writeEscaped close c := by
  by_cases hfeed : c = '\n'
  · subst hfeed
    simp [writeEscaped, hclose.symm]
  · rw [writeEscaped, if_neg hfeed]
    split_ifs <;> simp [Ne.symm hfeed]

theorem lineFeed_not_mem_writeQuoted (cs : List Char) : '\n' ∉ writeQuoted cs := by
  simp [writeQuoted, lineFeed_not_mem_writeEscaped]

theorem Terminal.lineFeed_not_mem_write (t : Terminal) : '\n' ∉ t.write := by
  cases t with
  | literal text => exact lineFeed_not_mem_writeQuoted _
  | charSet set => simp [write, lineFeed_not_mem_writeEscaped]
  | charRange first last => simp [write, lineFeed_not_mem_writeQuoted]
  | any | endOfInput => simp [write]

theorem Bounds.lineFeed_ne_symbol (b : Bounds) : '\n' ≠ b.symbol := by
  cases b <;> decide

theorem not_mem_intercalate {c : Char} {sep : List Char} {css : List (List Char)} (hsep : c ∉ sep)
    (h : ∀ cs ∈ css, c ∉ cs) : c ∉ sep.intercalate css := by
  cases css with
  | nil => simp
  | cons cs css =>
    rw [intercalate_cons, List.mem_append, List.mem_flatMap]
    rintro (hc | ⟨ds, hds, hc⟩)
    · exact h cs List.mem_cons_self hc
    · rcases List.mem_append.mp hc with hc | hc
      · exact hsep hc
      · exact h ds (List.mem_cons_of_mem _ hds) hc

/-- **No expression is written with a line feed**, if no name has one. -/
theorem Expr.lineFeed_not_mem_write {name : RuleId → String}
    (hname : ∀ id, '\n' ∉ (name id).toList) (e : Expr) : '\n' ∉ e.write name := by
  induction e using Expr.elementInduction with
  | terminal t => exact t.lineFeed_not_mem_write
  | sequence es ih =>
    rw [write, writeAll_eq_map]
    exact not_mem_intercalate (by decide) (List.forall_mem_map.mpr ih)
  | choice es ih =>
    rw [write, writeAll_eq_map]
    have hbar : '\n' ∉ [' ', '|', ' '] := by decide
    have hinner := not_mem_intercalate hbar (List.forall_mem_map.mpr ih)
    simpa [parenthesize] using hinner
  | repeated e b ih =>
    rw [write]
    split_ifs <;> simpa [parenthesize, b.lineFeed_ne_symbol] using ih
  | rule id => exact hname id

/-! ### The lines of a rule -/

namespace Grammar

variable {g : Grammar} {id : RuleId} {r : Rule}

/-- Every rule of the grammar has a name that makes one line. -/
def NamesAreLines (g : Grammar) : Prop := ∀ r ∈ g.rules.toList, IsLine r.name

instance (g : Grammar) : Decidable g.NamesAreLines :=
  inferInstanceAs (Decidable (∀ r ∈ g.rules.toList, IsLine r.name))

/-- The line of an alternative that is written as `body`. The first has a sign of its own. -/
def alternativeLine (index : Nat) (body : String) : String :=
  (if index = 0 then "  : " else "  | ") ++ body

theorem alternativeLines_eq (g : Grammar) (r : Rule) :
    g.alternativeLines r
      = (r.alternatives.map (·.render g.nameOf)).mapIdx alternativeLine ++ ["  ;"] := by
  rw [alternativeLines]
  cases r.alternatives with
  | nil => rfl
  | cons first others =>
    rw [List.map_cons, List.mapIdx_cons, List.cons_append]
    refine congrArg (_ :: · ++ ["  ;"]) (List.ext_getElem (by simp) ?_)
    simp [alternativeLine]

theorem NamesAreLines.isLine (h : g.NamesAreLines) (hr : g.rule? id = some r) : IsLine r.name :=
  h r (Array.mem_toList_iff.mpr (Array.mem_of_getElem? hr))

theorem NamesAreLines.lineFeed_not_mem_nameOf (h : g.NamesAreLines) (id : RuleId) :
    '\n' ∉ (g.nameOf id).toList := by
  rw [nameOf]
  cases hr : g.rule? id with
  | none => simp
  | some r => exact (h.isLine hr).2

theorem NamesAreLines.isLine_alternativeLine (h : g.NamesAreLines) (e : Expr) (index : Nat) :
    IsLine (alternativeLine index (e.render g.nameOf)) := by
  have hbody : '\n' ∉ e.write g.nameOf := e.lineFeed_not_mem_write h.lineFeed_not_mem_nameOf
  rw [alternativeLine, Expr.render]
  split_ifs <;> simp [IsLine, hbody]

/-- What a rule is printed as consists of lines. -/
theorem NamesAreLines.isLine_of_mem (h : g.NamesAreLines) (hr : g.rule? id = some r)
    {line : String} (hline : line ∈ r.name :: g.alternativeLines r) : IsLine line := by
  rw [alternativeLines_eq, List.mem_cons, List.mem_append, List.mem_singleton] at hline
  rcases hline with rfl | hline | rfl
  · exact h.isLine hr
  · obtain ⟨index, hindex, rfl⟩ := List.mem_mapIdx.mp hline
    rw [List.getElem_map]
    exact h.isLine_alternativeLine _ index
  · decide

theorem NamesAreLines.parts_writeRule (h : g.NamesAreLines) (hr : g.rule? id = some r) :
    parts "\n" (g.writeRule r) = r.name :: g.alternativeLines r :=
  parts_intercalate (by decide) (List.cons_ne_nil _ _)
    fun _ hline => (h.isLine_of_mem hr hline).unbroken

theorem NamesAreLines.unbroken_writeRule (h : g.NamesAreLines) (hr : g.rule? id = some r) :
    Unbroken "\n\n" (g.writeRule r) :=
  unbroken_intercalate (List.cons_ne_nil _ _) fun _ => h.isLine_of_mem hr

/-! ### The rules of a grammar -/

/-- The rules that are printed, with the texts that they have on their own. -/
theorem map_ruleText_eq {ids : List RuleId} (h : ∀ id ∈ ids, g.Declares id) :
    ids.map g.ruleText = ((ids.filterMap g.rule?).map g.writeRule).map .ok := by
  induction ids with
  | nil => rfl
  | cons id ids ih =>
    obtain ⟨r, hr⟩ := declares_iff_exists_rule?.mp (h id List.mem_cons_self)
    rw [List.map_cons, List.filterMap_cons_some hr, List.map_cons, List.map_cons,
      ih fun id hid => h id (List.mem_cons_of_mem _ hid), ruleText, rule_eq_ok hr]
    rfl

theorem map_render_eq (hr : g.rule? id = some r) :
    r.alternatives.map g.render = (r.alternatives.map (·.render g.nameOf)).map .ok := by
  rw [List.map_map]
  refine List.map_congr_left fun e he => render_eq_ok fun s hs => ?_
  exact declares_of_mem_refsAll hr s (mem_refsAll_iff.mpr ⟨e, he, hs⟩)

end Grammar

/-- **The text of a grammar falls apart into its rules.** Split at blank lines, it gives the texts
of the rules that are discovered through alternatives, in that order. Split at line feeds, the text
of a rule gives its name, then a line for each alternative with the text of the alternative behind
a sign, and the closing line. -/
theorem text_splits_into_rules {g : Grammar} (hnames : g.NamesAreLines) :
    (parts "\n\n" g.text).map .ok = (g.discover .directAlternatives).map g.ruleText ∧
    ∀ id r, g.rule? id = some r →
      ∃ (text : String) (bodies : List String), g.ruleText id = .ok text ∧
        r.alternatives.map g.render = bodies.map .ok ∧
        parts "\n" text = r.name :: bodies.mapIdx Grammar.alternativeLine ++ ["  ;"] := by
  constructor
  · have hdeclared : ∀ id ∈ g.discover .directAlternatives, g.Declares id :=
      fun id => Grammar.declares_of_mem_discover
    rw [Grammar.map_ruleText_eq hdeclared, Grammar.text, parts_intercalate (by decide)]
    · obtain ⟨r, hr⟩ := Grammar.declares_iff_exists_rule?.mp g.declares_start
      have hmem : r ∈ (g.discover .directAlternatives).filterMap g.rule? :=
        List.mem_filterMap.mpr ⟨g.start, g.start_mem_discover _, hr⟩
      exact List.ne_nil_of_mem (List.mem_map_of_mem hmem)
    · intro text htext
      obtain ⟨r, hr, rfl⟩ := List.mem_map.mp htext
      obtain ⟨id, -, hid⟩ := List.mem_filterMap.mp hr
      exact hnames.unbroken_writeRule hid
  · intro id r hr
    refine ⟨g.writeRule r, r.alternatives.map (·.render g.nameOf), ?_,
      Grammar.map_render_eq hr, ?_⟩
    · rw [Grammar.ruleText, Grammar.rule_eq_ok hr]
      rfl
    · rw [hnames.parts_writeRule hr, Grammar.alternativeLines_eq, List.cons_append]

/-- Two rules whose literals, sets and ranges hold line feeds and signs of the notation. -/
def brokenLiterals : Grammar where
  rules := #[⟨"first", [.rule ⟨1⟩, .literal "\n\n  ;\n"], nofun⟩,
    ⟨"second", [.sequence [.charSet "\n]", .terminal (.charRange '\n' '\'')]], nofun⟩]
  start := ⟨0⟩
  valid := rfl

/-- The line feeds of the literals do not show, and the blank line stands between the rules. -/
theorem brokenLiterals_splits :
    brokenLiterals.NamesAreLines ∧
    parts "\n\n" brokenLiterals.text
      = ["first\n  : second\n  | '\\n\\n  ;\\n'\n  ;", "second\n  : [\\n\\]] '\\n'..'\\''\n  ;"] ∧
    parts "\n" "first\n  : second\n  | '\\n\\n  ;\\n'\n  ;"
      = ["first", "  : second", "  | '\\n\\n  ;\\n'", "  ;"] := by
  have hnames : brokenLiterals.NamesAreLines := by decide +kernel
  have hdiscover : brokenLiterals.discover .directAlternatives = [⟨0⟩, ⟨1⟩] := by cbv
  obtain ⟨hrules, hlines⟩ := text_splits_into_rules hnames
  rw [hdiscover] at hrules
  obtain ⟨text, bodies, htext, hbodies, hparts⟩ := hlines ⟨0⟩ _ rfl
  have hfirst : brokenLiterals.ruleText ⟨0⟩
      = .ok "first\n  : second\n  | '\\n\\n  ;\\n'\n  ;" := by decide +kernel
  have hsecond : brokenLiterals.ruleText ⟨1⟩
      = .ok "second\n  : [\\n\\]] '\\n'..'\\''\n  ;" := by decide +kernel
  have hok : Function.Injective (Except.ok : String → Except Fault String) :=
    fun _ _ => Except.ok.inj
  have hbodies' : bodies = ["second", "'\\n\\n  ;\\n'"] := by
    refine hok.list_map ?_
    rw [← hbodies]
    decide +kernel
  rw [hfirst, Except.ok.injEq] at htext
  subst htext hbodies'
  refine ⟨hnames, hok.list_map ?_, hparts⟩
  rw [hrules, List.map_cons, List.map_cons, hfirst, hsecond]
  rfl

end PegGrammar
