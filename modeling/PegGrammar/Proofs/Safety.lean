import PegGrammar.Expr.Combinators
import PegGrammar.Proofs.Cover
import PegGrammar.Proofs.EntryPoints
import PegGrammar.Proofs.Lines

/-!
# Parsing stays within the text

Nothing that matching or parsing does can leave the text. Attempts are made, end and get stuck at
positions of the text; rules that are called are declared; the error of a text that does not parse
has a line and a column; and every leaf of a match has a lexeme. The one fault left is the one of
a match that goes on for ever.

Each of these is a fact of its own and proved where it belongs. What is done here is to follow the
outcome of a match through the conclusion that is drawn from it.

## Main results

* `Grammar.conclude_cases` — from every outcome of a match a conclusion can be drawn
* `matching_stays_in_text` — the positions of a match, and the faults of the entry points
-/

namespace PegGrammar

open Engine

/-- A position of the text, and not one before `i`. -/
def Text.PositionFrom (text : List Char) (i j : Nat) : Prop :=
  i ≤ j ∧ j ≤ byteLength text ∧ isBoundary text j = true

theorem Cursor.ReachesOffset.positionFrom {text : List Char} {c : Cursor} {j : Nat}
    (hc : (Cursor.start text).Reaches c) (h : c.ReachesOffset j) :
    Text.PositionFrom text c.offset j := by
  obtain ⟨d, hd, rfl⟩ := h
  exact ⟨hd.offset_le, Cursor.offset_le_byteLength (hc.trans hd),
    Cursor.isBoundary_offset (hc.trans hd)⟩

theorem Outcome.InReach.reachesOffset {α : Type} {o : Outcome α} {c : Cursor}
    (h : o.InReach c) : c.ReachesOffset o.position := by
  cases o with
  | matched value stop => exact ⟨stop, h, rfl⟩
  | failed offset => exact h

/-! ### The positions of a match -/

namespace Engine

variable {g : Grammar} {n : Nat} {e : Expr} {c d : Cursor} {steps : List Step}
  {o o' : Outcome (Node Unit)} {text : List Char}

theorem Runs.positionFrom (hc : (Cursor.start text).Reaches c) (h : Runs g n e c steps o) :
    Text.PositionFrom text c.offset o.position :=
  h.inReach.reachesOffset.positionFrom hc

/-- An attempt on record is made at a position of the text, and not before the match began. -/
theorem Runs.at?_of_tried (hc : (Cursor.start text).Reaches c) (h : Runs g n e c steps o)
    {e' : Expr} (htried : .tried e' d ∈ steps) :
    Text.PositionFrom text c.offset d.offset ∧ Cursor.at? text d.offset = some d := by
  obtain ⟨hd, _⟩ := h.soundSteps _ htried
  exact ⟨Cursor.ReachesOffset.positionFrom hc ⟨d, hd, rfl⟩,
    Cursor.at?_eq_some_iff.mpr ⟨hc.trans hd, rfl⟩⟩

/-- A rule is called only if it is declared. -/
theorem Runs.declares_of_tried (h : Runs g n e c steps o) {id : RuleId}
    (htried : .tried (.rule id) d ∈ steps) : g.Declares id := by
  obtain ⟨_, k, inner, outcome, hrun⟩ := h.soundSteps _ htried
  exact hrun.declares

/-- An attempt on record ends, or gets stuck, at a position from where it was made on. -/
theorem Runs.positionFrom_of_settled (hc : (Cursor.start text).Reaches c)
    (h : Runs g n e c steps o) {e' : Expr} (hsettled : .settled e' d o' ∈ steps) :
    Text.PositionFrom text d.offset o'.position := by
  obtain ⟨hd, k, inner, hrun⟩ := h.soundSteps _ hsettled
  exact hrun.positionFrom (hc.trans hd)

end Engine

/-! ### The conclusion of a parse -/

namespace Grammar

variable {text : List Char} {offset : Nat}

theorem conclude_failed {p : LineCol} (hp : (LineIndex.of text).lineCol offset = .ok p)
    (config : ParseConfig) (stats : Stats) :
    conclude text config stats (.failed offset) = .ok (.error ⟨.noMatch, .empty offset, p⟩) := by
  rw [conclude, ParseError.ofFailure, hp]
  rfl

theorem conclude_remainder {stop : Cursor} {p : LineCol}
    (hp : (LineIndex.of text).lineCol stop.offset = .ok p) {config : ParseConfig}
    (hfull : config.requireFullInput = true ∧ stop.offset < Text.byteLength text)
    (stats : Stats) (node : Node Unit) :
    conclude text config stats (.matched node stop)
      = .ok (.error ⟨.trailingInput, .of stop.offset (Text.byteLength text), p⟩) := by
  rw [conclude, if_pos (by simpa using hfull), ParseError.ofRemainder, hp]
  rfl

theorem conclude_matched {node : Node Unit} {root : Node String} {stop : Cursor}
    (hroot : node.withLexemes text = .ok root) {config : ParseConfig}
    (hfull : ¬ (config.requireFullInput = true ∧ stop.offset < Text.byteLength text))
    (stats : Stats) :
    conclude text config stats (.matched node stop) = .ok (.ok ⟨⟨root⟩, stats⟩) := by
  rw [conclude, if_neg (by simpa using hfull), SyntaxTree.ofMatch, hroot]
  rfl

variable {g : Grammar} {n : Nat} {e : Expr} {steps : List Step} {o : Outcome (Node Unit)}

/-- **A conclusion can be drawn from every outcome**, and it is one of three: the error of a
failure, the error of a match that left some of the text over, or the tree of a match. -/
theorem conclude_cases (hlen : Text.byteLength text ≤ maxInputLength)
    (h : Runs g n e (.start text) steps o) (config : ParseConfig) (stats : Stats) :
    (∃ offset p, o = .failed offset ∧
      conclude text config stats o = .ok (.error ⟨.noMatch, .empty offset, p⟩)) ∨
    (∃ node stop p, o = .matched node stop ∧
      (config.requireFullInput = true ∧ stop.offset < Text.byteLength text) ∧
      conclude text config stats o
        = .ok (.error ⟨.trailingInput, .of stop.offset (Text.byteLength text), p⟩)) ∨
    (∃ node stop root, o = .matched node stop ∧
      Covers (Lexed text (Made steps)) root (.start text) stop ∧
      (config.requireFullInput = true → stop.offset = Text.byteLength text) ∧
      conclude text config stats o = .ok (.ok ⟨⟨root⟩, stats⟩)) := by
  cases o with
  | failed offset =>
    obtain ⟨p, hp⟩ := LineIndex.exists_lineCol_eq_ok h.inReach
    exact Or.inl ⟨offset, p, rfl, conclude_failed hp config stats⟩
  | matched node stop =>
    by_cases hfull : config.requireFullInput = true ∧ stop.offset < Text.byteLength text
    · obtain ⟨p, hp⟩ := LineIndex.exists_lineCol_eq_ok h.inReach.reachesOffset
      exact Or.inr (Or.inl ⟨node, stop, p, rfl, hfull, conclude_remainder hp hfull stats node⟩)
    · obtain ⟨root, hroot, hcovers⟩ := h.covers.exists_withLexemes hlen (.refl _)
      refine Or.inr (Or.inr ⟨node, stop, root, rfl, hcovers, ?_, ?_⟩)
      · intro hrequired
        have hle : stop.offset ≤ Text.byteLength text := Cursor.offset_le_byteLength h.inReach
        have hge : ¬ stop.offset < Text.byteLength text := fun hlt => hfull ⟨hrequired, hlt⟩
        omega
      · exact conclude_matched hroot hfull stats

/-- An error has the offset at which the match ended or got stuck. -/
theorem exists_conclude (hlen : Text.byteLength text ≤ maxInputLength)
    (h : Runs g n e (.start text) steps o) (config : ParseConfig) (stats : Stats) :
    ∃ result, conclude text config stats o = .ok result ∧
      ∀ err, result = .error err → err.offset = o.position := by
  obtain ⟨d, hd, hoff⟩ := h.inReach.reachesOffset
  -- both kinds of error take the start of their span from the offset of one cursor
  have hexact : (saturate o.position).toNat = o.position := by
    rw [← hoff]
    exact (Span.toNat_of hlen hd (.refl d)).1
  rcases conclude_cases hlen h config stats with
    ⟨offset, p, rfl, hp⟩ | ⟨node, stop, p, rfl, _, hp⟩ | ⟨node, stop, root, rfl, _, _, hp⟩
  · refine ⟨_, hp, ?_⟩
    rintro _ ⟨⟩
    exact hexact
  · refine ⟨_, hp, ?_⟩
    rintro _ ⟨⟩
    exact hexact
  · refine ⟨_, hp, ?_⟩
    rintro _ ⟨⟩

variable {σ : Type}

/-- A parse returns a result, and its errors are at positions of the text, or it goes on for
ever. -/
theorem parseWith_cases (g : Grammar) {text : String}
    (hlen : Text.byteLength text.toList ≤ maxInputLength) (config : ParseConfig)
    (handle : σ → Event → σ) (observer : σ) :
    (∃ result last, g.parseWith text config handle observer = .ok (result, last) ∧
        ∀ err, result = .error err → Text.PositionFrom text.toList 0 err.offset) ∨
      (g.parseWith text config handle observer = .error .leftRecursion ∧
        Diverges g g.start (.start text.toList)) := by
  rcases runs_or_diverges (declares_start g) (.start text.toList) with ⟨n, steps, o, h⟩ | h
  · have hpos := h.positionFrom (Cursor.Reaches.refl (.start text.toList))
    obtain ⟨result, hresult, herr⟩ :=
      exists_conclude hlen h config (finalMonitor config handle observer steps).stats
    refine Or.inl ⟨result, (finalMonitor config handle observer steps).observer, ?_, ?_⟩
    · rw [parseWith_eq hlen h, hresult]
      rfl
    · intro err he
      rw [herr err he]
      exact hpos
  · exact Or.inr ⟨parseWith_eq_error hlen h config handle observer, h⟩

theorem parse_eq (g : Grammar) (text : String) :
    g.parse text = (g.parseWith text { collectStats := false } (fun _ _ => ()) ()).map
      fun result => result.1.map ParseOutput.tree := rfl

end Grammar

/-- **Parsing stays within the text.** Let a text be short enough to be parsed. While a declared
rule is matched from a position of it, every attempt is made at a position, only declared rules
are called, and every attempt ends or gets stuck at a position from where it was made on. An
attempt, a parse as configured and a plain parse have no fault but that of a match that goes on
for ever, and the errors of a parse are at positions of the text. -/
theorem matching_stays_in_text (g : Grammar) {text : String}
    (hlen : Text.byteLength text.toList ≤ maxInputLength) :
    (∀ (σ : Type) (w : Watch σ) (m m' : Monitor σ) (id : RuleId) (i : Nat) (c : Cursor)
        (mode : MatchMode) (o : Outcome (Node Unit)),
        g.Declares id → Cursor.at? text.toList i = some c →
        (g.matchRule w id c mode).run m = .ok (o, m') →
        ∃ n steps, Runs g n (.rule id) c steps o ∧ m' = m.replay w steps ∧
          (∀ e d, .tried e d ∈ steps → Text.PositionFrom text.toList i d.offset ∧
            Cursor.at? text.toList d.offset = some d) ∧
          (∀ s d, .tried (.rule s) d ∈ steps → g.Declares s) ∧
          ∀ e d o', .settled e d o' ∈ steps →
            Text.PositionFrom text.toList d.offset o'.position) ∧
      (∀ (id : RuleId) (i : Nat) (mode : MatchMode), g.Declares id →
        Text.isBoundary text.toList i = true →
        (∃ o, g.attempt id text i mode = .ok o ∧
            Text.PositionFrom text.toList i o.position) ∨
          (g.attempt id text i mode = .error .leftRecursion ∧
            ∃ c, Cursor.at? text.toList i = some c ∧ Diverges g id c)) ∧
      (∀ (σ : Type) (config : ParseConfig) (handle : σ → Event → σ) (observer : σ),
        (∃ result last, g.parseWith text config handle observer = .ok (result, last) ∧
            ∀ err, result = .error err → Text.PositionFrom text.toList 0 err.offset) ∨
          (g.parseWith text config handle observer = .error .leftRecursion ∧
            Diverges g g.start (.start text.toList))) ∧
      ((∃ result, g.parse text = .ok result ∧
          ∀ err, result = .error err → Text.PositionFrom text.toList 0 err.offset) ∨
        (g.parse text = .error .leftRecursion ∧ Diverges g g.start (.start text.toList))) := by
  refine ⟨?_, ?_, ?_, ?_⟩
  · intro σ w m m' id i c mode o hid hc hrun
    obtain ⟨hreach, rfl⟩ := Cursor.at?_eq_some_iff.mp hc
    rcases runs_or_diverges hid c with ⟨n, steps, _, h⟩ | h
    · rw [matchRule_run_of_runs h] at hrun
      cases hrun
      exact ⟨n, steps, h, rfl, fun e d htried => h.at?_of_tried hreach htried,
        fun s d htried => h.declares_of_tried htried,
        fun e d o' hsettled => h.positionFrom_of_settled hreach hsettled⟩
    · rw [h.matchRule_run] at hrun
      cases hrun
  · intro id i mode hid hi
    obtain ⟨c, hc⟩ := Cursor.exists_at?_of_isBoundary hi
    obtain ⟨hreach, hoff⟩ := Cursor.at?_eq_some_iff.mp hc
    rcases Grammar.attempt_cases hlen hc hid mode with ⟨n, steps, o, h, hattempt⟩ | ⟨h, hattempt⟩
    · exact Or.inl ⟨o, hattempt, hoff ▸ h.positionFrom hreach⟩
    · exact Or.inr ⟨hattempt, c, hc, h⟩
  · intro σ config handle observer
    exact Grammar.parseWith_cases g hlen config handle observer
  · rw [Grammar.parse_eq]
    rcases Grammar.parseWith_cases g hlen { collectStats := false } (fun _ _ => ()) () with
      ⟨result, last, hparse, herr⟩ | ⟨hparse, hdiv⟩
    · rw [hparse]
      refine Or.inl ⟨result.map ParseOutput.tree, rfl, ?_⟩
      intro err he
      cases result with
      | error e => cases he; exact herr _ rfl
      | ok output => cases he
    · rw [hparse]
      exact Or.inr ⟨rfl, hdiv⟩

/-- A vowel with an accent and then one of two consonants, one of them of two bytes. -/
def syllable : Grammar where
  rules := #[
    ⟨"syllable", [.sequence [.charSet "áéó", .rule ⟨1⟩]], nofun⟩,
    ⟨"consonant", [.literal "ñ", .literal "s"], nofun⟩]
  start := ⟨0⟩
  valid := rfl

/-- Behind a vowel of two bytes, an attempt and a parse that get stuck at the same offset. -/
theorem syllable_stuck_in_text :
    (∃ o, syllable.attempt ⟨1⟩ "éé" 2 .lexical = .ok o ∧
      Text.PositionFrom "éé".toList 2 o.position) ∧
    ∃ err, syllable.parse "éé" = .ok (.error err) ∧ err.offset = 2 ∧
      Text.PositionFrom "éé".toList 0 err.offset := by
  have hlen : Text.byteLength "éé".toList ≤ maxInputLength := by decide
  obtain ⟨_, hattempt, _, hparse⟩ := matching_stays_in_text syllable hlen
  refine ⟨?_, ?_⟩
  · refine (hattempt ⟨1⟩ 2 .lexical (by decide) (by decide)).resolve_right ?_
    rintro ⟨hfault, _⟩
    cases hfault
  · have hresult : syllable.parse "éé"
        = .ok (.error ⟨.noMatch, .empty 2, ⟨1, 2⟩⟩) := by decide +kernel
    rcases hparse with ⟨result, hok, herr⟩ | ⟨hfault, _⟩
    · cases hresult.symm.trans hok
      exact ⟨_, hresult, rfl, herr _ rfl⟩
    · cases hresult.symm.trans hfault

end PegGrammar
