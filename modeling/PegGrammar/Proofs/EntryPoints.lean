import PegGrammar.Parse.Basic
import PegGrammar.Proofs.Depth

/-!
# Entry points

What `Grammar.attempt` and `Grammar.parseWith` return, in terms of the course of the match behind
them. A text that is short enough passes the check in front, and from then on the entry points add
nothing but the conclusion they draw from the outcome.

A match without a course never returns. Inside the library that is the fault `leftRecursion`; that
it is not the depth limit that stands in the way is `Engine.Diverges`: no limit would do.

## Main results

* `Engine.diverges_iff` — a call diverges exactly if it has no course
* `Engine.runs_or_diverges` — the two cases of everything that follows
* `Grammar.attempt_eq_ok`, `attempt_eq_error` — matching one rule at one position
* `Grammar.attempt_of_long`, `attempt_of_not_position`, `attempt_of_not_declares` — what is refused
* `Grammar.exists_runs_of_attempt` — an attempt that returns has a course behind it
* `Grammar.parseWith_eq`, `parseWith_eq_error` — parsing a text
* `Grammar.exists_runs_of_parseWith_eq_ok` — a parse that returns has a course behind it
-/

namespace PegGrammar

namespace Engine

/-- A call that never returns: however deep calls may nest, there is always one more, whatever the
mode. -/
def Diverges (g : Grammar) (id : RuleId) (c : Cursor) : Prop :=
  ∀ (σ : Type) (w : Watch σ) (limit : Nat) (mode : MatchMode) (m : Monitor σ),
    (callRule g w limit id c mode).run m = .error .leftRecursion

/-- Divergence is about every limit of the engine, and comes down to there being no course at all.
So it can be shown and used without any limit. -/
theorem diverges_iff {g : Grammar} {id : RuleId} {c : Cursor} (hid : g.Declares id) :
    Diverges g id c ↔ ∀ n steps o, ¬ Runs g n (.rule id) c steps o := by
  constructor
  · intro h n steps o hrun
    have hdiv := h Unit ⟨fun _ _ => (), false⟩ n .syntactic { observer := () }
    rw [callRule_run_of_runs hrun] at hdiv
    cases hdiv
  · intro h σ w limit mode m
    exact callRule_run_of_not_runs hid (h limit) w mode m

/-- **A call of a declared rule has a course or diverges.** -/
theorem runs_or_diverges {g : Grammar} {id : RuleId} (hid : g.Declares id) (c : Cursor) :
    (∃ n steps o, Runs g n (.rule id) c steps o) ∨ Diverges g id c := by
  by_cases h : ∃ n steps o, Runs g n (.rule id) c steps o
  · exact Or.inl h
  · push Not at h
    exact Or.inr ((diverges_iff hid).mpr h)

/-- A rule that is not declared cannot be called. -/
theorem callRule_succ_run_of_not_declares {σ : Type} {g : Grammar} {id : RuleId}
    (hid : ¬ g.Declares id) (w : Watch σ) (limit : Nat) (c : Cursor) (mode : MatchMode)
    (m : Monitor σ) : (callRule g w (limit + 1) id c mode).run m = .error (.unknownRule id) := by
  have hrule : g.rule id = .error (.unknownRule id) := by
    cases hr : g.rule? id with
    | none => rw [Grammar.rule, hr]
    | some r => exact absurd (Grammar.declares_of_rule? hr) hid
  rw [callRule, hrule]
  rfl

theorem Diverges.declares {g : Grammar} {id : RuleId} {c : Cursor} (h : Diverges g id c) :
    g.Declares id := by
  by_contra hid
  have hdiv := h Unit ⟨fun _ _ => (), false⟩ 1 .syntactic { observer := () }
  rw [callRule_succ_run_of_not_declares hid] at hdiv
  cases hdiv

theorem Diverges.matchRule_run {σ : Type} {g : Grammar} {id : RuleId} {c : Cursor}
    (h : Diverges g id c) (w : Watch σ) (mode : MatchMode) (m : Monitor σ) :
    (g.matchRule w id c mode).run m = .error .leftRecursion :=
  h σ w (g.depthLimit c) mode m

end Engine

namespace Grammar

open Engine

variable {σ : Type} {g : Grammar} {id : RuleId} {text : String} {i n : Nat} {c : Cursor}
  {steps : List Step} {o : Outcome (Node Unit)}

theorem checkLength_eq_ok {chars : List Char} (h : Text.byteLength chars ≤ maxInputLength) :
    checkLength chars = .ok () := by
  rw [checkLength, if_pos h]

/-! ### Matching one rule -/

theorem attempt_eq (hlen : Text.byteLength text.toList ≤ maxInputLength)
    (hc : Cursor.at? text.toList i = some c) (mode : MatchMode) :
    g.attempt id text i mode
      = ((g.matchRule ⟨fun _ _ => (), false⟩ id c mode).run { observer := () }).map Prod.fst := by
  rw [attempt, checkLength_eq_ok hlen]
  simp only [hc]
  rfl

/-- A course gives the answer of the entry point in either mode, because the limit that the entry
point sets is high enough for every course. -/
theorem attempt_eq_ok (hlen : Text.byteLength text.toList ≤ maxInputLength)
    (hc : Cursor.at? text.toList i = some c) (h : Runs g n (.rule id) c steps o)
    (mode : MatchMode) : g.attempt id text i mode = .ok o := by
  rw [attempt_eq hlen hc, matchRule_run_of_runs h]
  rfl

/-- Without a course the answer is the fault that stands for a match without end. -/
theorem attempt_eq_error (hlen : Text.byteLength text.toList ≤ maxInputLength)
    (hc : Cursor.at? text.toList i = some c) (h : Diverges g id c) (mode : MatchMode) :
    g.attempt id text i mode = .error .leftRecursion := by
  rw [attempt_eq hlen hc, h.matchRule_run]
  rfl

/-- Every attempt of a declared rule has a course and returns its outcome, or it diverges. -/
theorem attempt_cases (hlen : Text.byteLength text.toList ≤ maxInputLength)
    (hc : Cursor.at? text.toList i = some c) (hid : g.Declares id) (mode : MatchMode) :
    (∃ n steps o, Runs g n (.rule id) c steps o ∧ g.attempt id text i mode = .ok o) ∨
      (Diverges g id c ∧ g.attempt id text i mode = .error .leftRecursion) := by
  rcases runs_or_diverges hid c with ⟨n, steps, o, h⟩ | h
  · exact Or.inl ⟨n, steps, o, h, attempt_eq_ok hlen hc h mode⟩
  · exact Or.inr ⟨h, attempt_eq_error hlen hc h mode⟩

/-! A text that is too long, an offset that is no position of the text and a rule that is not
declared are refused, in this order. -/

theorem attempt_of_long (hlen : maxInputLength < Text.byteLength text.toList) (mode : MatchMode) :
    g.attempt id text i mode = .error (.inputTooLong (Text.byteLength text.toList)) := by
  rw [attempt, checkLength, if_neg (Nat.not_le.mpr hlen)]
  rfl

theorem attempt_of_not_position (hlen : Text.byteLength text.toList ≤ maxInputLength)
    (hc : Cursor.at? text.toList i = none) (mode : MatchMode) :
    g.attempt id text i mode = .error (.notBoundary i) := by
  rw [attempt, checkLength_eq_ok hlen]
  simp only [hc]
  rfl

theorem attempt_of_not_declares (hlen : Text.byteLength text.toList ≤ maxInputLength)
    (hc : Cursor.at? text.toList i = some c) (hid : ¬ g.Declares id) (mode : MatchMode) :
    g.attempt id text i mode = .error (.unknownRule id) := by
  have hrules : 0 < g.rules.size := Nat.zero_lt_of_lt (declares_start g)
  have hlimit : 0 < g.depthLimit c := Nat.mul_pos hrules (Nat.succ_pos _)
  obtain ⟨limit, hlimit⟩ := Nat.exists_eq_succ_of_ne_zero hlimit.ne'
  rw [attempt_eq hlen hc, matchRule, hlimit, callRule_succ_run_of_not_declares hid]
  rfl

/-- **The match behind an attempt that returns.** The text is short enough, the attempt is made at
a position of it, and the outcome is that of the match from there. -/
theorem exists_runs_of_attempt {mode : MatchMode} (h : g.attempt id text i mode = .ok o) :
    Text.byteLength text.toList ≤ maxInputLength ∧
      ∃ c n steps, Cursor.at? text.toList i = some c ∧ Runs g n (.rule id) c steps o := by
  have hlen : Text.byteLength text.toList ≤ maxInputLength := by
    by_contra hlong
    rw [attempt_of_long (Nat.not_le.mp hlong)] at h
    cases h
  refine ⟨hlen, ?_⟩
  cases hc : Cursor.at? text.toList i with
  | none =>
    rw [attempt_of_not_position hlen hc] at h
    cases h
  | some c =>
    have hid : g.Declares id := by
      by_contra hid
      rw [attempt_of_not_declares hlen hc hid] at h
      cases h
    rcases attempt_cases hlen hc hid mode with ⟨n, steps, o', hrun, ho'⟩ | ⟨_, herror⟩
    · obtain rfl : o' = o := Except.ok.inj (ho'.symm.trans h)
      exact ⟨c, n, steps, rfl, hrun⟩
    · rw [herror] at h
      cases h

/-! ### Parsing a text -/

/-- The monitor with which parsing ends, after the steps of its match. -/
def finalMonitor (config : ParseConfig) (handle : σ → Event → σ) (observer : σ)
    (steps : List Step) : Monitor σ :=
  Monitor.replay ⟨handle, config.collectStats⟩ { observer } steps

/-- A parse is a course of the start rule, replayed for the observer and the statistics, with the
result that `conclude` makes of its outcome. -/
theorem parseWith_eq (hlen : Text.byteLength text.toList ≤ maxInputLength)
    (h : Runs g n (.rule g.start) (.start text.toList) steps o) (config : ParseConfig)
    (handle : σ → Event → σ) (observer : σ) :
    g.parseWith text config handle observer
      = (conclude text.toList config (finalMonitor config handle observer steps).stats o).map
          fun result => (result, (finalMonitor config handle observer steps).observer) := by
  rw [parseWith, checkLength_eq_ok hlen]
  simp only [matchRule_run_of_runs h]
  rfl

theorem parseWith_eq_error (hlen : Text.byteLength text.toList ≤ maxInputLength)
    (h : Diverges g g.start (.start text.toList)) (config : ParseConfig)
    (handle : σ → Event → σ) (observer : σ) :
    g.parseWith text config handle observer = .error .leftRecursion := by
  rw [parseWith, checkLength_eq_ok hlen]
  simp only [h.matchRule_run]
  rfl

section Returns

variable {config : ParseConfig} {handle : σ → Event → σ} {observer last : σ}
  {result : Except ParseError ParseOutput}

/-- Only a text that is short enough is parsed. -/
theorem byteLength_le_of_parseWith
    (h : g.parseWith text config handle observer = .ok (result, last)) :
    Text.byteLength text.toList ≤ maxInputLength := by
  by_contra hlen
  rw [parseWith, checkLength, if_neg hlen] at h
  cases h

/-- The match behind a parse that returns. -/
theorem exists_runs_of_parseWith_eq_ok
    (h : g.parseWith text config handle observer = .ok (result, last)) :
    ∃ n steps o, Runs g n (.rule g.start) (.start text.toList) steps o := by
  rcases runs_or_diverges (declares_start g) (.start text.toList) with hrun | hdiv
  · exact hrun
  · rw [parseWith_eq_error (byteLength_le_of_parseWith h) hdiv] at h
    cases h

end Returns

end Grammar

end PegGrammar
