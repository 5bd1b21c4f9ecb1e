import PegGrammar.Proofs.Alike

/-!
# Laws of expressions

Expressions that are written differently and match alike: sequences within sequences, choices
within choices, combinations of a single part, and repetitions of repetitions. Each law holds for
the end of a match, for the offset of a failure and for going on for ever at once, because it is
an equality of outcomes at every depth.

## Repetitions

A repetition stops where its operand gets nowhere: the operand fails there, or matches without
consuming anything. `Rests` is that condition, and it is all that the laws of repetitions need.
The sign `*` ends at a place where the operand rests, and where the operand rests it does not move
(`settles_star_of_rests`), so repeating a repetition once more finds nothing to do. Operands that
match the empty text need no case of their own.

Two properties of an operand decide what a sign behind it does. It may be *unfailing*, and then it
makes no difference whether a match is asked for or only allowed. And it may be *exhausting*,
resting wherever it stops, and then it makes no difference whether it may match once or many times.
Repetitions have one of the two properties or both.

## Main definitions

* `Rests` — an expression gets nowhere at a cursor
* `Unfailing`, `Exhausting` — the two properties
* `Bounds.compose` — the bounds of a repetition of a repetition

## Main results

* `alike_sequence_splice`, `alike_choice_splice` — combinations within combinations
* `alike_plus_sequence` — `e+` as `e e*`
* `alike_repeated_repeated` — a repetition of a repetition is a repetition
-/

namespace PegGrammar

namespace Engine

variable {g : Grammar} {n k : Nat} {e : Expr} {es fs : List Expr} {bounds : Bounds} {count : Nat}
  {c stop : Cursor} {furthest offset : Nat} {o o' : Outcome Unit}

/-! ### Outcomes at different depths -/

theorem Settles.mono (hn : n ≤ k) (h : Settles g n e c o) : Settles g k e c o := by
  obtain ⟨steps, result, hrun, hresult⟩ := h
  exact ⟨steps, result, hrun.mono hn, hresult⟩

theorem Settles.unique (h : Settles g n e c o) (h' : Settles g k e c o') : o' = o := by
  obtain ⟨steps, result, hrun, rfl⟩ := h
  obtain ⟨steps', result', hrun', rfl⟩ := h'
  rw [(hrun.unique hrun').2]

theorem Settles.reaches (h : Settles g n e c (.matched () stop)) : c.Reaches stop := by
  obtain ⟨steps, node, hrun⟩ := settles_matched_iff.mp h
  exact hrun.inReach

/-- A match that consumes nothing stops where it began. -/
theorem Settles.eq_of_not_shorter (h : Settles g n e c (.matched () stop))
    (hidle : ¬ stop.rest.length < c.rest.length) : stop = c :=
  h.reaches.eq_of_length_le (Nat.le_of_not_lt hidle)

/-! ### Sequences -/

theorem AlikeEach.sequence (h : AlikeEach g es fs) : Alike g (.sequence es) (.sequence fs) := by
  intro n c o
  rw [settles_sequence_iff, settles_sequence_iff, h n c o]

/-- A sequence within a sequence may be left out, and its elements kept. -/
theorem alike_sequence_splice (g : Grammar) (before es after : List Expr) :
    Alike g (.sequence (before ++ .sequence es :: after)) (.sequence (before ++ es ++ after)) := by
  refine AlikeEach.sequence ?_
  rw [List.append_assoc, List.append_cons before (.sequence es) after, List.append_assoc]
  refine AlikeEach.append (fun n c o => Iff.rfl) ?_
  exact (alikeEach_sequence g es).append fun n c o => Iff.rfl

theorem alike_sequence_singleton (g : Grammar) (e : Expr) : Alike g (.sequence [e]) e := by
  intro n c o
  rw [settles_sequence_iff, settlesEach_singleton_iff]

/-! ### Choices

Failures are collected from left to right, and a choice starts with the cursor. A choice inside
another one starts again with the cursor, which the failures before it have reached already. -/

/-- Where the other alternatives of a choice start to collect failures makes a difference only to
a failure. -/
theorem settlesFirst_max_iff (es : List Expr) :
    SettlesFirst g n es c (max k furthest) o ↔
      (∃ stop, o = .matched () stop ∧ SettlesFirst g n es c furthest (.matched () stop)) ∨
        ∃ offset, o = .failed (max k offset) ∧ SettlesFirst g n es c furthest (.failed offset) := by
  induction es generalizing furthest with
  | nil => simp [settlesFirst_nil_iff]
  | cons e es ih =>
    simp only [settlesFirst_cons_iff, Nat.max_assoc, ih]
    constructor
    · rintro (⟨stop, h, rfl⟩ | ⟨offset, h, ⟨stop, rfl, hs⟩ | ⟨offset', rfl, hs⟩⟩)
      · exact Or.inl ⟨stop, rfl, Or.inl ⟨stop, h, rfl⟩⟩
      · exact Or.inl ⟨stop, rfl, Or.inr ⟨offset, h, hs⟩⟩
      · exact Or.inr ⟨offset', rfl, Or.inr ⟨offset, h, hs⟩⟩
    · rintro (⟨stop, rfl, ⟨_, h, ⟨⟩⟩ | ⟨offset, h, hs⟩⟩ |
        ⟨offset', rfl, ⟨_, _, ⟨⟩⟩ | ⟨offset, h, hs⟩⟩)
      · exact Or.inl ⟨stop, h, rfl⟩
      · exact Or.inr ⟨offset, h, Or.inl ⟨stop, rfl, hs⟩⟩
      · exact Or.inr ⟨offset, h, Or.inr ⟨offset', rfl, hs⟩⟩

theorem settlesFirst_append_iff :
    SettlesFirst g n (es ++ fs) c furthest o ↔
      (∃ stop, o = .matched () stop ∧ SettlesFirst g n es c furthest (.matched () stop)) ∨
        ∃ offset, SettlesFirst g n es c furthest (.failed offset) ∧
          SettlesFirst g n fs c offset o := by
  induction es generalizing furthest with
  | nil => simp [settlesFirst_nil_iff]
  | cons e es ih =>
    simp only [List.cons_append, settlesFirst_cons_iff, ih]
    constructor
    · rintro (⟨stop, h, rfl⟩ | ⟨offset, h, ⟨stop, rfl, hs⟩ | ⟨offset', hs, hfs⟩⟩)
      · exact Or.inl ⟨stop, rfl, Or.inl ⟨stop, h, rfl⟩⟩
      · exact Or.inl ⟨stop, rfl, Or.inr ⟨offset, h, hs⟩⟩
      · exact Or.inr ⟨offset', Or.inr ⟨offset, h, hs⟩, hfs⟩
    · rintro (⟨stop, rfl, ⟨_, h, ⟨⟩⟩ | ⟨offset, h, hs⟩⟩ |
        ⟨offset', ⟨_, _, ⟨⟩⟩ | ⟨offset, h, hs⟩, hfs⟩)
      · exact Or.inl ⟨stop, h, rfl⟩
      · exact Or.inr ⟨offset, h, Or.inl ⟨stop, rfl, hs⟩⟩
      · exact Or.inr ⟨offset, h, Or.inr ⟨offset', hs, hfs⟩⟩

theorem settlesFirst_choice_cons_iff (hf : c.offset ≤ furthest) :
    SettlesFirst g n (.choice es :: fs) c furthest o ↔
      SettlesFirst g n (es ++ fs) c furthest o := by
  rw [settlesFirst_cons_iff, settlesFirst_append_iff, ← Nat.max_eq_left hf]
  simp only [settles_choice_iff, settlesFirst_max_iff es]
  constructor
  · rintro (⟨stop, h, rfl⟩ | ⟨offset, h, hs⟩)
    · exact Or.inl ⟨stop, rfl, Or.inl ⟨stop, rfl, h⟩⟩
    · rw [Nat.max_eq_left hf] at hs
      exact Or.inr ⟨_, Or.inr ⟨offset, rfl, h⟩, hs⟩
  · rintro (⟨stop, rfl, ⟨_, ⟨⟩, h⟩ | ⟨_, ⟨⟩, _⟩⟩ | ⟨_, ⟨_, ⟨⟩, _⟩ | ⟨offset, ⟨⟩, h⟩, hs⟩)
    · exact Or.inl ⟨stop, h, rfl⟩
    · rw [Nat.max_eq_left hf]
      exact Or.inr ⟨offset, h, hs⟩

/-- A choice within a choice may be left out, and its alternatives kept. -/
theorem alike_choice_splice (g : Grammar) (before es after : List Expr) :
    Alike g (.choice (before ++ .choice es :: after)) (.choice (before ++ es ++ after)) := by
  intro n c o
  rw [settles_choice_iff, settles_choice_iff, List.append_assoc]
  have hsplice : ∀ furthest, c.offset ≤ furthest →
      (SettlesFirst g n (before ++ .choice es :: after) c furthest o ↔
        SettlesFirst g n (before ++ (es ++ after)) c furthest o) := by
    induction before with
    | nil => exact fun furthest hf => settlesFirst_choice_cons_iff hf
    | cons e before ih =>
      intro furthest hf
      simp only [List.cons_append, settlesFirst_cons_iff]
      refine or_congr_right (exists_congr fun offset => and_congr_right fun _ => ?_)
      exact ih _ (Nat.le_trans hf (Nat.le_max_left _ _))
  exact hsplice _ (Nat.le_refl _)

/-! ### Repetitions, one round at a time -/

/-- Without a greatest number of rounds, and with enough of them done, the number done so far does
not matter. -/
theorem settlesMany_unbounded_iff (hmax : bounds.max? = none) (hmin : bounds.min ≤ count) :
    SettlesMany g n e bounds count c o ↔ SettlesMany g n e .zeroToMany 0 c o := by
  induction hlength : c.rest.length using Nat.strongRecOn generalizing bounds count c with
  | ind length ih =>
    subst hlength
    have hmore : bounds.allowsMore count = true := by rw [Bounds.allowsMore, hmax]; rfl
    rw [settlesMany_more_iff hmore, settlesMany_more_iff rfl]
    refine or_congr ?_ (or_congr_right (exists_congr fun stop => and_congr_right fun _ =>
      and_congr_right fun hshorter => ?_))
    · have hfew : ¬ count < bounds.min := Nat.not_lt.mpr hmin
      have hmin' : Bounds.zeroToMany.min ≤ 0 := Nat.le_refl 0
      have hfew' : ¬ 0 < Bounds.zeroToMany.min := Nat.lt_irrefl 0
      simp only [hmin, hfew, hmin', hfew', true_and, false_and, or_false]
    · rw [ih _ hshorter hmax (Nat.le_succ_of_le hmin) rfl,
        ih _ hshorter (rfl : Bounds.zeroToMany.max? = none) (Nat.zero_le (0 + 1)) rfl]

/-- The expression gets nowhere: it fails, or matches without consuming anything. -/
def Rests (g : Grammar) (n : Nat) (e : Expr) (c : Cursor) : Prop :=
  (∃ offset, Settles g n e c (.failed offset)) ∨ Settles g n e c (.matched () c)

/-- `e*` stays where `e` rests, and otherwise goes on behind a match. -/
theorem settles_star_iff :
    Settles g n (.repeated e .zeroToMany) c o ↔
      (Rests g n e c ∧ o = .matched () c) ∨
        ∃ stop, Settles g n e c (.matched () stop) ∧ stop.rest.length < c.rest.length ∧
          Settles g n (.repeated e .zeroToMany) stop o := by
  simp only [settles_repeated_iff]
  rw [settlesMany_more_iff rfl]
  have hrounds : ∀ stop, SettlesMany g n e .zeroToMany (0 + 1) stop o ↔
      SettlesMany g n e .zeroToMany 0 stop o :=
    fun stop => settlesMany_unbounded_iff rfl (Nat.zero_le _)
  simp only [hrounds, Rests]
  constructor
  · rintro (⟨offset, h, ⟨_, rfl⟩ | ⟨hfew, _⟩⟩ | ⟨stop, h, hidle, rfl⟩ | hmore)
    · exact Or.inl ⟨Or.inl ⟨offset, h⟩, rfl⟩
    · exact absurd hfew (Nat.not_lt_zero _)
    · obtain rfl := h.eq_of_not_shorter hidle
      exact Or.inl ⟨Or.inr h, rfl⟩
    · exact Or.inr hmore
  · rintro (⟨⟨offset, h⟩ | h, rfl⟩ | hmore)
    · exact Or.inl ⟨offset, h, Or.inl ⟨Nat.zero_le _, rfl⟩⟩
    · exact Or.inr (Or.inl ⟨c, h, Nat.lt_irrefl _, rfl⟩)
    · exact Or.inr (Or.inr hmore)

/-- `e+` fails where `e` fails, and otherwise goes on as `e*` behind the first match. -/
theorem settles_plus_iff :
    Settles g n (.repeated e .oneToMany) c o ↔
      (∃ offset, Settles g n e c (.failed offset) ∧ o = .failed offset) ∨
      (Settles g n e c (.matched () c) ∧ o = .matched () c) ∨
        ∃ stop, Settles g n e c (.matched () stop) ∧ stop.rest.length < c.rest.length ∧
          Settles g n (.repeated e .zeroToMany) stop o := by
  simp only [settles_repeated_iff]
  rw [settlesMany_more_iff rfl]
  have hrounds : ∀ stop, SettlesMany g n e .oneToMany (0 + 1) stop o ↔
      SettlesMany g n e .zeroToMany 0 stop o :=
    fun stop => settlesMany_unbounded_iff rfl (Nat.le_refl _)
  simp only [hrounds]
  constructor
  · rintro (⟨offset, h, ⟨henough, _⟩ | ⟨_, rfl⟩⟩ | ⟨stop, h, hidle, rfl⟩ | hmore)
    · exact absurd henough (Nat.not_succ_le_zero 0)
    · exact Or.inl ⟨offset, h, rfl⟩
    · obtain rfl := h.eq_of_not_shorter hidle
      exact Or.inr (Or.inl ⟨h, rfl⟩)
    · exact Or.inr (Or.inr hmore)
  · rintro (⟨offset, h, rfl⟩ | ⟨h, rfl⟩ | hmore)
    · exact Or.inl ⟨offset, h, Or.inr ⟨Nat.zero_lt_one, rfl⟩⟩
    · exact Or.inr (Or.inl ⟨c, h, Nat.lt_irrefl _, rfl⟩)
    · exact Or.inr (Or.inr hmore)

/-- `e?` stays where `e` fails, and otherwise does what `e` does. -/
theorem settles_optional_iff :
    Settles g n (.repeated e .zeroToOne) c o ↔
      (∃ offset, Settles g n e c (.failed offset) ∧ o = .matched () c) ∨
        ∃ stop, Settles g n e c (.matched () stop) ∧ o = .matched () stop := by
  simp only [settles_repeated_iff]
  rw [settlesMany_more_iff rfl]
  have hdone : ∀ stop, SettlesMany g n e .zeroToOne (0 + 1) stop o ↔ o = .matched () stop :=
    fun stop => settlesMany_full_iff rfl
  simp only [hdone]
  constructor
  · rintro (⟨offset, h, ⟨_, rfl⟩ | ⟨hfew, _⟩⟩ | ⟨stop, h, _, rfl⟩ | ⟨stop, h, _, rfl⟩)
    · exact Or.inl ⟨offset, h, rfl⟩
    · exact absurd hfew (Nat.not_lt_zero _)
    · exact Or.inr ⟨stop, h, rfl⟩
    · exact Or.inr ⟨stop, h, rfl⟩
  · rintro (⟨offset, h, rfl⟩ | ⟨stop, h, rfl⟩)
    · exact Or.inl ⟨offset, h, Or.inl ⟨Nat.zero_le _, rfl⟩⟩
    · by_cases hshorter : stop.rest.length < c.rest.length
      · exact Or.inr (Or.inr ⟨stop, h, hshorter, rfl⟩)
      · exact Or.inr (Or.inl ⟨stop, h, hshorter, rfl⟩)

/-! ### Where repetitions rest -/

/-- An expression that rests does not also match and consume. -/
theorem Rests.not_shorter (h : Rests g n e c) (hstop : Settles g n e c (.matched () stop)) :
    ¬ stop.rest.length < c.rest.length := by
  rcases h with ⟨offset, hfails⟩ | hidle
  · cases hfails.unique hstop
  · cases hidle.unique hstop
    exact Nat.lt_irrefl _

/-- `e*` does not move from where `e` rests. -/
theorem settles_star_of_rests (h : Rests g n e c) :
    Settles g n (.repeated e .zeroToMany) c o ↔ o = .matched () c := by
  rw [settles_star_iff]
  constructor
  · rintro (⟨_, ho⟩ | ⟨stop, hstop, hshorter, _⟩)
    · exact ho
    · exact absurd hshorter (h.not_shorter hstop)
  · exact fun ho => Or.inl ⟨h, ho⟩

/-- `e*` stops where `e` rests. Each further round has less text before it. -/
theorem exists_rests_of_star (h : Settles g n (.repeated e .zeroToMany) c o) :
    ∃ stop, o = .matched () stop ∧ Rests g n e stop := by
  induction hlength : c.rest.length using Nat.strongRecOn generalizing c with
  | ind length ih =>
    subst hlength
    rcases settles_star_iff.mp h with ⟨hrests, rfl⟩ | ⟨stop, _, hshorter, hmore⟩
    · exact ⟨c, rfl, hrests⟩
    · exact ih _ hshorter hmore rfl

/-- `e+` stops where `e` rests. -/
theorem rests_of_plus (h : Settles g n (.repeated e .oneToMany) c (.matched () stop)) :
    Rests g n e stop := by
  rcases settles_plus_iff.mp h with ⟨_, _, ⟨⟩⟩ | ⟨hidle, ⟨⟩⟩ | ⟨_, _, _, hmore⟩
  · exact Or.inr hidle
  · obtain ⟨_, ⟨⟩, hrests⟩ := exists_rests_of_star hmore
    exact hrests

/-! ### Operands of repetitions -/

/-- The expression has no failures. -/
def Unfailing (g : Grammar) (e : Expr) : Prop := ∀ n c offset, ¬ Settles g n e c (.failed offset)

/-- The expression rests wherever it stops. -/
def Exhausting (g : Grammar) (e : Expr) : Prop :=
  ∀ n c stop, Settles g n e c (.matched () stop) → Rests g n e stop

theorem unfailing_optional (g : Grammar) (e : Expr) : Unfailing g (.repeated e .zeroToOne) := by
  intro n c offset h
  rcases settles_optional_iff.mp h with ⟨_, _, ⟨⟩⟩ | ⟨_, _, ⟨⟩⟩

theorem unfailing_star (g : Grammar) (e : Expr) : Unfailing g (.repeated e .zeroToMany) := by
  intro n c offset h
  obtain ⟨_, ⟨⟩, _⟩ := exists_rests_of_star h

theorem exhausting_star (g : Grammar) (e : Expr) : Exhausting g (.repeated e .zeroToMany) := by
  intro n c stop h
  obtain ⟨_, ⟨⟩, hrests⟩ := exists_rests_of_star h
  exact Or.inr ((settles_star_of_rests hrests).mpr rfl)

theorem exhausting_plus (g : Grammar) (e : Expr) : Exhausting g (.repeated e .oneToMany) := by
  intro n c stop h
  rcases rests_of_plus h with ⟨offset, hfails⟩ | hidle
  · exact Or.inl ⟨offset, settles_plus_iff.mpr (Or.inl ⟨offset, hfails, rfl⟩)⟩
  · exact Or.inr (settles_plus_iff.mpr (Or.inr (Or.inl ⟨hidle, rfl⟩)))

theorem Unfailing.alike_optional (h : Unfailing g e) : Alike g (.repeated e .zeroToOne) e := by
  intro n c o
  rw [settles_optional_iff]
  constructor
  · rintro (⟨offset, hfails, _⟩ | ⟨stop, hstop, rfl⟩)
    · exact absurd hfails (h n c offset)
    · exact hstop
  · intro hsettles
    cases o with
    | matched value stop => exact Or.inr ⟨stop, hsettles, rfl⟩
    | failed offset => exact absurd hsettles (h n c offset)

theorem Unfailing.alike_plus (h : Unfailing g e) :
    Alike g (.repeated e .oneToMany) (.repeated e .zeroToMany) := by
  intro n c o
  have hfails : ∀ offset, ¬ Settles g n e c (.failed offset) := h n c
  rw [settles_plus_iff, settles_star_iff, Rests]
  simp only [hfails, exists_false, false_and, false_or]

theorem Exhausting.alike_plus (h : Exhausting g e) : Alike g (.repeated e .oneToMany) e := by
  intro n c o
  rw [settles_plus_iff]
  constructor
  · rintro (⟨offset, hfails, rfl⟩ | ⟨hidle, rfl⟩ | ⟨stop, hstop, _, hmore⟩)
    · exact hfails
    · exact hidle
    · obtain rfl := (settles_star_of_rests (h n c stop hstop)).mp hmore
      exact hstop
  · intro hsettles
    cases o with
    | failed offset => exact Or.inl ⟨offset, hsettles, rfl⟩
    | matched value stop =>
      by_cases hshorter : stop.rest.length < c.rest.length
      · exact Or.inr (Or.inr ⟨stop, hsettles, hshorter,
          (settles_star_of_rests (h n c stop hsettles)).mpr rfl⟩)
      · obtain rfl := hsettles.eq_of_not_shorter hshorter
        exact Or.inr (Or.inl ⟨hsettles, rfl⟩)

theorem Exhausting.alike_star (h : Exhausting g e) :
    Alike g (.repeated e .zeroToMany) (.repeated e .zeroToOne) := by
  intro n c o
  rw [settles_star_iff, settles_optional_iff]
  constructor
  · rintro (⟨⟨offset, hfails⟩ | hidle, rfl⟩ | ⟨stop, hstop, _, hmore⟩)
    · exact Or.inl ⟨offset, hfails, rfl⟩
    · exact Or.inr ⟨c, hidle, rfl⟩
    · exact Or.inr ⟨stop, hstop, (settles_star_of_rests (h n c stop hstop)).mp hmore⟩
  · rintro (⟨offset, hfails, rfl⟩ | ⟨stop, hstop, rfl⟩)
    · exact Or.inl ⟨Or.inl ⟨offset, hfails⟩, rfl⟩
    · by_cases hshorter : stop.rest.length < c.rest.length
      · exact Or.inr ⟨stop, hstop, hshorter,
          (settles_star_of_rests (h n c stop hstop)).mpr rfl⟩
      · obtain rfl := hstop.eq_of_not_shorter hshorter
        exact Or.inl ⟨Or.inr hstop, rfl⟩

/-! ### Repetitions of repetitions -/

/-- `e+` is `e` and then `e*`. Where `e` consumes nothing, `e*` finds it resting. -/
theorem alike_plus_sequence (g : Grammar) (e : Expr) :
    Alike g (.repeated e .oneToMany) (.sequence [e, .repeated e .zeroToMany]) := by
  intro n c o
  rw [settles_plus_iff, settles_sequence_iff, settlesEach_cons_iff]
  simp only [settlesEach_singleton_iff]
  constructor
  · rintro (⟨offset, hfails, rfl⟩ | ⟨hidle, rfl⟩ | ⟨stop, hstop, _, hmore⟩)
    · exact Or.inr ⟨offset, hfails, rfl⟩
    · exact Or.inl ⟨c, hidle, (settles_star_of_rests (Or.inr hidle)).mpr rfl⟩
    · exact Or.inl ⟨stop, hstop, hmore⟩
  · rintro (⟨stop, hstop, hmore⟩ | ⟨offset, hfails, rfl⟩)
    · by_cases hshorter : stop.rest.length < c.rest.length
      · exact Or.inr (Or.inr ⟨stop, hstop, hshorter, hmore⟩)
      · obtain rfl := hstop.eq_of_not_shorter hshorter
        exact Or.inr (Or.inl ⟨hstop, (settles_star_of_rests (Or.inr hstop)).mp hmore⟩)
    · exact Or.inl ⟨offset, hfails, rfl⟩

theorem alike_optional_plus (g : Grammar) (e : Expr) :
    Alike g (.repeated (.repeated e .oneToMany) .zeroToOne) (.repeated e .zeroToMany) := by
  intro n c o
  rw [settles_optional_iff, settles_star_iff]
  simp only [settles_plus_iff]
  constructor
  · rintro (⟨_, ⟨offset, hfails, _⟩ | ⟨_, ⟨⟩⟩ | ⟨_, _, _, hmore⟩, rfl⟩ |
      ⟨stop, ⟨_, _, ⟨⟩⟩ | ⟨hidle, ⟨⟩⟩ | hmore, rfl⟩)
    · exact Or.inl ⟨Or.inl ⟨offset, hfails⟩, rfl⟩
    · exact absurd hmore (unfailing_star g e n _ _)
    · exact Or.inl ⟨Or.inr hidle, rfl⟩
    · exact Or.inr hmore
  · rintro (⟨⟨offset, hfails⟩ | hidle, rfl⟩ | ⟨mid, hmid, hshorter, hmore⟩)
    · exact Or.inl ⟨offset, Or.inl ⟨offset, hfails, rfl⟩, rfl⟩
    · exact Or.inr ⟨c, Or.inr (Or.inl ⟨hidle, rfl⟩), rfl⟩
    · obtain ⟨stop, rfl, _⟩ := exists_rests_of_star hmore
      exact Or.inr ⟨stop, Or.inr (Or.inr ⟨mid, hmid, hshorter, hmore⟩), rfl⟩

/-- `e?` rests where `e` does, and otherwise matches what `e` matches, so the rounds of both
repetitions are the same. -/
theorem alike_star_optional (g : Grammar) (e : Expr) :
    Alike g (.repeated (.repeated e .zeroToOne) .zeroToMany) (.repeated e .zeroToMany) := by
  intro n c o
  have hrests : ∀ c, Rests g n (.repeated e .zeroToOne) c ↔ Rests g n e c := by
    intro c
    simp only [Rests, unfailing_optional g e n c, exists_false, false_or, settles_optional_iff]
    constructor
    · rintro (⟨offset, hfails, _⟩ | ⟨_, hidle, ⟨⟩⟩)
      · exact Or.inl ⟨offset, hfails⟩
      · exact Or.inr hidle
    · rintro (⟨offset, hfails⟩ | hidle)
      · exact Or.inl ⟨offset, hfails, trivial⟩
      · exact Or.inr ⟨c, hidle, rfl⟩
  induction hlength : c.rest.length using Nat.strongRecOn generalizing c with
  | ind length ih =>
    subst hlength
    rw [settles_star_iff, settles_star_iff, hrests]
    refine or_congr_right (exists_congr fun stop => ?_)
    constructor
    · rintro ⟨hstop, hshorter, hmore⟩
      rcases settles_optional_iff.mp hstop with ⟨_, _, ⟨⟩⟩ | ⟨_, hstop, ⟨⟩⟩
      · exact absurd hshorter (Nat.lt_irrefl _)
      · exact ⟨hstop, hshorter, (ih _ hshorter stop rfl).mp hmore⟩
    · rintro ⟨hstop, hshorter, hmore⟩
      exact ⟨settles_optional_iff.mpr (Or.inr ⟨stop, hstop, rfl⟩), hshorter,
        (ih _ hshorter stop rfl).mpr hmore⟩

end Engine

/-- The bounds of a repetition with the bounds `outer` whose operand is a repetition with the bounds
`inner`. -/
def Bounds.compose (inner outer : Bounds) : Bounds :=
  match inner, outer with
  | .zeroToOne, .zeroToOne => .zeroToOne
  | .oneToMany, .oneToMany => .oneToMany
  | _, _ => .zeroToMany

namespace Engine

/-- **A repetition of a repetition is a repetition.** -/
theorem alike_repeated_repeated (g : Grammar) (e : Expr) (inner outer : Bounds) :
    Alike g (.repeated (.repeated e inner) outer) (.repeated e (inner.compose outer)) := by
  cases inner with
  | zeroToOne =>
    have hunfailing := unfailing_optional g e
    cases outer with
    | zeroToOne => exact hunfailing.alike_optional
    | zeroToMany => exact alike_star_optional g e
    | oneToMany => exact hunfailing.alike_plus.trans (alike_star_optional g e)
  | zeroToMany =>
    have hunfailing := unfailing_star g e
    have hexhausting := exhausting_star g e
    cases outer with
    | zeroToOne => exact hunfailing.alike_optional
    | zeroToMany => exact hexhausting.alike_star.trans hunfailing.alike_optional
    | oneToMany => exact hexhausting.alike_plus
  | oneToMany =>
    have hexhausting := exhausting_plus g e
    cases outer with
    | zeroToOne => exact alike_optional_plus g e
    | zeroToMany => exact hexhausting.alike_star.trans (alike_optional_plus g e)
    | oneToMany => exact hexhausting.alike_plus

end Engine

end PegGrammar
