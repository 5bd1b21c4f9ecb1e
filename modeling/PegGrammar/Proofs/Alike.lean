import PegGrammar.Proofs.EngineRuns
import PegGrammar.Proofs.Reach

/-!
# Expressions that match alike

Two expressions match alike if, wherever they are tried, both match up to the same cursor, or both
get stuck at the same offset, or both go on for ever. The nodes they yield and what an observer is
told may differ: a sequence within a sequence yields a node more than its elements would without
it.

## The depth

Everything is stated at one depth of nested calls at a time, and no lemma changes the depth. So two
expressions that match alike also run out of any bound on the depth together, and "go on for ever"
is nothing special: it is having no outcome at any depth.

## Main definitions

* `Settles`, `SettlesEach`, `SettlesFirst`, `SettlesMany` — outcomes without what is yielded
* `Alike`, `AlikeEach` — the same outcomes
* `AttemptAlike` — the same for the engine

## Main results

* `AlikeEach.append`, `Alike.choice`, `Alike.repeated` — parts that match alike may be exchanged
* `alikeEach_sequence`, `alike_choice_singleton` — sequences in sequences and choices of one
* `Alike.attemptAlike` — what matches alike is matched alike
-/

namespace PegGrammar

/-! ### Forgetting what is yielded -/

namespace Outcome

variable {α β : Type}

/-- The outcome without what the match yields. -/
def forget (o : Outcome α) : Outcome Unit := o.map fun _ => ()

@[simp] theorem forget_matched (value : α) (stop : Cursor) :
    (matched value stop).forget = matched () stop := rfl

@[simp] theorem forget_failed (offset : Nat) :
    (failed offset : Outcome α).forget = failed offset := rfl

@[simp] theorem forget_map (f : α → β) (o : Outcome α) : (o.map f).forget = o.forget := by
  cases o <;> rfl

@[simp] theorem forget_enclose (label : Label) (c : Cursor) (o : Outcome (List (Node Unit))) :
    (o.enclose label c).forget = o.forget := by
  cases o <;> rfl

theorem forget_eq_matched_iff {o : Outcome α} {stop : Cursor} :
    o.forget = .matched () stop ↔ ∃ value, o = .matched value stop := by
  cases o <;> simp

theorem forget_eq_failed_iff {o : Outcome α} {offset : Nat} :
    o.forget = .failed offset ↔ o = .failed offset := by
  cases o <;> simp

end Outcome

namespace Engine

variable {g : Grammar} {n : Nat} {e e' : Expr} {es es' fs fs' : List Expr} {bounds : Bounds}
  {count : Nat} {c : Cursor} {furthest : Nat} {o : Outcome Unit}

/-! ### Outcomes -/

/-- Matching the expression has this outcome. -/
def Settles (g : Grammar) (n : Nat) (e : Expr) (c : Cursor) (o : Outcome Unit) : Prop :=
  ∃ steps result, Runs g n e c steps result ∧ result.forget = o

/-- Matching the expressions one after the other has this outcome. -/
def SettlesEach (g : Grammar) (n : Nat) (es : List Expr) (c : Cursor) (o : Outcome Unit) : Prop :=
  ∃ steps result, RunsEach g n es c steps result ∧ result.forget = o

/-- Matching the first of the expressions that matches has this outcome. -/
def SettlesFirst (g : Grammar) (n : Nat) (es : List Expr) (c : Cursor) (furthest : Nat)
    (o : Outcome Unit) : Prop :=
  ∃ steps result, RunsFirst g n es c furthest steps result ∧ result.forget = o

/-- Matching the expression again and again has this outcome. -/
def SettlesMany (g : Grammar) (n : Nat) (e : Expr) (bounds : Bounds) (count : Nat) (c : Cursor)
    (o : Outcome Unit) : Prop :=
  ∃ steps result, RunsMany g n e bounds count c steps result ∧ result.forget = o

/-- A match is settled by a course that yields some node; which one it is has been forgotten, and
that is all that two expressions of different form need not agree on. -/
theorem settles_matched_iff {stop : Cursor} :
    Settles g n e c (.matched () stop) ↔ ∃ steps node, Runs g n e c steps (.matched node stop) := by
  simp only [Settles, Outcome.forget_eq_matched_iff]
  constructor
  · rintro ⟨steps, _, h, node, rfl⟩
    exact ⟨steps, node, h⟩
  · rintro ⟨steps, node, h⟩
    exact ⟨steps, _, h, node, rfl⟩

theorem settles_failed_iff {offset : Nat} :
    Settles g n e c (.failed offset) ↔ ∃ steps, Runs g n e c steps (.failed offset) := by
  simp only [Settles, Outcome.forget_eq_failed_iff]
  constructor
  · rintro ⟨steps, _, h, rfl⟩
    exact ⟨steps, h⟩
  · rintro ⟨steps, h⟩
    exact ⟨steps, _, h, rfl⟩

/-- The first of six inversion lemmas, one for each form. Enclosing the parts in a branch leaves
their cursor and their failure as they are, so a sequence settles as its parts do. -/
theorem settles_sequence_iff : Settles g n (.sequence es) c o ↔ SettlesEach g n es c o := by
  constructor
  · rintro ⟨steps, _, h, rfl⟩
    obtain ⟨body, parts, hparts, rfl, -⟩ := runs_sequence_iff.mp h
    exact ⟨body, parts, hparts, by simp⟩
  · rintro ⟨body, parts, h, rfl⟩
    exact ⟨_, _, .sequence h rfl, by simp⟩

/-- A choice settles as its alternatives do, with the place where it is tried as the first candidate
for its failure. -/
theorem settles_choice_iff :
    Settles g n (.choice es) c o ↔ SettlesFirst g n es c c.offset o := by
  constructor
  · rintro ⟨steps, _, h, rfl⟩
    obtain ⟨body, part, hpart, rfl, -⟩ := runs_choice_iff.mp h
    exact ⟨body, part, hpart, by simp⟩
  · rintro ⟨body, part, h, rfl⟩
    exact ⟨_, _, .choice h rfl, by simp⟩

theorem settles_repeated_iff :
    Settles g n (.repeated e bounds) c o ↔ SettlesMany g n e bounds 0 c o := by
  constructor
  · rintro ⟨steps, _, h, rfl⟩
    obtain ⟨body, parts, hparts, rfl, -⟩ := runs_repeated_iff.mp h
    exact ⟨body, parts, hparts, by simp⟩
  · rintro ⟨body, parts, h, rfl⟩
    exact ⟨_, _, .repeated h rfl, by simp⟩

theorem settlesEach_nil_iff : SettlesEach g n [] c o ↔ o = .matched () c := by
  simp only [SettlesEach, runsEach_nil_iff]
  constructor
  · rintro ⟨_, _, ⟨rfl, rfl⟩, rfl⟩
    rfl
  · rintro rfl
    exact ⟨_, _, ⟨rfl, rfl⟩, rfl⟩

/-- The parts of a sequence in front of one another: the first has to match, and the others go on
from where it stopped. -/
theorem settlesEach_cons_iff :
    SettlesEach g n (e :: es) c o ↔
      (∃ stop, Settles g n e c (.matched () stop) ∧ SettlesEach g n es stop o) ∨
        ∃ offset, Settles g n e c (.failed offset) ∧ o = .failed offset := by
  simp only [settles_matched_iff, settles_failed_iff]
  constructor
  · rintro ⟨steps, result, h, rfl⟩
    rcases runsEach_cons_iff.mp h with
      ⟨first, node, stop, more, others, hfirst, hothers, -, rfl⟩ | ⟨offset, hfirst, rfl⟩
    · exact Or.inl ⟨stop, ⟨first, node, hfirst⟩, more, others, hothers, by simp⟩
    · exact Or.inr ⟨offset, ⟨steps, hfirst⟩, rfl⟩
  · rintro (⟨stop, ⟨first, node, hfirst⟩, more, others, hothers, rfl⟩ |
      ⟨offset, ⟨first, hfirst⟩, rfl⟩)
    · exact ⟨_, _, .cons hfirst hothers, by simp⟩
    · exact ⟨_, _, .stuck hfirst, rfl⟩

theorem settlesFirst_nil_iff : SettlesFirst g n [] c furthest o ↔ o = .failed furthest := by
  simp only [SettlesFirst, runsFirst_nil_iff]
  constructor
  · rintro ⟨_, _, ⟨rfl, rfl⟩, rfl⟩
    rfl
  · rintro rfl
    exact ⟨_, _, ⟨rfl, rfl⟩, rfl⟩

/-- The first alternative decides if it matches. Otherwise all that it leaves behind is the offset
at which it got stuck. -/
theorem settlesFirst_cons_iff :
    SettlesFirst g n (e :: es) c furthest o ↔
      (∃ stop, Settles g n e c (.matched () stop) ∧ o = .matched () stop) ∨
        ∃ offset, Settles g n e c (.failed offset) ∧
          SettlesFirst g n es c (max furthest offset) o := by
  simp only [settles_matched_iff, settles_failed_iff]
  constructor
  · rintro ⟨steps, result, h, rfl⟩
    rcases runsFirst_cons_iff.mp h with
      ⟨node, stop, hfirst, rfl⟩ | ⟨first, offset, more, hfirst, hothers, -⟩
    · exact Or.inl ⟨stop, ⟨steps, node, hfirst⟩, rfl⟩
    · exact Or.inr ⟨offset, ⟨first, hfirst⟩, more, result, hothers, rfl⟩
  · rintro (⟨stop, ⟨first, node, hfirst⟩, rfl⟩ |
      ⟨offset, ⟨first, hfirst⟩, more, result, hothers, rfl⟩)
    · exact ⟨_, _, .hit hfirst, rfl⟩
    · exact ⟨_, _, .miss hfirst hothers, rfl⟩

theorem settlesMany_full_iff (hb : bounds.allowsMore count = false) :
    SettlesMany g n e bounds count c o ↔ o = .matched () c := by
  simp only [SettlesMany, runsMany_full_iff hb]
  constructor
  · rintro ⟨_, _, ⟨rfl, rfl⟩, rfl⟩
    rfl
  · rintro rfl
    exact ⟨_, _, ⟨rfl, rfl⟩, rfl⟩

/-- The four ways in which a round of a repetition can go. A round that consumes nothing is the last
one, so that the fourth case always has a shorter text. -/
theorem settlesMany_more_iff (hb : bounds.allowsMore count = true) :
    SettlesMany g n e bounds count c o ↔
      (∃ offset, Settles g n e c (.failed offset) ∧
        ((bounds.min ≤ count ∧ o = .matched () c) ∨ (count < bounds.min ∧ o = .failed offset))) ∨
      (∃ stop, Settles g n e c (.matched () stop) ∧ ¬ stop.rest.length < c.rest.length ∧
        o = .matched () stop) ∨
      ∃ stop, Settles g n e c (.matched () stop) ∧ stop.rest.length < c.rest.length ∧
        SettlesMany g n e bounds (count + 1) stop o := by
  simp only [settles_matched_iff, settles_failed_iff]
  constructor
  · rintro ⟨steps, result, h, rfl⟩
    rcases (runsMany_more_iff hb).mp h with ⟨offset, hround, ⟨hc, rfl⟩ | ⟨hc, rfl⟩⟩ |
      ⟨node, stop, hround, hidle, rfl⟩ |
      ⟨round, node, stop, more, others, hround, hshorter, hothers, -, rfl⟩
    · exact Or.inl ⟨offset, ⟨steps, hround⟩, Or.inl ⟨hc, rfl⟩⟩
    · exact Or.inl ⟨offset, ⟨steps, hround⟩, Or.inr ⟨hc, rfl⟩⟩
    · exact Or.inr (Or.inl ⟨stop, ⟨steps, node, hround⟩, hidle, rfl⟩)
    · exact Or.inr (Or.inr ⟨stop, ⟨round, node, hround⟩, hshorter, more, others, hothers,
        by simp⟩)
  · rintro (⟨offset, ⟨round, hround⟩, ⟨hc, rfl⟩ | ⟨hc, rfl⟩⟩ |
      ⟨stop, ⟨round, node, hround⟩, hidle, rfl⟩ |
      ⟨stop, ⟨round, node, hround⟩, hshorter, more, others, hothers, rfl⟩)
    · exact ⟨_, _, .enough hb hround hc, rfl⟩
    · exact ⟨_, _, .tooFew hb hround hc, rfl⟩
    · exact ⟨_, _, .idle hb hround hidle, rfl⟩
    · exact ⟨_, _, .again hb hround hshorter hothers, by simp⟩

/-- A failure is never before the cursor. -/
theorem Settles.offset_le {offset : Nat} (h : Settles g n e c (.failed offset)) :
    c.offset ≤ offset := by
  obtain ⟨steps, hrun⟩ := settles_failed_iff.mp h
  obtain ⟨d, hd, rfl⟩ := hrun.inReach
  exact hd.offset_le

/-! ### The same outcomes -/

/-- The expressions have the same outcomes. -/
def Alike (g : Grammar) (p q : Expr) : Prop := ∀ n c o, Settles g n p c o ↔ Settles g n q c o

/-- The expressions, matched one after the other, have the same outcomes. -/
def AlikeEach (g : Grammar) (ps qs : List Expr) : Prop :=
  ∀ n c o, SettlesEach g n ps c o ↔ SettlesEach g n qs c o

@[refl] theorem Alike.refl (e : Expr) : Alike g e e := fun _ _ _ => Iff.rfl

/-- Likeness is an equivalence, so that rewriting an expression can be undone as far as matching
goes. -/
@[symm] theorem Alike.symm (h : Alike g e e') : Alike g e' e := fun n c o => (h n c o).symm

theorem Alike.trans {e'' : Expr} (h : Alike g e e') (h' : Alike g e' e'') : Alike g e e'' :=
  fun n c o => (h n c o).trans (h' n c o)

theorem AlikeEach.symm (h : AlikeEach g es fs) : AlikeEach g fs es := fun n c o => (h n c o).symm

theorem AlikeEach.trans {es'' : List Expr} (h : AlikeEach g es fs) (h' : AlikeEach g fs es'') :
    AlikeEach g es es'' :=
  fun n c o => (h n c o).trans (h' n c o)

/-! ### Sequences -/

theorem settlesEach_singleton_iff : SettlesEach g n [e] c o ↔ Settles g n e c o := by
  simp only [settlesEach_cons_iff, settlesEach_nil_iff]
  constructor
  · rintro (⟨stop, h, rfl⟩ | ⟨offset, h, rfl⟩) <;> exact h
  · intro h
    cases o with
    | matched value stop => exact Or.inl ⟨stop, h, rfl⟩
    | failed offset => exact Or.inr ⟨offset, h, rfl⟩

/-- A sequence can be cut anywhere. This is what lets the elements of a nested sequence be spliced
into the outer one. -/
theorem settlesEach_append_iff :
    SettlesEach g n (es ++ fs) c o ↔
      (∃ stop, SettlesEach g n es c (.matched () stop) ∧ SettlesEach g n fs stop o) ∨
        ∃ offset, SettlesEach g n es c (.failed offset) ∧ o = .failed offset := by
  induction es generalizing c with
  | nil => simp [settlesEach_nil_iff]
  | cons e es ih =>
    simp only [List.cons_append, settlesEach_cons_iff, ih]
    constructor
    · rintro (⟨mid, he, ⟨stop, hes, hfs⟩ | ⟨offset, hes, rfl⟩⟩ | ⟨offset, he, rfl⟩)
      · exact Or.inl ⟨stop, Or.inl ⟨mid, he, hes⟩, hfs⟩
      · exact Or.inr ⟨offset, Or.inl ⟨mid, he, hes⟩, rfl⟩
      · exact Or.inr ⟨offset, Or.inr ⟨offset, he, rfl⟩, rfl⟩
    · rintro (⟨stop, ⟨mid, he, hes⟩ | ⟨_, _, hstop⟩, hfs⟩ |
        ⟨offset, ⟨mid, he, hes⟩ | ⟨offset', he, hoffset⟩, rfl⟩)
      · exact Or.inl ⟨mid, he, Or.inl ⟨stop, hes, hfs⟩⟩
      · cases hstop
      · exact Or.inl ⟨mid, he, Or.inr ⟨offset, hes, rfl⟩⟩
      · cases hoffset
        exact Or.inr ⟨offset, he, rfl⟩

/-- Lists of expressions that match alike can be joined on both sides, which is how a change in the
middle of a sequence is carried to the whole of it. -/
theorem AlikeEach.append (h : AlikeEach g es es') (h' : AlikeEach g fs fs') :
    AlikeEach g (es ++ fs) (es' ++ fs') := by
  intro n c o
  simp only [settlesEach_append_iff, h n _ _, h' n _ _]

/-- Elements of a sequence may as well stand in the sequence around it. -/
theorem alikeEach_sequence (g : Grammar) (es : List Expr) : AlikeEach g [.sequence es] es := by
  intro n c o
  rw [settlesEach_singleton_iff, settles_sequence_iff]

theorem alikeEach_singleton_iff : AlikeEach g [e] [e'] ↔ Alike g e e' := by
  simp only [AlikeEach, settlesEach_singleton_iff]
  rfl

/-- An expression matches like a sequence if, as a list of one, it matches like the elements of that
sequence. -/
theorem alike_sequence_iff : Alike g e (.sequence es) ↔ AlikeEach g [e] es := by
  simp only [AlikeEach, settlesEach_singleton_iff, Alike, settles_sequence_iff]

/-! ### Choices -/

theorem settlesFirst_congr (h : List.Forall₂ (Alike g) es fs) :
    SettlesFirst g n es c furthest o ↔ SettlesFirst g n fs c furthest o := by
  induction h generalizing furthest with
  | nil => rfl
  | cons he _ ih => simp only [settlesFirst_cons_iff, he n c _, ih]

/-- Alternatives can be replaced one by one. The offset of the failure is the same because it is the
greatest of offsets that are the same. -/
theorem Alike.choice (h : List.Forall₂ (Alike g) es fs) : Alike g (.choice es) (.choice fs) := by
  intro n c o
  rw [settles_choice_iff, settles_choice_iff, settlesFirst_congr h]

/-- A choice of one alternative does what the alternative does. It fails no further to the left,
since a failure is never before the cursor. -/
theorem alike_choice_singleton (g : Grammar) (e : Expr) : Alike g (.choice [e]) e := by
  intro n c o
  simp only [settles_choice_iff, settlesFirst_cons_iff, settlesFirst_nil_iff]
  constructor
  · rintro (⟨stop, h, rfl⟩ | ⟨offset, h, rfl⟩)
    · exact h
    · rwa [Nat.max_eq_right h.offset_le]
  · intro h
    cases o with
    | matched value stop => exact Or.inl ⟨stop, h, rfl⟩
    | failed offset => exact Or.inr ⟨offset, h, by rw [Nat.max_eq_right h.offset_le]⟩

/-! ### Repetitions -/

/-- Rounds of operands that match alike. Each round but the last shortens the text, which is what
the induction is on. -/
theorem settlesMany_congr (he : Alike g e e') :
    SettlesMany g n e bounds count c o ↔ SettlesMany g n e' bounds count c o := by
  induction hlength : c.rest.length using Nat.strongRecOn generalizing c count with
  | ind length ih =>
    subst hlength
    cases hb : bounds.allowsMore count with
    | false => simp only [settlesMany_full_iff hb]
    | true =>
      simp only [settlesMany_more_iff hb, he n c _]
      -- Only the last of the three cases has further rounds, and it comes with its shorter text.
      refine or_congr_right (or_congr_right (exists_congr fun stop => ?_))
      exact and_congr_right fun _ => and_congr_right fun hshorter => ih _ hshorter rfl

/-- The operand of a repetition can be replaced, whatever the bounds. -/
theorem Alike.repeated (h : Alike g e e') (bounds : Bounds) :
    Alike g (.repeated e bounds) (.repeated e' bounds) := by
  intro n c o
  rw [settles_repeated_iff, settles_repeated_iff, settlesMany_congr h]

/-! ### The engine -/

/-- Attempts of both expressions at the cursor come to the same, whoever watches, however deep calls
may nest and in whatever mode: both match up to the same cursor, both get stuck at the same offset,
or neither returns. -/
def AttemptAlike (g : Grammar) (p q : Expr) (c : Cursor) : Prop :=
  ∀ (σ : Type) (w : Watch σ) (limit : Nat) (mode : MatchMode) (m : Monitor σ),
    (∃ stop node node' m₁ m₂,
      (attempt w (callRule g w limit) p c mode).run m = .ok (.matched node stop, m₁) ∧
      (attempt w (callRule g w limit) q c mode).run m = .ok (.matched node' stop, m₂)) ∨
    (∃ offset m₁ m₂,
      (attempt w (callRule g w limit) p c mode).run m = .ok (.failed offset, m₁) ∧
      (attempt w (callRule g w limit) q c mode).run m = .ok (.failed offset, m₂)) ∨
    ((attempt w (callRule g w limit) p c mode).run m = .error .leftRecursion ∧
      (attempt w (callRule g w limit) q c mode).run m = .error .leftRecursion)

/-- In particular both end at the same offset, if they end. -/
theorem AttemptAlike.end?_eq {p q : Expr} (h : AttemptAlike g p q c) {σ : Type} (w : Watch σ)
    (limit : Nat) (mode : MatchMode) (m : Monitor σ) :
    ((attempt w (callRule g w limit) p c mode).run m).map (·.1.end?)
      = ((attempt w (callRule g w limit) q c mode).run m).map (·.1.end?) := by
  rcases h σ w limit mode m with ⟨stop, node, node', m₁, m₂, hp, hq⟩ |
    ⟨offset, m₁, m₂, hp, hq⟩ | ⟨hp, hq⟩
  · rw [hp, hq]
    rfl
  · rw [hp, hq]
    rfl
  · rw [hp, hq]

/-- The engine returns an outcome of the expression, or there is none at this depth. -/
theorem attempt_run_cases {σ : Type} (he : ∀ id ∈ e.refs, g.Declares id) (w : Watch σ)
    (limit : Nat) (c : Cursor) (mode : MatchMode) (m : Monitor σ) :
    (∃ result m', (attempt w (callRule g w limit) e c mode).run m = .ok (result, m') ∧
      ∀ o, Settles g limit e c o ↔ result.forget = o) ∨
    ((attempt w (callRule g w limit) e c mode).run m = .error .leftRecursion ∧
      ∀ o, ¬ Settles g limit e c o) := by
  cases computes_attempt e (fun id hid c => computes_callRule w limit (he id hid) c mode) c with
  | returns steps result only run =>
    refine Or.inl ⟨result, _, run m, fun o => ⟨?_, fun h => ?_⟩⟩
    · rintro ⟨steps', result', h, rfl⟩
      rw [((only _ _).mp h).2]
    · exact ⟨steps, result, (only _ _).mpr ⟨rfl, rfl⟩, h⟩
  | diverges none run =>
    refine Or.inr ⟨run m, ?_⟩
    rintro o ⟨steps, result, h, -⟩
    exact none _ _ h

/-- **What matches alike is matched alike.** -/
theorem Alike.attemptAlike {p q : Expr} (h : Alike g p q) (hp : ∀ id ∈ p.refs, g.Declares id)
    (hq : ∀ id ∈ q.refs, g.Declares id) (c : Cursor) : AttemptAlike g p q c := by
  intro σ w limit mode m
  rcases attempt_run_cases hp w limit c mode m with
      ⟨result, m₁, hrun, hresult⟩ | ⟨hrun, hnone⟩ <;>
    rcases attempt_run_cases hq w limit c mode m with
      ⟨result', m₂, hrun', hresult'⟩ | ⟨hrun', hnone'⟩
  · have hforget : result'.forget = result.forget :=
      (hresult' _).mp ((h limit c _).mp ((hresult _).mpr rfl))
    cases result with
    | matched node stop =>
      obtain ⟨node', rfl⟩ := Outcome.forget_eq_matched_iff.mp hforget
      exact Or.inl ⟨stop, node, node', m₁, m₂, hrun, hrun'⟩
    | failed offset =>
      obtain rfl := Outcome.forget_eq_failed_iff.mp hforget
      exact Or.inr (Or.inl ⟨offset, m₁, m₂, hrun, hrun'⟩)
  · exact absurd ((h limit c _).mp ((hresult _).mpr rfl)) (hnone' _)
  · exact absurd ((h limit c _).mpr ((hresult' _).mpr rfl)) (hnone _)
  · exact Or.inr (Or.inr ⟨hrun, hrun'⟩)

end Engine

end PegGrammar
