import PegGrammar.Proofs.Position
import PegGrammar.Proofs.Runs

/-!
# Where a match can get to

Matching only moves forward, by whole characters. Every cursor that a match stops at, gets stuck
at or tries something at is reached from the cursor it began with.

Failures carry an offset and no cursor, and the offset of a failed choice is the greatest of
several, so what has to be carried through the alternatives is that each offset *is* that of some
cursor in reach. `Outcome.InReach` says it for both kinds of outcome at once.

## Main results

* `Runs.inReach` — the outcome of a match is in reach
* `Runs.soundSteps` — every attempt on record was made in reach, and has the outcome noted for it
-/

namespace PegGrammar

/-- An offset that some cursor in reach of `c` has. -/
def Cursor.ReachesOffset (c : Cursor) (offset : Nat) : Prop := ∃ d, c.Reaches d ∧ d.offset = offset

theorem Cursor.reachesOffset_self (c : Cursor) : c.ReachesOffset c.offset := ⟨c, .refl c, rfl⟩

/-- The greater of two offsets in reach is one of them. This is all that the rightmost failure of a
choice needs. -/
theorem Cursor.ReachesOffset.max {c : Cursor} {i j : Nat} (hi : c.ReachesOffset i)
    (hj : c.ReachesOffset j) : c.ReachesOffset (max i j) := by
  rcases Nat.le_total i j with h | h
  · rwa [Nat.max_eq_right h]
  · rwa [Nat.max_eq_left h]

/-- What is in reach from further on is in reach. -/
theorem Cursor.Reaches.reachesOffset {c d : Cursor} {i : Nat} (h : c.Reaches d)
    (hi : d.ReachesOffset i) : c.ReachesOffset i := by
  obtain ⟨e, he, rfl⟩ := hi
  exact ⟨e, h.trans he, rfl⟩

namespace Outcome

variable {α β : Type} {c d : Cursor}

/-- An outcome in reach of `c`: a match stops at a cursor in reach, and a failure got stuck at the
offset of one. -/
def InReach (c : Cursor) : Outcome α → Prop
  | .matched _ stop => c.Reaches stop
  | .failed offset => c.ReachesOffset offset

/-- An outcome in reach from further on is in reach from here, so that the parts of a sequence can
be taken one after the other. -/
theorem InReach.of_reaches (hcd : c.Reaches d) {o : Outcome α} (h : o.InReach d) :
    o.InReach c := by
  cases o with
  | matched value stop => exact hcd.trans h
  | failed offset => exact hcd.reachesOffset h

theorem InReach.map {o : Outcome α} (h : o.InReach c) (f : α → β) : (o.map f).InReach c := by
  cases o <;> exact h

theorem InReach.enclose {o : Outcome (List (Node Unit))} (h : o.InReach c) (label : Label)
    (start : Cursor) : (o.enclose label start).InReach c := by
  cases o <;> exact h

end Outcome

namespace Engine

variable {g : Grammar}

/-! ### Outcomes -/

mutual

/-- **A match stays in reach.** By induction on the course: terminals move forward by whole
characters, and everything else is put together from matches of its parts. -/
theorem Runs.inReach {n : Nat} {e : Expr} {c : Cursor} {steps : List Step}
    {o : Outcome (Node Unit)} : Runs g n e c steps o → o.InReach c
  | .accepted h ho => ho ▸ Terminal.reaches_of_accept? h
  | .rejected _ => Cursor.reachesOffset_self _
  | .sequence h ho => ho ▸ h.inReach.enclose _ _
  | .choice h ho => ho ▸ ((h.inReach (Cursor.reachesOffset_self _)).map _).enclose _ _
  | .repeated h ho => ho ▸ h.inReach.enclose _ _
  | .rule _ h ho => ho ▸ ((h.inReach (Cursor.reachesOffset_self _)).map _).enclose _ _

theorem RunsEach.inReach {n : Nat} {es : List Expr} {c : Cursor} {steps : List Step}
    {o : Outcome (List (Node Unit))} : RunsEach g n es c steps o → o.InReach c
  | .nil => .refl _
  | .cons h hs => (hs.inReach.of_reaches h.inReach).map _
  | .stuck h => h.inReach

/-- The failure of a choice is in reach if the offset that it starts from is, because every
alternative is tried at the same cursor. -/
theorem RunsFirst.inReach {n : Nat} {es : List Expr} {c : Cursor} {furthest : Nat}
    {steps : List Step} {o : Outcome (Node Unit)} :
    RunsFirst g n es c furthest steps o → c.ReachesOffset furthest → o.InReach c
  | .nil, hf => hf
  | .hit h, _ => h.inReach
  | .miss h hs, hf => hs.inReach (hf.max h.inReach)

theorem RunsMany.inReach {n : Nat} {e : Expr} {bounds : Bounds} {count : Nat} {c : Cursor}
    {steps : List Step} {o : Outcome (List (Node Unit))} :
    RunsMany g n e bounds count c steps o → o.InReach c
  | .full _ => .refl _
  | .enough _ _ _ => .refl _
  | .tooFew _ h _ => h.inReach
  | .idle _ h _ => h.inReach
  | .again _ h _ hm => (hm.inReach.of_reaches h.inReach).map _

end

/-! ### Attempts on record -/

/-- What the entries of a record may say, for a match that began at `c`: an attempt is made at a
cursor in reach and has an outcome, and the outcome noted for it is one that it really has. -/
def Step.Sound (g : Grammar) (c : Cursor) : Step → Prop
  | .tried e d => c.Reaches d ∧ ∃ n steps o, Runs g n e d steps o
  | .settled e d o => c.Reaches d ∧ ∃ n steps, Runs g n e d steps o
  | .told _ | .made => True

/-- A record whose entries are all sound. -/
def SoundSteps (g : Grammar) (c : Cursor) (steps : List Step) : Prop := ∀ s ∈ steps, s.Sound g c

namespace SoundSteps

variable {c d : Cursor} {steps more : List Step}

theorem nil : SoundSteps g c [] := fun _ h => absurd h List.not_mem_nil

/-- Records are put together by appending, and soundness is a condition on each entry. -/
theorem append (h : SoundSteps g c steps) (h' : SoundSteps g c more) :
    SoundSteps g c (steps ++ more) :=
  List.forall_mem_append.mpr ⟨h, h'⟩

/-- What is recorded further on in the text is in reach from here as well. -/
theorem of_reaches (hcd : c.Reaches d) (h : SoundSteps g d steps) : SoundSteps g c steps := by
  intro s hs
  have hd := h s hs
  cases s with
  | tried e d' => exact ⟨hcd.trans hd.1, hd.2⟩
  | settled e d' o => exact ⟨hcd.trans hd.1, hd.2⟩
  | told event => trivial
  | made => trivial

theorem nodeSteps {α : Type} (o : Outcome α) : SoundSteps g c (nodeSteps o) := by
  cases o with
  | matched value stop => exact List.forall_mem_singleton.mpr trivial
  | failed offset => exact nil

theorem giveUpSteps (rest : List Expr) (failure restart : Nat) :
    SoundSteps g c (giveUpSteps rest failure restart) := by
  cases rest with
  | nil => exact nil
  | cons e es => exact List.forall_mem_singleton.mpr trivial

theorem ruleSteps {α : Type} (name : String) (h : SoundSteps g c steps) (o : Outcome α) :
    SoundSteps g c (ruleSteps name c steps o) :=
  append (List.forall_mem_cons.mpr ⟨trivial, h⟩) (List.forall_mem_cons.mpr ⟨trivial, nodeSteps o⟩)

/-- The two entries around an attempt are sound because the attempt itself has a course. So no lemma
about the form of an expression has to speak of them. -/
theorem framed {n : Nat} {e : Expr} {o : Outcome (Node Unit)}
    (hrun : Runs g n e c (framed e c steps o) o) (h : SoundSteps g c steps) :
    SoundSteps g c (framed e c steps o) :=
  append (List.forall_mem_cons.mpr ⟨⟨.refl c, n, _, _, hrun⟩, h⟩)
    (List.forall_mem_singleton.mpr ⟨.refl c, n, _, hrun⟩)

end SoundSteps

mutual

/-- **Every attempt on record is real.** It was made in reach of the cursor that the match began
with, and the outcome noted for it is one that it has by itself, whatever was going on around it. -/
theorem Runs.soundSteps {n : Nat} {e : Expr} {c : Cursor} {steps : List Step}
    {o : Outcome (Node Unit)} : Runs g n e c steps o → SoundSteps g c steps
  | h@(.accepted _ _) => .framed h (List.forall_mem_singleton.mpr trivial)
  | h@(.rejected _) => .framed h .nil
  | h@(.sequence hs _) => .framed h (hs.soundSteps.append (.nodeSteps _))
  | h@(.choice hs _) => .framed h (hs.soundSteps.append (.nodeSteps _))
  | h@(.repeated hs _) => .framed h (hs.soundSteps.append (.nodeSteps _))
  | h@(.rule _ hs _) => .framed h (.ruleSteps _ hs.soundSteps _)

theorem RunsEach.soundSteps {n : Nat} {es : List Expr} {c : Cursor} {steps : List Step}
    {o : Outcome (List (Node Unit))} : RunsEach g n es c steps o → SoundSteps g c steps
  | .nil => .nil
  | .cons h hs => h.soundSteps.append (.of_reaches h.inReach hs.soundSteps)
  | .stuck h => h.soundSteps

theorem RunsFirst.soundSteps {n : Nat} {es : List Expr} {c : Cursor} {furthest : Nat}
    {steps : List Step} {o : Outcome (Node Unit)} :
    RunsFirst g n es c furthest steps o → SoundSteps g c steps
  | .nil => .nil
  | .hit h => h.soundSteps
  | .miss h hs => (h.soundSteps.append (.giveUpSteps _ _ _)).append hs.soundSteps

theorem RunsMany.soundSteps {n : Nat} {e : Expr} {bounds : Bounds} {count : Nat} {c : Cursor}
    {steps : List Step} {o : Outcome (List (Node Unit))} :
    RunsMany g n e bounds count c steps o → SoundSteps g c steps
  | .full _ => .nil
  | .enough _ h _ => h.soundSteps
  | .tooFew _ h _ => h.soundSteps
  | .idle _ h _ => h.soundSteps
  | .again _ h _ hm => h.soundSteps.append (.of_reaches h.inReach hm.soundSteps)

end

end Engine

end PegGrammar
