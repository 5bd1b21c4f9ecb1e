import PegGrammar.Fault

/-!
# Statistics of a match

Counters of what a match did, including what it threw away. A single match never comes near the
64 bits that a counter has; adding up the statistics of many may, and that is a fault.
-/

namespace PegGrammar

/-- What a match did. -/
structure Stats where
  /-- Nodes made, also for alternatives given up later. -/
  nodesCreated : Nat := 0
  /-- Alternatives given up for a next one. -/
  backtracks : Nat := 0
  /-- Rules tried. -/
  ruleAttempts : Nat := 0
  /-- The greatest number of rules open at once. -/
  maxDepth : Nat := 0
  deriving DecidableEq, Repr

namespace Stats

/-- One more node. -/
def addNode (s : Stats) : Stats := { s with nodesCreated := s.nodesCreated + 1 }

/-- One more alternative given up. -/
def addBacktrack (s : Stats) : Stats := { s with backtracks := s.backtracks + 1 }

/-- One more rule tried, with `depth` rules open. -/
def addAttempt (depth : Nat) (s : Stats) : Stats :=
  { s with ruleAttempts := s.ruleAttempts + 1, maxDepth := max s.maxDepth depth }

/-- The sum of two counters, if 64 bits hold it. -/
def addCounters? (a b : Nat) : Option Nat := if a + b < UInt64.size then some (a + b) else none

/-- Add the statistics of another match: counters are added, one after the other, and the greater
depth is kept. A counter that overflows is a fault, which leaves it and those after it as they
were. -/
def merge (s other : Stats) : Except Fault Unit × Stats :=
  match addCounters? s.nodesCreated other.nodesCreated with
  | none => (.error .counterOverflow, s)
  | some nodesCreated =>
    match addCounters? s.backtracks other.backtracks with
    | none => (.error .counterOverflow, { s with nodesCreated })
    | some backtracks =>
      match addCounters? s.ruleAttempts other.ruleAttempts with
      | none => (.error .counterOverflow, { s with nodesCreated, backtracks })
      | some ruleAttempts =>
        (.ok (), ⟨nodesCreated, backtracks, ruleAttempts, max s.maxDepth other.maxDepth⟩)

end Stats

end PegGrammar
