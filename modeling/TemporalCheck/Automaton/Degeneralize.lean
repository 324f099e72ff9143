import TemporalCheck.Automaton.Builder

/-!
# One final set instead of many

With `k` final sets every state is copied into `k` rounds. A step that leaves a
state of the set with the number of the round goes on to the next round, so the
first round comes back for ever exactly when every set does.
-/

namespace TemporalCheck.Automaton

variable {σ δ : Type} [Ord σ] [Std.TransOrd σ] [Std.LawfulEqOrd σ] [DecidableEq σ]

def copyLabel (label : String) (round : Nat) : String :=
  "(" ++ label ++ ", " ++ toString round ++ ")"

def copyState (round : Nat) (s : State δ) : State δ :=
  ⟨copyLabel s.label round, round == 0 && s.initial, s.data⟩

def nextRound (sets : List (OrdSet String)) (source : String) (round : Nat) : Nat :=
  if sets[round]?.any fun s => s.contains source then (round + 1) % sets.length else round

/-- A single final set counts as a family of one. Without any set there is one round and
no final state. -/
def degeneralize (A : Automaton σ δ) : Except AutomatonError (Automaton σ δ) := do
  let sets := A.finalSets
  let rounds := List.range (max sets.length 1)
  let b := Builder.buchi.addStates (rounds.flatMap fun r => A.states.values.map (copyState r))
  let b ← match sets.head? with
    | some first => b.addFinals (.ofList (first.toList.map fun label => copyLabel label 0))
    | none => .ok b
  let b ← rounds.foldlM (fun b r => A.transitions.foldlM (fun b t =>
    b.addTransition (copyLabel t.1 r) (copyLabel t.2.1 (nextRound sets t.1 r)) t.2.2) b) b
  return b.build

def generalize (A : Automaton σ δ) : Except AutomatonError (Automaton σ δ) := do
  let b := Builder.generalized.addStates A.states.values
  let b ← A.transitions.foldlM (fun b t => b.addTransition t.1 t.2.1 t.2.2) b
  let b ← A.finalSets.foldlM Builder.addFinals b
  return b.build

end TemporalCheck.Automaton
