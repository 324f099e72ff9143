import TemporalCheck.Automaton.Builder
import TemporalCheck.Search

/-!
# Synchronized product

The states are the triples of a left state, a right state and a phase that are
reached from the initial pairs. The phase waits for the left operand to enter a
final state, then for the right one, and starts anew after that; so the last phase
comes back for ever exactly when both operands accept. One state stands in for all
initial pairs.
-/

namespace TemporalCheck

inductive Phase
  | awaitLeft
  | awaitRight
  | both
deriving DecidableEq, Repr

def Phase.number : Phase → Nat
  | .awaitLeft => 0
  | .awaitRight => 1
  | .both => 2

def Phase.next (leftFinal rightFinal : Bool) : Phase → Phase
  | .awaitLeft => if leftFinal then .awaitRight else .awaitLeft
  | .awaitRight => if rightFinal then .both else .awaitRight
  | .both => .awaitLeft

structure Triple where
  left : String
  right : String
  phase : Phase
deriving DecidableEq, Repr

def Triple.text (t : Triple) : String :=
  "(" ++ t.left ++ "," ++ t.right ++ "," ++ toString t.phase.number ++ ")"

namespace Product

def entryLabel : String := "init"

def candidate (base : String) : Nat → String
  | 0 => base
  | n + 1 => base ++ "#" ++ toString (n + 1)

def firstFree (taken : List String) (base : String) : Nat → Nat → String
  | 0, i => candidate base i
  | fuel + 1, i =>
      if candidate base i ∈ taken then firstFree taken base fuel (i + 1) else candidate base i

def freshLabel (taken : List String) (base : String) : String :=
  firstFree taken base taken.length 0

/-- Two triples may have the same text, so each gets the first label that is free. -/
def assignLabels (taken : List String) : List Triple → List (Triple × String)
  | [] => []
  | t :: ts =>
      let label := freshLabel taken t.text
      (t, label) :: assignLabels (label :: taken) ts

def labelOf (labels : List (Triple × String)) (t : Triple) : String :=
  (labels.lookup t).getD t.text

variable {σ α β : Type} [Ord σ] [Std.TransOrd σ] [Std.LawfulEqOrd σ] [DecidableEq σ]

def moves (L : Automaton σ α) (R : Automaton σ β) (leftFinals rightFinals : OrdSet String)
    (t : Triple) : List (Triple × OrdSet σ) :=
  (L.transitionsFrom t.left).flatMap fun l =>
    (R.transitionsFrom t.right).filterMap fun r =>
      let shared := l.2.inter r.2
      if shared.isEmpty then none
      else
        let phase := t.phase.next (leftFinals.contains l.1) (rightFinals.contains r.1)
        some (⟨l.1, r.1, phase⟩, shared)

def initialTriples (L : Automaton σ α) (R : Automaton σ β) : List Triple :=
  L.initialStates.flatMap fun l => R.initialStates.map fun r => ⟨l.label, r.label, .awaitLeft⟩

def reached (L : Automaton σ α) (R : Automaton σ β) (leftFinals rightFinals : OrdSet String) :
    List Triple :=
  (Search.trails (fun t => (moves L R leftFinals rightFinals t).map Prod.fst)
    (3 * L.size * R.size) (initialTriples L R)).map Trail.last

def addMoves (labels : List (Triple × String)) (source : String)
    (moves : List (Triple × OrdSet σ)) (b : Builder σ Empty) :
    Except AutomatonError (Builder σ Empty) :=
  moves.foldlM (fun b m => b.addTransition source (labelOf labels m.1) m.2) b

def graph (L : Automaton σ α) (R : Automaton σ β) (leftFinals rightFinals : OrdSet String) :
    Except AutomatonError (Automaton σ Empty) := do
  let labels := assignLabels [entryLabel] (reached L R leftFinals rightFinals)
  let b := Builder.buchi.addStates (labels.map fun e => ⟨e.2, false, none⟩)
  let b := b.addState ⟨entryLabel, true, none⟩
  let b ← (labels.filter fun e => e.1.phase = .both).foldlM (fun b e => b.addFinal e.2) b
  let b ← labels.foldlM (fun b e =>
    addMoves labels e.2 (moves L R leftFinals rightFinals e.1) b) b
  let b ← (initialTriples L R).foldlM (fun b t =>
    addMoves labels entryLabel (moves L R leftFinals rightFinals t) b) b
  return b.build

end Product

/-- The automaton of the words that both operands accept. Both need a single final set, and
without a pair of initial states nothing is built at all. -/
def Automaton.product {σ α β : Type} [Ord σ] [Std.TransOrd σ] [Std.LawfulEqOrd σ] [DecidableEq σ]
    (L : Automaton σ α) (R : Automaton σ β) : Except AutomatonError (Automaton σ Empty) :=
  match L.acceptance, R.acceptance with
  | .generalized _, _ => .error (.acceptanceMismatch .left)
  | .buchi _, .generalized _ => .error (.acceptanceMismatch .right)
  | .buchi leftFinals, .buchi rightFinals =>
      if (Product.initialTriples L R).isEmpty then .ok Builder.buchi.build
      else Product.graph L R leftFinals rightFinals

end TemporalCheck
