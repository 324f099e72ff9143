import TemporalCheck.Tableau.Node
import TemporalCheck.Automaton.Basic
import TemporalCheck.Formula.Evaluation

/-!
# Expansion of a tableau

Nodes wait on a stack. A node without anything left to look at is committed, and a
node for the position after it is begun, unless a committed node agrees with it:
then that one takes over its incoming steps. The expansion of a formula in normal
form ends, and the number of steps is bounded by its size.
-/

namespace TemporalCheck

inductive TableauError
  | tooManyPropositions (count limit : Nat)
  | notNormalized (f : Formula)
  | formula (e : FormulaError)
  | automaton (e : AutomatonError)
deriving DecidableEq

def TableauError.message : TableauError → String
  | .tooManyPropositions count limit =>
      "Tableau node has " ++ toString count ++ " unconstrained propositions, limit is " ++
        toString limit
  | .notNormalized f => "Formula is not in normal form: " ++ f.render
  | .formula e => e.message
  | .automaton e => e.message

/-- The nodes that are committed, in order; those that wait, the next one first; and the
next number that has not been used. -/
structure Tableau where
  nodes : List Tableau.Node
  pending : List Tableau.Node
  fresh : Nat
deriving DecidableEq

namespace Tableau

def start (f : Formula) : Tableau := ⟨[], [.seed 0 .entry [f]], 1⟩

def agrees (m n : Node) : Bool := decide (m.old = n.old ∧ m.next = n.next)

def close (t : Tableau) (n : Node) (rest : List Node) : Tableau :=
  if t.nodes.any (agrees n) then
    ⟨t.nodes.map fun m => if agrees n m then m.join n.incoming else m, rest, t.fresh⟩
  else ⟨t.nodes ++ [n], .seed t.fresh (.node n.id) n.next.toList :: rest, t.fresh + 1⟩

def advance (t : Tableau) (n : Node) (rest : List Node) : Except TableauError Tableau :=
  match n.todo with
  | [] => .ok (t.close n rest)
  | f :: todo => match Node.expand ⟨n.id, n.incoming, todo, n.old, n.next⟩ f with
    | .discard => .ok ⟨t.nodes, rest, t.fresh⟩
    | .refine m => .ok ⟨t.nodes, m :: rest, t.fresh⟩
    | .split first second =>
        .ok ⟨t.nodes, first :: second.withId t.fresh :: rest, t.fresh + 1⟩
    | .stuck g => .error (.notNormalized g)

def run : Nat → Tableau → Except TableauError Tableau
  | 0, t => .ok t
  | fuel + 1, t => match t.pending with
    | [] => .ok t
    | n :: rest => do
        let t ← t.advance n rest
        run fuel t

/-- With `c` formulas around there are at most `4 ^ c` committed nodes, and each node that is
begun takes at most `3 ^ c * (c + 2)` steps. -/
def stepBound (f : Formula) : Nat :=
  (Nat.pow 4 f.size + 1) * (Nat.pow 3 f.size * (f.size + 2))

def expand (f : Formula) : Except TableauError (List Node) := do
  let t ← run (stepBound f) (start f)
  return t.nodes

end Tableau

end TemporalCheck
