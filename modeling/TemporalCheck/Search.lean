/-!
# Breadth-first search

The search goes through a graph layer by layer and reaches every node once, along
a shortest trail. Within a layer the nodes come in the order in which the nodes of
the layer before lead to them.
-/

namespace TemporalCheck

/-- A walk that ends in `last`; the nodes before it are kept with the latest first. -/
structure Trail (α : Type) where
  last : α
  before : List α
deriving DecidableEq, Repr

namespace Trail

variable {α : Type}

def start (a : α) : Trail α := ⟨a, []⟩

def extend (t : Trail α) (a : α) : Trail α := ⟨a, t.last :: t.before⟩

def nodes (t : Trail α) : List α := (t.last :: t.before).reverse

def length (t : Trail α) : Nat := t.before.length

end Trail

namespace Search

variable {α : Type} [DecidableEq α]

def visit (seen : List α) : List (Trail α) → List α × List (Trail α)
  | [] => (seen, [])
  | t :: ts =>
      if t.last ∈ seen then visit seen ts
      else
        let r := visit (t.last :: seen) ts
        (r.1, t :: r.2)

def layers (next : α → List α) : Nat → List α → List (Trail α) → List (Trail α)
  | 0, _, _ => []
  | _ + 1, _, [] => []
  | n + 1, seen, layer =>
      let r := visit seen (layer.flatMap fun t => (next t.last).map t.extend)
      layer ++ layers next n r.1 r.2

/-- Trails to all nodes that are reached from the roots. A layer that is not empty has a new
node, so `bound` only has to be as large as the number of nodes. -/
def trails (next : α → List α) (bound : Nat) (roots : List α) : List (Trail α) :=
  let r := visit [] (roots.map Trail.start)
  layers next bound r.1 r.2

end Search

end TemporalCheck
