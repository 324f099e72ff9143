import TemporalCheck.Formula.Order
import TemporalCheck.Formula.Normal
import TemporalCheck.OrdSet

/-!
# Tableau nodes

A node collects what has to hold at a position (`old`), what is still to be looked
at (`todo`) and what has to hold from the next position on (`next`). Expanding a
formula discards the node, refines it, or splits it in two.
-/

namespace TemporalCheck.Tableau

inductive Origin
  | entry
  | node (id : Nat)
deriving DecidableEq, Repr

def Origin.label : Origin → String
  | .entry => "init"
  | .node id => toString id

structure Node where
  id : Nat
  incoming : List Origin
  todo : List Formula
  old : OrdSet Formula
  next : OrdSet Formula
deriving DecidableEq

namespace Node

def label (n : Node) : String := toString n.id

def seed (id : Nat) (origin : Origin) (formulas : List Formula) : Node :=
  ⟨id, [origin], formulas.reverse, .empty, .empty⟩

def require (n : Node) (f : Formula) : Node :=
  if f ∈ n.old ∨ f ∈ n.todo then n else ⟨n.id, n.incoming, f :: n.todo, n.old, n.next⟩

def postpone (n : Node) (f : Formula) : Node :=
  ⟨n.id, n.incoming, n.todo, n.old, n.next.insert f⟩

def keep (n : Node) (f : Formula) : Node :=
  ⟨n.id, n.incoming, n.todo, n.old.insert f, n.next⟩

def withId (n : Node) (id : Nat) : Node := ⟨id, n.incoming, n.todo, n.old, n.next⟩

def join (n : Node) (origins : List Origin) : Node :=
  ⟨n.id, n.incoming ++ origins.filter fun o => o ∉ n.incoming, n.todo, n.old, n.next⟩

def contradicts (n : Node) (f : Formula) : Bool :=
  decide (f = .const false) || f.complement.any n.old.contains

end Node

inductive Outcome
  | discard
  | refine (n : Node)
  | split (first second : Node)
  | stuck (f : Formula)

/-- What becomes of `n` when `f` has been taken from its list. An until either holds by its
goal now or is put off, a release either is released now or put off. -/
def Node.expand (n : Node) (f : Formula) : Outcome :=
  if f ∈ n.old then .refine n
  else if f.isLiteral then if n.contradicts f then .discard else .refine (n.keep f)
  else match f with
    | .unary .next g => .refine ((n.postpone g).keep f)
    | .binary .and l r => .refine (((n.require l).require r).keep f)
    | .binary .or l r => .split ((n.require l).keep f) ((n.require r).keep f)
    | .binary .until l r =>
        .split (((n.require l).postpone f).keep f) ((n.require r).keep f)
    | .binary .release l r =>
        .split (((n.require r).postpone f).keep f) (((n.require l).require r).keep f)
    | _ => .stuck f

end TemporalCheck.Tableau
