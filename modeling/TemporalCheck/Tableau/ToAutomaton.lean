import TemporalCheck.Tableau.Expansion
import TemporalCheck.Automaton.Builder

/-!
# From formulas to automata

The committed nodes of the tableau are the states, together with an entry. A step
into a node reads any letter over the names of the formula that agrees with the
literals of the node. There is one final set for each until: the nodes that do not
ask for it or have reached its goal.
-/

namespace TemporalCheck

def freeLimit : Nat := 32

structure TableauOptions where
  maxFree : Nat
  optimize : Bool
deriving DecidableEq, Repr

def TableauOptions.standard : TableauOptions := ⟨freeLimit, false⟩

namespace Tableau

def Node.literals (n : Node) : List Formula := n.old.toList.filter Formula.isLiteral

def Node.positive (n : Node) : Letter :=
  .ofList (n.literals.filterMap fun f => match f with
    | .var name => some name
    | _ => none)

def Node.fixed (n : Node) : OrdSet String :=
  .ofList (n.literals.flatMap fun f => f.names.toList)

def Node.free (n : Node) (names : OrdSet String) : OrdSet String := names.diff n.fixed

def Node.constraint (n : Node) : Formula :=
  match n.literals with
  | [] => .const true
  | f :: fs => fs.foldl (.binary .and) f

def bit (i : Nat) : UInt64 := 1 <<< UInt64.ofNat i

def masks (count : Nat) : List UInt64 := (List.range (bit count).toNat).map UInt64.ofNat

/-- The names whose bit is in the mask; the first name has the lowest bit. -/
def select (mask : UInt64) (names : List String) : List String :=
  (names.zipIdx.filter fun x => mask &&& bit x.2 != 0).map Prod.fst

def Node.candidate (n : Node) (names : OrdSet String) (mask : UInt64) : Letter :=
  n.positive.union (.ofList (select mask (n.free names).toList))

def Node.letters (n : Node) (names : OrdSet String) (limit : Nat) :
    Except TableauError (OrdSet Letter) := do
  let free := n.free names
  if limit < free.size then .error (.tooManyPropositions free.size limit)
  else
    let candidates := (masks free.size).map (n.candidate names)
    let kept ← (candidates.filterM fun l => n.constraint.evaluate l).mapError .formula
    return .ofList kept

def untils (nodes : List Node) : List (Formula × Formula) :=
  (OrdSet.ofList (nodes.flatMap fun n => n.old.toList)).toList.filterMap fun f => match f with
    | .binary .until _ goal => some (f, goal)
    | _ => none

def labels (nodes : List Node) : OrdSet String := .ofList (nodes.map Node.label)

/-- Without an until every node is final. -/
def finalSets (nodes : List Node) : List (OrdSet String) :=
  if nodes.isEmpty then []
  else match untils nodes with
    | [] => [labels nodes]
    | us => us.map fun u =>
        labels (nodes.filter fun n => !n.old.contains u.1 || n.old.contains u.2)

def addSteps (letters : OrdSet Letter) (n : Node) (b : Builder Letter (List Formula)) :
    Except AutomatonError (Builder Letter (List Formula)) :=
  n.incoming.foldlM (fun b o => b.addTransition o.label n.label letters) b

def addNode (names : OrdSet String) (limit : Nat) (b : Builder Letter (List Formula)) (n : Node) :
    Except TableauError (Builder Letter (List Formula)) := do
  let letters ← n.letters names limit
  if letters.isEmpty then return b
  else (addSteps letters n b).mapError .automaton

def states (nodes : List Node) : List (State (List Formula)) :=
  ⟨Origin.entry.label, true, none⟩ :: nodes.map fun n => ⟨n.label, false, some n.old.toList⟩

end Tableau

def Formula.toAutomaton (formula : Formula) (options : TableauOptions) :
    Except TableauError (Automaton Letter (List Formula)) := do
  let f := formula.normalized
  let nodes ← Tableau.expand f
  let b := (Builder.generalized.withOptimize options.optimize).addStates (Tableau.states nodes)
  let b ← nodes.foldlM (Tableau.addNode f.names (min options.maxFree freeLimit)) b
  let b ← ((Tableau.finalSets nodes).foldlM Builder.addFinals b).mapError .automaton
  return b.build

end TemporalCheck
