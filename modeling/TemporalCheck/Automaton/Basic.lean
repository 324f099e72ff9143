import TemporalCheck.OrdMap
import TemporalCheck.Text.Quoted

/-!
# Automata over infinite words

An automaton has labelled states, a table of symbol sets from state to state, and
an acceptance condition: one set of final states, or a family of such sets. States
may carry data.
-/

namespace TemporalCheck

structure State (δ : Type) where
  label : String
  initial : Bool
  data : Option δ
deriving DecidableEq, Repr

inductive Acceptance
  | buchi (finals : OrdSet String)
  | generalized (family : List (OrdSet String))
deriving DecidableEq

def Acceptance.sets : Acceptance → List (OrdSet String)
  | .buchi finals => [finals]
  | .generalized family => family

def Acceptance.isGeneralized : Acceptance → Bool
  | .buchi _ => false
  | .generalized _ => true

def Acceptance.eraseState (label : String) : Acceptance → Acceptance
  | .buchi finals => .buchi (finals.erase label)
  | .generalized family => .generalized (family.map fun s => s.erase label)

abbrev Row (σ : Type) [Ord σ] := OrdMap String (OrdSet σ)

structure Automaton (σ δ : Type) [Ord σ] where
  states : OrdMap String (State δ)
  rows : OrdMap String (Row σ)
  acceptance : Acceptance
deriving DecidableEq

inductive Operand
  | left
  | right
  | input
deriving DecidableEq, Repr

def Operand.text : Operand → String
  | .left => "left"
  | .right => "right"
  | .input => "input"

inductive AutomatonError
  | unknownState (label : String)
  | emptyTransition (source target : String)
  | invalidFinals (missing : OrdSet String)
  | acceptanceMismatch (operand : Operand)
deriving DecidableEq

def AutomatonError.message : AutomatonError → String
  | .unknownState label => "State '" ++ label ++ "' is not declared"
  | .emptyTransition source target =>
      "Transition from '" ++ source ++ "' to '" ++ target ++ "' has no symbols"
  | .invalidFinals missing =>
      "Invalid final state set. States [" ++ ", ".intercalate (missing.toList.map Text.quoted) ++
        "] are missing"
  | .acceptanceMismatch operand =>
      "Expected Büchi acceptance on automaton '" ++ operand.text ++ "'"

namespace Automaton

variable {σ δ ε : Type} [Ord σ]

def empty (acceptance : Acceptance) : Automaton σ δ := ⟨.empty, .empty, acceptance⟩

def state? (A : Automaton σ δ) (label : String) : Option (State δ) := A.states.get? label

def hasState (A : Automaton σ δ) (label : String) : Bool := A.states.contains label

def size (A : Automaton σ δ) : Nat := A.states.size

def isEmpty (A : Automaton σ δ) : Bool := A.states.isEmpty

def initialStates (A : Automaton σ δ) : List (State δ) := A.states.values.filter State.initial

def isInitial (A : Automaton σ δ) (label : String) : Bool := (A.state? label).any State.initial

def transitionsFrom (A : Automaton σ δ) (source : String) : List (String × OrdSet σ) :=
  ((A.rows.get? source).getD .empty).toList

def symbols? (A : Automaton σ δ) (source target : String) : Option (OrdSet σ) :=
  (A.rows.get? source).bind fun row => row.get? target

def hasTransition (A : Automaton σ δ) (source target : String) : Bool :=
  (A.symbols? source target).isSome

def transitionsTo (A : Automaton σ δ) (target : String) : List (String × OrdSet σ) :=
  A.rows.toList.filterMap fun e => (e.2.get? target).map fun symbols => (e.1, symbols)

def transitions (A : Automaton σ δ) : List (String × String × OrdSet σ) :=
  A.rows.toList.flatMap fun e => e.2.toList.map fun t => (e.1, t.1, t.2)

def successors (A : Automaton σ δ) (source : String) : List String :=
  (A.transitionsFrom source).map Prod.fst

def finalSets (A : Automaton σ δ) : List (OrdSet String) := A.acceptance.sets

def finals? (A : Automaton σ δ) : Option (OrdSet String) :=
  match A.acceptance with
  | .buchi finals => some finals
  | .generalized _ => none

def mapData (f : δ → ε) (A : Automaton σ δ) : Automaton σ ε :=
  ⟨A.states.mapValues fun s => ⟨s.label, s.initial, s.data.map f⟩, A.rows, A.acceptance⟩

end Automaton

end TemporalCheck
