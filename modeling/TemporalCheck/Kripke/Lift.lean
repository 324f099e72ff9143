import TemporalCheck.Kripke.Basic
import TemporalCheck.Automaton.Builder

/-!
# Kripke structures as automata

The automaton reads the letters of the states that a path goes through: a step
carries the letter of the state that it enters. An entry leads to the initial
states, the other states have the numbers of the Kripke states from one on, and
every state is final.
-/

namespace TemporalCheck.Kripke

def entryLabel : String := "0"

def label? (k : Kripke) (name : String) : Option String :=
  (k.states.findIdx? fun s => s.name = name).map fun i => toString (i + 1)

def requireLabel (k : Kripke) (name : String) : Except AutomatonError String :=
  match k.label? name with
  | some label => .ok label
  | none => .error (.unknownState name)

def addImage (k : Kripke) (b : Builder Letter String) (s : KripkeState) :
    Except AutomatonError (Builder Letter String) := do
  let label ← k.requireLabel s.name
  (b.addState ⟨label, false, some s.name⟩).addFinal label

def addSteps (k : Kripke) (letter : KripkeState → Letter) (source : String)
    (targets : List KripkeState) (b : Builder Letter String) :
    Except AutomatonError (Builder Letter String) :=
  targets.foldlM (fun b t => do
    let label ← k.requireLabel t.name
    b.addTransition source label (.singleton (letter t))) b

def liftWith (k : Kripke) (letter : KripkeState → Letter) :
    Except AutomatonError (Automaton Letter String) := do
  let b := Builder.buchi.addState ⟨entryLabel, true, none⟩
  let b ← b.addFinal entryLabel
  let b ← k.states.foldlM k.addImage b
  let b ← k.addSteps letter entryLabel k.initialStates b
  let b ← k.states.foldlM (fun b s => do
    let label ← k.requireLabel s.name
    k.addSteps letter label (k.successors s.name) b) b
  return b.build

def lift (k : Kripke) : Except AutomatonError (Automaton Letter String) :=
  k.liftWith KripkeState.atoms

def liftProjected (k : Kripke) (names : OrdSet String) :
    Except AutomatonError (Automaton Letter String) :=
  k.liftWith fun s => s.atoms.project names

end TemporalCheck.Kripke
