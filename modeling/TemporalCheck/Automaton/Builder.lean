import TemporalCheck.Automaton.Merge

/-!
# Building automata

A builder holds an automaton in the making. Transitions and final states may only
name states that are declared already, so what is built never refers to a missing
state. Building merges joinable states when that is asked for.
-/

namespace TemporalCheck

structure Builder (σ δ : Type) [Ord σ] extends Automaton σ δ where
  optimize : Bool

namespace Builder

variable {σ δ : Type} [Ord σ]

def empty (acceptance : Acceptance) : Builder σ δ := ⟨.empty acceptance, false⟩

def buchi : Builder σ δ := empty (.buchi .empty)

def generalized : Builder σ δ := empty (.generalized [])

def ofAutomaton (A : Automaton σ δ) : Builder σ δ := ⟨A, false⟩

def withOptimize (b : Builder σ δ) (optimize : Bool) : Builder σ δ := ⟨b.toAutomaton, optimize⟩

def addState (b : Builder σ δ) (s : State δ) : Builder σ δ :=
  ⟨⟨b.states.insert s.label s, b.rows, b.acceptance⟩, b.optimize⟩

theorem state?_addState (b : Builder σ δ) (s : State δ) (label : String) :
    (b.addState s).state? label = if label = s.label then some s else b.state? label :=
  OrdMap.get?_insert b.states s.label label s

def addStates (b : Builder σ δ) (states : List (State δ)) : Builder σ δ :=
  states.foldl addState b

def requireState (b : Builder σ δ) (label : String) : Except AutomatonError Unit :=
  if b.hasState label then .ok () else .error (.unknownState label)

def extendFinals (labels : OrdSet String) : Acceptance → Acceptance
  | .buchi finals => .buchi (finals.union labels)
  | .generalized family =>
      if labels ∈ family then .generalized family else .generalized (family ++ [labels])

def withFinals (b : Builder σ δ) (labels : OrdSet String) : Builder σ δ :=
  ⟨⟨b.states, b.rows, extendFinals labels b.acceptance⟩, b.optimize⟩

def addFinal (b : Builder σ δ) (label : String) : Except AutomatonError (Builder σ δ) := do
  b.requireState label
  .ok (b.withFinals (.singleton label))

def addFinals (b : Builder σ δ) (labels : OrdSet String) : Except AutomatonError (Builder σ δ) :=
  let missing := labels.filter fun label => !b.hasState label
  if missing.isEmpty then .ok (b.withFinals labels) else .error (.invalidFinals missing)

theorem addFinals_eq_ok_iff {b c : Builder σ δ} {labels : OrdSet String} :
    b.addFinals labels = .ok c ↔
      (∀ label ∈ labels, b.hasState label = true) ∧ b.withFinals labels = c := by
  have key : (labels.filter fun label => !b.hasState label).isEmpty = true ↔
      ∀ label ∈ labels, b.hasState label = true := by
    simp [OrdSet.isEmpty_iff]
  rw [← key]
  by_cases h : (labels.filter fun label => !b.hasState label).isEmpty = true <;>
    simp [addFinals, h]

variable [Std.TransOrd σ] [Std.LawfulEqOrd σ]

def link (b : Builder σ δ) (source target : String) (symbols : OrdSet σ) : Builder σ δ :=
  let row := (b.rows.get? source).getD .empty
  let present := (row.get? target).getD .empty
  ⟨⟨b.states, b.rows.insert source (row.insert target (present.union symbols)), b.acceptance⟩,
    b.optimize⟩

def addTransition (b : Builder σ δ) (source target : String) (symbols : OrdSet σ) :
    Except AutomatonError (Builder σ δ) := do
  b.requireState source
  b.requireState target
  if symbols.isEmpty then .error (.emptyTransition source target)
  else .ok (b.link source target symbols)

theorem symbols?_link (b : Builder σ δ) (source target p q : String) (symbols : OrdSet σ) :
    (b.link source target symbols).symbols? p q =
      if p = source ∧ q = target then
        some (((b.symbols? source target).getD .empty).union symbols)
      else b.symbols? p q := by
  simp only [Automaton.symbols?, link, OrdMap.get?_insert]
  by_cases hp : p = source
  · subst hp
    by_cases hq : q = target
    · subst hq
      cases b.rows.get? p <;> simp [OrdMap.get?_insert]
    · cases b.rows.get? p <;> simp [OrdMap.get?_insert, hq]
  · simp [hp]

theorem addTransition_eq_ok_iff {b c : Builder σ δ} {source target : String}
    {symbols : OrdSet σ} :
    b.addTransition source target symbols = .ok c ↔ b.hasState source = true ∧
      b.hasState target = true ∧ symbols.isEmpty = false ∧ b.link source target symbols = c := by
  unfold addTransition requireState
  cases b.hasState source <;> cases b.hasState target <;> cases symbols.isEmpty <;>
    simp [bind, Except.bind]

def build [DecidableEq σ] (b : Builder σ δ) : Automaton σ δ :=
  if b.optimize then b.toAutomaton.merged else b.toAutomaton

end Builder

def Automaton.optimized {σ δ : Type} [Ord σ] [Std.TransOrd σ] [Std.LawfulEqOrd σ] [DecidableEq σ]
    (A : Automaton σ δ) : Automaton σ δ :=
  ((Builder.ofAutomaton A).withOptimize true).build

end TemporalCheck
