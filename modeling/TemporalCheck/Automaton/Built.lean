import TemporalCheck.Automaton.Builder

/-!
# What can be built

The builders that a sequence of successful calls leads to, and the automata that
are built from them.
-/

namespace TemporalCheck

mutual

inductive Reachable {σ δ : Type} [Ord σ] [Std.TransOrd σ] [Std.LawfulEqOrd σ] [DecidableEq σ] :
    Builder σ δ → Prop
  | buchi : Reachable Builder.buchi
  | generalized : Reachable Builder.generalized
  | ofAutomaton {A : Automaton σ δ} : Built A → Reachable (Builder.ofAutomaton A)
  | withOptimize {b : Builder σ δ} (optimize : Bool) :
      Reachable b → Reachable (b.withOptimize optimize)
  | addState {b : Builder σ δ} (s : State δ) : Reachable b → Reachable (b.addState s)
  | addStates {b : Builder σ δ} (states : List (State δ)) :
      Reachable b → Reachable (b.addStates states)
  | addTransition {b c : Builder σ δ} {source target : String} {symbols : OrdSet σ} :
      Reachable b → b.addTransition source target symbols = .ok c → Reachable c
  | addFinal {b c : Builder σ δ} {label : String} :
      Reachable b → b.addFinal label = .ok c → Reachable c
  | addFinals {b c : Builder σ δ} {labels : OrdSet String} :
      Reachable b → b.addFinals labels = .ok c → Reachable c

inductive Built {σ δ : Type} [Ord σ] [Std.TransOrd σ] [Std.LawfulEqOrd σ] [DecidableEq σ] :
    Automaton σ δ → Prop
  | build {b : Builder σ δ} : Reachable b → Built b.build

end

end TemporalCheck
