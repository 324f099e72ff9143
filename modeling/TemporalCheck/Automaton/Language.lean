import TemporalCheck.Automaton.Basic
import TemporalCheck.Letter

/-!
# Runs and accepted words

A run on a word starts in an initial state and follows transitions that carry the
letters of the word. It accepts when it visits every final set again and again.
-/

namespace TemporalCheck.Automaton

variable {σ δ : Type} [Ord σ]

def Edge (A : Automaton σ δ) (p : String) (a : σ) (q : String) : Prop :=
  ∃ symbols, A.symbols? p q = some symbols ∧ a ∈ symbols

def Initial (A : Automaton σ δ) (p : String) : Prop :=
  ∃ s, A.state? p = some s ∧ s.initial = true

structure Run (A : Automaton σ δ) (w : Word σ) (r : Nat → String) : Prop where
  initial : A.Initial (r 0)
  edge : ∀ i, A.Edge (r i) (w i) (r (i + 1))

def Recurs (r : Nat → String) (s : OrdSet String) : Prop := ∀ i, ∃ j, i ≤ j ∧ r j ∈ s

def Accepts (A : Automaton σ δ) (w : Word σ) : Prop :=
  ∃ r, A.Run w r ∧ ∀ s ∈ A.finalSets, Recurs r s

/-- What building guarantees: states are stored under their labels, transitions lead
between declared states and carry symbols, final states are declared, and no final set
is a member of a family twice. -/
structure WellFormed (A : Automaton σ δ) : Prop where
  label_eq : ∀ k s, A.states.get? k = some s → s.label = k
  source_declared : ∀ p row, A.rows.get? p = some row → A.hasState p = true
  target_declared : ∀ p row q symbols, A.rows.get? p = some row → row.get? q = some symbols →
    A.hasState q = true
  row_nonempty : ∀ p row, A.rows.get? p = some row → row.isEmpty = false
  symbols_nonempty : ∀ p q symbols, A.symbols? p q = some symbols → symbols.isEmpty = false
  finals_declared : ∀ s ∈ A.finalSets, ∀ q ∈ s, A.hasState q = true
  sets_nodup : A.finalSets.Nodup

end TemporalCheck.Automaton
