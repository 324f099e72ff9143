import TemporalCheck.Automaton.Basic
import TemporalCheck.Letter
import TemporalCheck.Search

/-!
# Accepting lassos

An automaton with one final set accepts some word exactly when a final state is
reached from an initial state and lies on a cycle. For every such pair the check
reports a shortest stem and a shortest cycle, and the word that the smallest
symbols along them spell.
-/

namespace TemporalCheck

/-- The stem leads from an initial to a final state, both included. The cycle holds the
states after the final one and ends with it. -/
structure Lasso where
  stem : List String
  cycle : List String
deriving DecidableEq, Repr

/-- The infinite word that goes through `stem` once and through `cycle` for ever. -/
structure LassoWord (σ : Type) where
  stem : List σ
  cycle : List σ
deriving DecidableEq, Repr

def LassoWord.render {σ : Type} (text : σ → String) (w : LassoWord σ) : String :=
  String.join (w.stem.map text) ++ "(" ++ String.join (w.cycle.map text) ++ ")"

def LassoWord.at? {σ : Type} (w : LassoWord σ) (i : Nat) : Option σ :=
  if i < w.stem.length then w.stem[i]? else w.cycle[(i - w.stem.length) % w.cycle.length]?

def LassoWord.Spells {σ : Type} (w : LassoWord σ) (u : Word σ) : Prop := ∀ i, w.at? i = some (u i)

namespace Automaton

variable {σ δ : Type} [Ord σ]

def symbolsAlong (A : Automaton σ δ) : List String → List σ
  | p :: q :: rest => ((A.symbols? p q).bind OrdSet.min?).toList ++ symbolsAlong A (q :: rest)
  | _ => []

def trailsFrom (A : Automaton σ δ) (root : String) : List (Trail String) :=
  Search.trails A.successors A.size [root]

def shortestCycle (A : Automaton σ δ) (label : String) : Option (List String) :=
  ((A.trailsFrom label).find? fun t => A.hasTransition t.last label).map fun t =>
    t.nodes.tail ++ [label]

def lassos (A : Automaton σ δ) (finals : OrdSet String) : List Lasso :=
  let cycles := finals.toList.map fun label => (label, A.shortestCycle label)
  A.initialStates.flatMap fun s =>
    let trails := A.trailsFrom s.label
    cycles.filterMap fun c => do
      let t ← trails.find? fun t => t.last = c.1
      let cycle ← c.2
      return ⟨t.nodes, cycle⟩

end Automaton

def Lasso.word {σ δ : Type} [Ord σ] (l : Lasso) (A : Automaton σ δ) : LassoWord σ :=
  ⟨A.symbolsAlong l.stem, A.symbolsAlong (l.stem.getLast?.toList ++ l.cycle)⟩

def Lasso.render {σ δ : Type} [Ord σ] (text : σ → String) (A : Automaton σ δ) (l : Lasso) :
    String :=
  (l.word A).render text

structure Emptiness where
  lassos : List Lasso
  counterexamples : OrdSet String
deriving DecidableEq

def Emptiness.isEmpty (e : Emptiness) : Bool := e.lassos.isEmpty

def Automaton.emptiness {σ δ : Type} [Ord σ] (text : σ → String) (A : Automaton σ δ) :
    Except AutomatonError Emptiness :=
  match A.acceptance with
  | .generalized _ => .error (.acceptanceMismatch .input)
  | .buchi finals =>
      let found := A.lassos finals
      .ok ⟨found, .ofList (found.map (Lasso.render text A))⟩

end TemporalCheck
