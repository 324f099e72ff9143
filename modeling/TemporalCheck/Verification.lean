import TemporalCheck.Formula.Parser
import TemporalCheck.Tableau.ToAutomaton
import TemporalCheck.Automaton.Degeneralize
import TemporalCheck.Automaton.Product
import TemporalCheck.Automaton.Lasso
import TemporalCheck.Kripke.Document
import TemporalCheck.Kripke.Lift

/-!
# Verification

A structure satisfies a formula when no word of the structure satisfies the
negation of the formula. So the automata of both are intersected, and each
accepting lasso of the product is a counterexample.
-/

namespace TemporalCheck

structure Config where
  maxFree : Nat
  optimize : Bool
  maxCounterexamples : Option Nat
deriving DecidableEq, Repr

inductive ConfigError
  | maxFreeTooLarge (value : Nat)
deriving DecidableEq, Repr

def ConfigError.message : ConfigError → String
  | .maxFreeTooLarge value =>
      "VerifierConfigBuilder: invalid value for 'max_free_propositions': " ++ toString value ++
        " exceeds the limit of " ++ toString freeLimit

inductive Setting
  | maxFree (value : Nat)
  | optimize (value : Bool)
  | maxCounterexamples (value : Nat)
deriving DecidableEq, Repr

namespace Config

def standard : Config := ⟨freeLimit, true, none⟩

def set (c : Config) : Setting → Config
  | .maxFree value => ⟨value, c.optimize, c.maxCounterexamples⟩
  | .optimize value => ⟨c.maxFree, value, c.maxCounterexamples⟩
  | .maxCounterexamples value => ⟨c.maxFree, c.optimize, some value⟩

def validate (c : Config) : Except ConfigError Config :=
  if freeLimit < c.maxFree then .error (.maxFreeTooLarge c.maxFree) else .ok c

/-- The settings in order over the defaults; the last one of a kind counts. -/
def ofSettings (settings : List Setting) : Except ConfigError Config :=
  (settings.foldl set standard).validate

end Config

inductive Error
  | formula (e : FormulaError)
  | parse (e : ParseError)
  | automaton (e : AutomatonError)
  | tableau (e : TableauError)
  | kripke (e : KripkeError)
  | config (e : ConfigError)
  | json
deriving DecidableEq

def Error.message : Error → String
  | .formula e => "Formula error: " ++ e.message
  | .parse e => "Parse error: " ++ e.message
  | .automaton e => "Automaton error: " ++ e.message
  | .tableau e => "Translation error: " ++ e.message
  | .kripke e => "Kripke structure error: " ++ e.message
  | .config e => "Builder error: " ++ e.message
  | .json => "JSON error"

def Error.ofLoad : LoadError → Error
  | .json => .json
  | .kripke e => .kripke e

structure Verification where
  specification : Formula
  negatedSpecification : Formula
  kripke : Kripke
  system : Automaton Letter String
  specificationAutomaton : Automaton Letter (List Formula)
  degeneralizedSpecification : Automaton Letter (List Formula)
  product : Automaton Letter Empty
  confirmed : Bool
  counterexamples : OrdSet String
deriving DecidableEq

def Config.limit (c : Config) (words : OrdSet String) : OrdSet String :=
  match c.maxCounterexamples with
  | some n => ⟨words.toList.take n, words.ascending.sublist (List.take_sublist n _)⟩
  | none => words

def Kripke.verify (k : Kripke) (specification : Formula) (config : Config) :
    Except Error Verification := do
  let negated := specification.negated
  let system ← (k.liftProjected specification.names).mapError .automaton
  let automaton ← (negated.toAutomaton ⟨config.maxFree, config.optimize⟩).mapError .tableau
  let single ← automaton.degeneralize.mapError .automaton
  let single := if config.optimize then single.optimized else single
  let product ← (system.product single).mapError .automaton
  let emptiness ← (product.emptiness Letter.render).mapError .automaton
  return ⟨specification, negated, k, system, automaton, single, product, emptiness.isEmpty,
    config.limit emptiness.counterexamples⟩

def Kripke.verifyText (k : Kripke) (text : String) : Except Error Verification := do
  let f ← (Formula.parse text).mapError .parse
  k.verify f .standard

def verifyFile (content : Option ByteArray) (text : String) : Except Error Verification := do
  let k ← (Kripke.ofFile content).mapError .ofLoad
  k.verifyText text

end TemporalCheck
