import TemporalCheck.Formula.Basic
import TemporalCheck.Letter

/-!
# Propositional value and proposition names

Formulas without temporal operators have a value under a set of true names. The
value of a binary formula needs the value of both operands, so the leftmost
temporal operator is the one that is reported.
-/

namespace TemporalCheck

inductive FormulaError
  | temporal (operator : String) (formula : Formula)
deriving DecidableEq, Repr

def FormulaError.message : FormulaError → String
  | .temporal operator formula =>
      "Cannot evaluate temporal operator '" ++ operator ++ "' in '" ++ formula.render ++ "'"

/-- Which occurrences of a name count: all, those not directly under a negation, or
those directly under one. -/
inductive Occurrence
  | any
  | plain
  | negated
deriving DecidableEq, Repr

namespace Formula

def evaluate (names : OrdSet String) : Formula → Except FormulaError Bool
  | const b => .ok b
  | var name => .ok (names.contains name)
  | unary .not f => (f.evaluate names).map (! ·)
  | unary op f => .error (.temporal op.symbol (unary op f))
  | binary .and l r => do
      let a ← l.evaluate names
      let b ← r.evaluate names
      return a && b
  | binary .or l r => do
      let a ← l.evaluate names
      let b ← r.evaluate names
      return a || b
  | binary .implies l r => do
      let a ← l.evaluate names
      let b ← r.evaluate names
      return !a || b
  | binary op l r => .error (.temporal op.symbol (binary op l r))

def propositions (which : Occurrence) : Formula → OrdSet String
  | const _ => .empty
  | var name => if which = .negated then .empty else .singleton name
  | unary .not (var name) => if which = .plain then .empty else .singleton name
  | unary _ f => f.propositions which
  | binary _ l r => (l.propositions which).union (r.propositions which)

def names (f : Formula) : OrdSet String := f.propositions .any

end Formula

end TemporalCheck
