/-!
# Formulas of linear temporal logic

Formulas are built from constants and propositions with four unary and five
binary operators. `render` writes every binary operator inside parentheses, so
the text shows the tree.
-/

namespace TemporalCheck

inductive UnaryOp
  | not
  | next
  | always
  | eventually
deriving DecidableEq, Repr

inductive BinaryOp
  | and
  | or
  | implies
  | until
  | release
deriving DecidableEq, Repr

def UnaryOp.symbol : UnaryOp → String
  | .not => "!"
  | .next => "X"
  | .always => "G"
  | .eventually => "F"

def BinaryOp.symbol : BinaryOp → String
  | .and => "&&"
  | .or => "||"
  | .implies => "->"
  | .until => "U"
  | .release => "R"

inductive Formula
  | const (value : Bool)
  | var (name : String)
  | unary (op : UnaryOp) (operand : Formula)
  | binary (op : BinaryOp) (left right : Formula)
deriving DecidableEq, Repr, Inhabited

namespace Formula

def render : Formula → String
  | const false => "0"
  | const true => "1"
  | var name => name
  | unary .not f => "!" ++ f.render
  | unary op f => op.symbol ++ " " ++ f.render
  | binary op l r => "(" ++ l.render ++ " " ++ op.symbol ++ " " ++ r.render ++ ")"

def size : Formula → Nat
  | const _ | var _ => 1
  | unary _ f => f.size + 1
  | binary _ l r => l.size + r.size + 1

def isLiteral : Formula → Bool
  | const _ | var _ | unary .not (var _) => true
  | _ => false

def AllNames (p : String → Prop) : Formula → Prop
  | const _ => True
  | var name => p name
  | unary _ f => f.AllNames p
  | binary _ l r => l.AllNames p ∧ r.AllNames p

inductive Subformula : Formula → Formula → Prop
  | refl (f : Formula) : Subformula f f
  | unary {g f : Formula} (op : UnaryOp) : Subformula g f → Subformula g (.unary op f)
  | left {g l : Formula} (op : BinaryOp) (r : Formula) :
      Subformula g l → Subformula g (.binary op l r)
  | right {g r : Formula} (op : BinaryOp) (l : Formula) :
      Subformula g r → Subformula g (.binary op l r)

end Formula

end TemporalCheck
