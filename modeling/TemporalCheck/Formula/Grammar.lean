import TemporalCheck.Formula.Token

/-!
# Grammar of formulas

Five levels, from implication to unary formulas. Implication, until and release
group to the right, conjunction and disjunction to the left, and parentheses
enclose an implication. `Derives level ts f` says that `ts` is a phrase of the
level with the tree `f`.
-/

namespace TemporalCheck

inductive Level
  | implication
  | disjunction
  | conjunction
  | binding
  | prefixed
deriving DecidableEq, Repr

inductive Derives : Level → List TokenKind → Formula → Prop
  | const (b : Bool) : Derives .prefixed [.const b] (.const b)
  | name (n : String) : Derives .prefixed [.name n] (.var n)
  | group {ts : List TokenKind} {f : Formula} :
      Derives .implication ts f → Derives .prefixed (.leftParen :: ts ++ [.rightParen]) f
  | unary {ts : List TokenKind} {f : Formula} (op : UnaryOp) :
      Derives .prefixed ts f → Derives .prefixed (.unary op :: ts) (.unary op f)
  | ofPrefixed {ts : List TokenKind} {f : Formula} :
      Derives .prefixed ts f → Derives .binding ts f
  | until {ts us : List TokenKind} {f g : Formula} :
      Derives .prefixed ts f → Derives .binding us g →
        Derives .binding (ts ++ .binary .until :: us) (.binary .until f g)
  | release {ts us : List TokenKind} {f g : Formula} :
      Derives .prefixed ts f → Derives .binding us g →
        Derives .binding (ts ++ .binary .release :: us) (.binary .release f g)
  | ofBinding {ts : List TokenKind} {f : Formula} :
      Derives .binding ts f → Derives .conjunction ts f
  | and {ts us : List TokenKind} {f g : Formula} :
      Derives .conjunction ts f → Derives .binding us g →
        Derives .conjunction (ts ++ .binary .and :: us) (.binary .and f g)
  | ofConjunction {ts : List TokenKind} {f : Formula} :
      Derives .conjunction ts f → Derives .disjunction ts f
  | or {ts us : List TokenKind} {f g : Formula} :
      Derives .disjunction ts f → Derives .conjunction us g →
        Derives .disjunction (ts ++ .binary .or :: us) (.binary .or f g)
  | ofDisjunction {ts : List TokenKind} {f : Formula} :
      Derives .disjunction ts f → Derives .implication ts f
  | implies {ts us : List TokenKind} {f g : Formula} :
      Derives .disjunction ts f → Derives .implication us g →
        Derives .implication (ts ++ .binary .implies :: us) (.binary .implies f g)

def Grammatical (ts : List TokenKind) : Prop := ∃ f, Derives .implication ts f

end TemporalCheck
