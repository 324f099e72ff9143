import TemporalCheck.Formula.Basic
import TemporalCheck.Letter

/-!
# Satisfaction

The standard semantics of linear temporal logic over infinite words of letters.
-/

namespace TemporalCheck.Formula

/-- `f.Holds w i`: the suffix of `w` from position `i` on satisfies `f`. -/
def Holds (w : Word Letter) : Formula → Nat → Prop
  | const b, _ => b = true
  | var name, i => name ∈ w i
  | unary .not f, i => ¬ f.Holds w i
  | unary .next f, i => f.Holds w (i + 1)
  | unary .always f, i => ∀ j, i ≤ j → f.Holds w j
  | unary .eventually f, i => ∃ j, i ≤ j ∧ f.Holds w j
  | binary .and l r, i => l.Holds w i ∧ r.Holds w i
  | binary .or l r, i => l.Holds w i ∨ r.Holds w i
  | binary .implies l r, i => l.Holds w i → r.Holds w i
  | binary .until l r, i => ∃ k, i ≤ k ∧ r.Holds w k ∧ ∀ j, i ≤ j → j < k → l.Holds w j
  | binary .release l r, i => ∀ k, i ≤ k → r.Holds w k ∨ ∃ j, i ≤ j ∧ j < k ∧ l.Holds w j

def Satisfies (w : Word Letter) (f : Formula) : Prop := f.Holds w 0

end TemporalCheck.Formula
