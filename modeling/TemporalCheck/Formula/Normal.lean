import TemporalCheck.Formula.Basic

/-!
# Negation and normal form

`invert` pushes one negation inward by duality. `normalForm` carries a polarity
down the formula and rewrites implication, always and eventually on the way, so
that negation is left on propositions only.
-/

namespace TemporalCheck.Formula

def invert : Formula → Formula
  | const b => const !b
  | var name => unary .not (var name)
  | unary .not f => f
  | unary .next f => unary .next f.invert
  | unary .always f => unary .eventually f.invert
  | unary .eventually f => unary .always f.invert
  | binary .and l r => binary .or l.invert r.invert
  | binary .or l r => binary .and l.invert r.invert
  | binary .implies l r => binary .and l r.invert
  | binary .until l r => binary .release l.invert r.invert
  | binary .release l r => binary .until l.invert r.invert

def complement (f : Formula) : Option Formula := if f.isLiteral then some f.invert else none

/-- The normal form of the formula when `polarity` is true and of its negation otherwise. -/
def normalForm (polarity : Bool) : Formula → Formula
  | const b => const (if polarity then b else !b)
  | var name => if polarity then var name else unary .not (var name)
  | unary .not f => f.normalForm !polarity
  | unary .next f => unary .next (f.normalForm polarity)
  | unary .always f =>
      if polarity then binary .release (const false) (f.normalForm polarity)
      else binary .until (const true) (f.normalForm polarity)
  | unary .eventually f =>
      if polarity then binary .until (const true) (f.normalForm polarity)
      else binary .release (const false) (f.normalForm polarity)
  | binary .and l r =>
      binary (if polarity then .and else .or) (l.normalForm polarity) (r.normalForm polarity)
  | binary .or l r =>
      binary (if polarity then .or else .and) (l.normalForm polarity) (r.normalForm polarity)
  | binary .implies l r =>
      binary (if polarity then .or else .and) (l.normalForm !polarity) (r.normalForm polarity)
  | binary .until l r =>
      binary (if polarity then .until else .release) (l.normalForm polarity) (r.normalForm polarity)
  | binary .release l r =>
      binary (if polarity then .release else .until) (l.normalForm polarity) (r.normalForm polarity)

def normalized (f : Formula) : Formula := f.normalForm true

def negated (f : Formula) : Formula := f.normalized.invert.normalized

/-- No implication, always or eventually occurs, and negation only on propositions. -/
def IsNormal : Formula → Prop
  | const _ | var _ | unary .not (var _) => True
  | unary .next f => f.IsNormal
  | binary .and l r | binary .or l r | binary .until l r | binary .release l r =>
      l.IsNormal ∧ r.IsNormal
  | _ => False

theorem normalForm_invert (f : Formula) (polarity : Bool) :
    f.invert.normalForm polarity = f.normalForm !polarity := by
  fun_induction invert f <;> cases polarity <;> simp_all [normalForm]

end TemporalCheck.Formula
