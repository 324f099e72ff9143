import TemporalCheck.Proofs.Normal
import TemporalCheck.Proofs.Verification

/-!
# Rewriting to normal form

A rewriting that pushes negations inward calls itself on the inverse of an operand, which can be
larger than the operand. It still ends, for the inverse of a formula needs no deeper recursion than
the formula. Its result is the normal form, and inverting before or after normalizing gives the
same formula.
-/

namespace TemporalCheck

variable {f : Formula}

namespace Formula

/-- The rewriting by recursion into the operands of a formula, or into the inverse of one where a
negation is above it; nothing where the recursion is deeper than `depth`. -/
def rewriteWithin : Nat → Formula → Option Formula
  | 0, _ => none
  | _ + 1, const b => some (const b)
  | _ + 1, var name => some (var name)
  | _ + 1, unary .not (var name) => some (unary .not (var name))
  | depth + 1, unary .not f => rewriteWithin depth f.invert
  | depth + 1, unary .next f => do
      return unary .next (← rewriteWithin depth f)
  | depth + 1, unary .always f => do
      return binary .release (const false) (← rewriteWithin depth f)
  | depth + 1, unary .eventually f => do
      return binary .until (const true) (← rewriteWithin depth f)
  | depth + 1, binary .implies l r => do
      return binary .or (← rewriteWithin depth l.invert) (← rewriteWithin depth r)
  | depth + 1, binary op l r => do
      return binary op (← rewriteWithin depth l) (← rewriteWithin depth r)

/-- The formula and its inverse are rewritten within the size of the formula, though the inverse
may be larger. -/
theorem rewriteWithin_eq_some {depth : Nat} (h : f.size ≤ depth) :
    rewriteWithin depth f = some (f.normalForm true) ∧
      rewriteWithin depth f.invert = some (f.normalForm false) := by
  induction f generalizing depth with
  | const b =>
    obtain ⟨depth, rfl⟩ := Nat.exists_eq_add_of_le' h
    simp [rewriteWithin, invert, normalForm, size]
  | var name =>
    obtain ⟨depth, rfl⟩ := Nat.exists_eq_add_of_le' h
    simp [rewriteWithin, invert, normalForm, size]
  | unary op f ih =>
    obtain ⟨depth, rfl⟩ := Nat.exists_eq_add_of_le' (Nat.le_of_add_left_le h)
    obtain ⟨hf, hinv⟩ := ih (Nat.le_of_add_le_add_right h)
    cases op with
    | not =>
      -- the inverse of a negation is its operand, with one level of depth to spare
      have hdouble := (ih (Nat.le_of_succ_le h)).1
      refine ⟨?_, hdouble⟩
      cases f with
      | var name => rfl
      | const b => exact hinv
      | unary op f => exact hinv
      | binary op l r => exact hinv
    | next => simp [rewriteWithin, invert, normalForm, hf, hinv]
    | always => simp [rewriteWithin, invert, normalForm, hf, hinv]
    | eventually => simp [rewriteWithin, invert, normalForm, hf, hinv]
  | binary op l r ihl ihr =>
    obtain ⟨depth, rfl⟩ := Nat.exists_eq_add_of_le' (Nat.le_of_add_left_le h)
    have hsum : l.size + r.size ≤ depth := Nat.le_of_add_le_add_right h
    obtain ⟨hl, hlinv⟩ := ihl (Nat.le_of_add_right_le hsum)
    obtain ⟨hr, hrinv⟩ := ihr (Nat.le_of_add_left_le hsum)
    cases op <;> simp [rewriteWithin, invert, normalForm, hl, hlinv, hr, hrinv]

theorem holds_invert {w : Word Letter} {i : Nat} : f.invert.Holds w i ↔ ¬ f.Holds w i :=
  calc
    f.invert.Holds w i ↔ f.invert.normalized.Holds w i := holds_normalized.symm
    _ ↔ (f.normalForm false).Holds w i := by rw [normalized, normalForm_invert, Bool.not_true]
    _ ↔ ¬ f.Holds w i := by simp [holds_normalForm]

/-- Rewriting ends within a recursion as deep as the formula is large, and its result is a normal
form that the same words satisfy; the inverse is satisfied by the other words. -/
theorem rewriting_keeps_meaning (f : Formula) :
    (∀ depth, f.size ≤ depth → rewriteWithin depth f = some f.normalized) ∧
      f.normalized.IsNormal ∧
        ∀ w : Word Letter, (f.normalized.Satisfies w ↔ f.Satisfies w) ∧
          (f.invert.Satisfies w ↔ ¬ f.Satisfies w) :=
  ⟨fun _ h => (rewriteWithin_eq_some h).1, isNormal_normalForm f true,
    fun _ => ⟨holds_normalized, holds_invert⟩⟩

/-- The recursion goes through `G (p && !q)`, the inverse of `F (p -> q)`. -/
theorem rewriting_keeps_meaning_not_eventually :
    (unary .not (unary .eventually (binary .implies (var "p") (var "q")))).size ≤ 5 ∧
      rewriteWithin 5 (unary .not (unary .eventually (binary .implies (var "p") (var "q")))) =
        some (binary .release (const false) (binary .and (var "p") (unary .not (var "q")))) :=
  ⟨by decide, (rewriting_keeps_meaning _).1 5 (by decide)⟩

/-- Normalizing a normal form only leaves the question of its polarity. -/
theorem normalForm_normalForm (f : Formula) (p q : Bool) :
    (f.normalForm p).normalForm q = f.normalForm (p == q) := by
  induction f generalizing p q with
  | const b => cases p <;> cases q <;> simp [normalForm]
  | var name => cases p <;> cases q <;> simp [normalForm]
  | unary op f ih => cases op <;> cases p <;> cases q <;> simp [normalForm, ih]
  | binary op l r ihl ihr => cases op <;> cases p <;> cases q <;> simp [normalForm, ihl, ihr]

theorem normalized_normalized (f : Formula) : f.normalized.normalized = f.normalized :=
  normalForm_normalForm f true true

theorem normalized_invert_normalized (f : Formula) :
    f.normalized.invert.normalized = f.invert.normalized := by
  simp only [normalized, normalForm_invert, normalForm_normalForm, Bool.not_true, Bool.true_beq]

theorem normalized_invert_invert (f : Formula) : f.invert.invert.normalized = f.normalized := by
  rw [normalized, normalForm_invert, normalForm_invert, Bool.not_not, normalized]

end Formula

/-- Inverting twice, normalizing twice and normalizing before inverting change no normal form. So
a verification works with the normal form of the inverted specification, and from that the normal
form of the specification is got back in the same way. -/
theorem invert_normalized_laws (f : Formula) :
    f.invert.invert.normalized = f.normalized ∧ f.normalized.normalized = f.normalized ∧
      f.normalized.invert.normalized = f.invert.normalized ∧
        ∀ k config v, Kripke.verify k f config = .ok v →
          v.negatedSpecification = f.invert.normalized ∧
            v.negatedSpecification.invert.normalized = f.normalized := by
  refine ⟨f.normalized_invert_invert, f.normalized_normalized, f.normalized_invert_normalized,
    fun k config v hv => ?_⟩
  have hneg : v.negatedSpecification = f.invert.normalized :=
    (stages_of_verify hv).negated.trans f.normalized_invert_normalized
  refine ⟨hneg, ?_⟩
  rw [hneg, Formula.normalized_invert_normalized, Formula.normalized_invert_invert]

theorem invert_normalized_laws_lost : ∃ v,
    lost.verify (.unary .always (.var "p")) .standard = .ok v ∧
      v.negatedSpecification = .binary .until (.const true) (.unary .not (.var "p")) ∧
        v.negatedSpecification.invert.normalized = .binary .release (.const false) (.var "p") := by
  obtain ⟨v, hv⟩ := exists_verify_lost none
  obtain ⟨-, -, -, hverify⟩ := invert_normalized_laws (.unary .always (.var "p"))
  obtain ⟨hneg, hback⟩ := hverify lost _ v hv
  exact ⟨v, hv, hneg, hback⟩

end TemporalCheck
