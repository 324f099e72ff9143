import Mathlib.Logic.Basic
import Mathlib.Tactic.ByContra
import TemporalCheck.Formula.Evaluation
import TemporalCheck.Formula.Normal
import TemporalCheck.Formula.Semantics

/-!
# Meaning of the normal form

The normal form under a polarity means what the polarity says, it mentions the same
names, and whether a formula holds depends on these names only. An until and a release
are unfolded at the first position, as the tableau does it.
-/

namespace TemporalCheck.Formula

variable {w : Word Letter} {f g l r : Formula} {i : Nat}

theorem not_holds_until :
    ¬ (binary .until l r).Holds w i ↔
      ∀ k, i ≤ k → ¬ r.Holds w k ∨ ∃ j, i ≤ j ∧ j < k ∧ ¬ l.Holds w j := by
  simp only [Holds]
  constructor
  · intro h k hk
    by_cases hr : r.Holds w k
    · refine Or.inr ?_
      by_contra hl
      exact h ⟨k, hk, hr, fun j hij hjk => by_contra fun hj => hl ⟨j, hij, hjk, hj⟩⟩
    · exact Or.inl hr
  · intro h hu
    obtain ⟨k, hk, hr, hl⟩ := hu
    rcases h k hk with hn | ⟨j, hij, hjk, hj⟩
    · exact hn hr
    · exact hj (hl j hij hjk)

theorem not_holds_release :
    ¬ (binary .release l r).Holds w i ↔
      ∃ k, i ≤ k ∧ ¬ r.Holds w k ∧ ∀ j, i ≤ j → j < k → ¬ l.Holds w j := by
  simp only [Holds]
  constructor
  · intro h
    obtain ⟨k, hk⟩ := not_forall.1 h
    obtain ⟨hik, hn⟩ := Classical.not_imp.1 hk
    obtain ⟨hr, hl⟩ := not_or.1 hn
    exact ⟨k, hik, hr, fun j hij hjk hj => hl ⟨j, hij, hjk, hj⟩⟩
  · intro h hrel
    obtain ⟨k, hik, hr, hl⟩ := h
    rcases hrel k hik with hk | ⟨j, hij, hjk, hj⟩
    · exact hr hk
    · exact hl j hij hjk hj

theorem holds_normalForm (f : Formula) (polarity : Bool) (i : Nat) :
    (f.normalForm polarity).Holds w i ↔ (f.Holds w i ↔ polarity = true) := by
  induction f generalizing polarity i with
  | const b => cases polarity <;> simp [normalForm, Holds]
  | var name => cases polarity <;> simp [normalForm, Holds]
  | unary op f ih =>
    cases op with
    | not => cases polarity <;> simp [normalForm, Holds, ih]
    | next => simp only [normalForm, Holds, ih]
    | always => cases polarity <;> simp [normalForm, Holds, ih]
    | eventually => cases polarity <;> simp [normalForm, Holds, ih]
  | binary op l r ihl ihr =>
    cases op with
    | and => cases polarity <;> simp [normalForm, Holds, ihl, ihr, imp_iff_not_or]
    | or => cases polarity <;> simp [normalForm, Holds, ihl, ihr]
    | implies => cases polarity <;> simp [normalForm, Holds, ihl, ihr, imp_iff_not_or]
    | «until» =>
      cases polarity with
      | true => simp [normalForm, Holds, ihl, ihr]
      | false =>
        simp only [Bool.false_eq_true, iff_false, not_holds_until]
        simp [normalForm, Holds, ihl, ihr]
    | release =>
      cases polarity with
      | true => simp [normalForm, Holds, ihl, ihr]
      | false =>
        simp only [Bool.false_eq_true, iff_false, not_holds_release]
        simp [normalForm, Holds, ihl, ihr]

theorem holds_normalized : f.normalized.Holds w i ↔ f.Holds w i := by
  simp [normalized, holds_normalForm]

theorem holds_negated : f.negated.Holds w i ↔ ¬ f.Holds w i := by
  simp [negated, normalized, normalForm_invert, holds_normalForm]

theorem isNormal_normalForm (f : Formula) (polarity : Bool) : (f.normalForm polarity).IsNormal := by
  induction f generalizing polarity with
  | const b => simp [normalForm, IsNormal]
  | var name => cases polarity <;> simp [normalForm, IsNormal]
  | unary op f ih => cases op <;> cases polarity <;> simp [normalForm, IsNormal, ih]
  | binary op l r ihl ihr => cases op <;> cases polarity <;> simp [normalForm, IsNormal, ihl, ihr]

theorem isNormal_negated (f : Formula) : f.negated.IsNormal := isNormal_normalForm _ true

theorem normalized_of_isNormal (h : f.IsNormal) : f.normalized = f := by
  rw [normalized]
  fun_induction IsNormal f <;> simp_all [normalForm]

theorem normalized_negated (f : Formula) : f.negated.normalized = f.negated :=
  normalized_of_isNormal (isNormal_negated f)

@[simp] theorem names_unary (op : UnaryOp) (f : Formula) : (unary op f).names = f.names := by
  cases op <;> cases f <;> simp [names, propositions]

@[simp] theorem names_binary (op : BinaryOp) (l r : Formula) :
    (binary op l r).names = l.names.union r.names := by
  cases op <;> rfl

theorem names_normalForm (f : Formula) (polarity : Bool) : (f.normalForm polarity).names = f.names := by
  have constant (b : Bool) (s : OrdSet String) : (const b).names.union s = s := rfl
  induction f generalizing polarity with
  | const b => rfl
  | var name => cases polarity <;> rfl
  | unary op f ih => cases op <;> cases polarity <;> simp [normalForm, ih, constant]
  | binary op l r ihl ihr => cases op <;> cases polarity <;> simp [normalForm, ihl, ihr]

theorem names_normalized (f : Formula) : f.normalized.names = f.names := names_normalForm f true

theorem names_negated (f : Formula) : f.negated.names = f.names := by
  rw [negated, normalized, normalForm_invert, names_normalForm, names_normalized]

theorem holds_congr {v : Word Letter} (h : ∀ i, ∀ a ∈ f.names, a ∈ w i ↔ a ∈ v i) (i : Nat) :
    f.Holds w i ↔ f.Holds v i := by
  induction f generalizing i with
  | const b => rfl
  | var name => exact h i name (by simp [names, propositions])
  | unary op f ih =>
    rw [names_unary] at h
    cases op <;> simp only [Holds, ih h]
  | binary op l r ihl ihr =>
    simp only [names_binary, OrdSet.mem_union] at h
    have hl := ihl fun i a ha => h i a (Or.inl ha)
    have hr := ihr fun i a ha => h i a (Or.inr ha)
    cases op <;> simp only [Holds, hl, hr]

theorem holds_project (f : Formula) (w : Word Letter) (i : Nat) :
    f.Holds (fun j => (w j).project f.names) i ↔ f.Holds w i := by
  refine holds_congr (fun j a ha => ?_) i
  rw [Letter.mem_project, and_iff_left ha]

theorem holds_until_iff : (binary .until l r).Holds w i ↔
    r.Holds w i ∨ l.Holds w i ∧ (binary .until l r).Holds w (i + 1) := by
  constructor
  · intro h
    obtain ⟨k, hk, hr, hl⟩ := h
    rcases Nat.eq_or_lt_of_le hk with rfl | hlt
    · exact Or.inl hr
    · exact Or.inr ⟨hl i (Nat.le_refl i) hlt, k, hlt, hr, fun j hj => hl j (by omega)⟩
  · intro h
    rcases h with hr | ⟨hl, k, hk, hr, hlk⟩
    · exact ⟨i, Nat.le_refl i, hr, fun j hij hji => by omega⟩
    · refine ⟨k, by omega, hr, fun j hij hjk => ?_⟩
      rcases Nat.eq_or_lt_of_le hij with rfl | hlt
      · exact hl
      · exact hlk j hlt hjk

theorem holds_release_iff : (binary .release l r).Holds w i ↔
    r.Holds w i ∧ (l.Holds w i ∨ (binary .release l r).Holds w (i + 1)) := by
  constructor
  · intro h
    have hr : r.Holds w i := (h i (Nat.le_refl i)).resolve_right fun ⟨j, hij, hji, _⟩ => by omega
    refine ⟨hr, or_iff_not_imp_left.2 fun hl k hk => ?_⟩
    rcases h k (by omega) with hrk | ⟨j, hij, hjk, hj⟩
    · exact Or.inl hrk
    · rcases Nat.eq_or_lt_of_le hij with rfl | hlt
      · exact absurd hj hl
      · exact Or.inr ⟨j, hlt, hjk, hj⟩
  · intro h k hk
    obtain ⟨hr, hrel⟩ := h
    rcases Nat.eq_or_lt_of_le hk with rfl | hlt
    · exact Or.inl hr
    · rcases hrel with hl | hnext
      · exact Or.inr ⟨i, Nat.le_refl i, hlt, hl⟩
      · rcases hnext k hlt with hrk | ⟨j, hij, hjk, hj⟩
        · exact Or.inl hrk
        · exact Or.inr ⟨j, by omega, hjk, hj⟩

end TemporalCheck.Formula
