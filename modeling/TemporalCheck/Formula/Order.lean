import TemporalCheck.Formula.Basic

/-!
# The order of formulas

Constants come before propositions, these before unary and binary formulas.
Within a kind the operator decides, then the operands from left to right. The
order is total and only equal formulas compare equal, so formulas can be the
members of ordered sets.
-/

namespace TemporalCheck

def UnaryOp.rank : UnaryOp → Nat
  | .not => 0
  | .next => 1
  | .always => 2
  | .eventually => 3

def BinaryOp.rank : BinaryOp → Nat
  | .and => 0
  | .or => 1
  | .implies => 2
  | .until => 3
  | .release => 4

theorem UnaryOp.rank_injective {a b : UnaryOp} (h : a.rank = b.rank) : a = b := by
  cases a <;> cases b <;> simp_all [rank]

theorem BinaryOp.rank_injective {a b : BinaryOp} (h : a.rank = b.rank) : a = b := by
  cases a <;> cases b <;> simp_all [rank]

namespace Formula

def compareWith : Formula → Formula → Ordering
  | const a, const b => compare a b
  | const _, _ => .lt
  | var _, const _ => .gt
  | var a, var b => compare a b
  | var _, _ => .lt
  | unary _ _, const _ | unary _ _, var _ => .gt
  | unary o f, unary p g => (compare o.rank p.rank).then (compareWith f g)
  | unary _ _, binary _ _ _ => .lt
  | binary _ _ _, const _ | binary _ _ _, var _ | binary _ _ _, unary _ _ => .gt
  | binary o l r, binary p m s =>
      (compare o.rank p.rank).then ((compareWith l m).then (compareWith r s))

instance : Ord Formula := ⟨compareWith⟩

theorem compareWith_swap (f g : Formula) : compareWith f g = (compareWith g f).swap := by
  induction f generalizing g with
  | const a =>
    cases g <;> simp only [compareWith, Ordering.swap_gt]
    exact Std.OrientedOrd.eq_swap
  | var a =>
    cases g <;> simp only [compareWith, Ordering.swap_gt, Ordering.swap_lt]
    exact Std.OrientedOrd.eq_swap
  | unary o f ih =>
    cases g <;> simp only [compareWith, Ordering.swap_gt, Ordering.swap_lt, Ordering.swap_then]
    rw [← ih, ← Std.OrientedOrd.eq_swap]
  | binary o l r ihl ihr =>
    cases g <;> simp only [compareWith, Ordering.swap_lt, Ordering.swap_then]
    rw [← ihl, ← ihr, ← Std.OrientedOrd.eq_swap]

theorem compareWith_self (f : Formula) : compareWith f f = .eq := by
  induction f with
  | const a => exact Std.ReflOrd.compare_self
  | var a => exact Std.ReflOrd.compare_self
  | unary o f ih => simp [compareWith, ih]
  | binary o l r ihl ihr => simp [compareWith, ihl, ihr]

theorem eq_of_compareWith {f g : Formula} (h : compareWith f g = .eq) : f = g := by
  induction f generalizing g with
  | const a =>
    cases g <;> simp only [compareWith, reduceCtorEq] at h
    rw [Std.LawfulEqOrd.eq_of_compare h]
  | var a =>
    cases g <;> simp only [compareWith, reduceCtorEq] at h
    rw [Std.LawfulEqOrd.eq_of_compare h]
  | unary o f ih =>
    cases g <;> simp only [compareWith, reduceCtorEq, Ordering.then_eq_eq] at h
    rw [UnaryOp.rank_injective (Std.LawfulEqOrd.eq_of_compare h.1), ih h.2]
  | binary o l r ihl ihr =>
    cases g <;> simp only [compareWith, reduceCtorEq, Ordering.then_eq_eq] at h
    rw [BinaryOp.rank_injective (Std.LawfulEqOrd.eq_of_compare h.1), ihl h.2.1, ihr h.2.2]

theorem compareWith_lt_trans {f g h : Formula} (hfg : compareWith f g = .lt)
    (hgh : compareWith g h = .lt) : compareWith f h = .lt := by
  induction f generalizing g h with
  | const a =>
    cases g <;> cases h <;> simp only [compareWith, reduceCtorEq] at hfg hgh ⊢
    exact Std.TransCmp.lt_trans hfg hgh
  | var a =>
    cases g <;> cases h <;> simp only [compareWith, reduceCtorEq] at hfg hgh ⊢
    exact Std.TransCmp.lt_trans hfg hgh
  | unary o f ih =>
    cases g <;> cases h <;>
      simp only [compareWith, reduceCtorEq, Ordering.then_eq_lt] at hfg hgh ⊢
    rcases hfg with hop | ⟨hop, hf⟩ <;> rcases hgh with kop | ⟨kop, kf⟩
    · exact Or.inl (Std.TransCmp.lt_trans hop kop)
    · rw [Std.LawfulEqOrd.eq_of_compare kop] at hop
      exact Or.inl hop
    · rw [← Std.LawfulEqOrd.eq_of_compare hop] at kop
      exact Or.inl kop
    · rw [Std.LawfulEqOrd.eq_of_compare hop, kop]
      exact Or.inr ⟨rfl, ih hf kf⟩
  | binary o l r ihl ihr =>
    cases g <;> cases h <;>
      simp only [compareWith, reduceCtorEq, Ordering.then_eq_lt] at hfg hgh ⊢
    rcases hfg with hop | ⟨hop, hf⟩ <;> rcases hgh with kop | ⟨kop, kf⟩
    · exact Or.inl (Std.TransCmp.lt_trans hop kop)
    · rw [Std.LawfulEqOrd.eq_of_compare kop] at hop
      exact Or.inl hop
    · rw [← Std.LawfulEqOrd.eq_of_compare hop] at kop
      exact Or.inl kop
    · refine Or.inr ⟨by rw [Std.LawfulEqOrd.eq_of_compare hop, kop], ?_⟩
      rcases hf with hl | ⟨hl, hr⟩ <;> rcases kf with kl | ⟨kl, kr⟩
      · exact Or.inl (ihl hl kl)
      · exact Or.inl (eq_of_compareWith kl ▸ hl)
      · exact Or.inl (eq_of_compareWith hl ▸ kl)
      · exact Or.inr ⟨eq_of_compareWith hl ▸ kl, ihr hr kr⟩

instance : Std.LawfulEqOrd Formula where
  compare_self {f} := compareWith_self f
  eq_of_compare := eq_of_compareWith

instance : Std.TransOrd Formula where
  eq_swap {f g} := compareWith_swap f g
  isLE_trans {f g h} hfg hgh := by
    change (compareWith f g).isLE = true at hfg
    change (compareWith g h).isLE = true at hgh
    change (compareWith f h).isLE = true
    cases hf : compareWith f g with
    | lt =>
      cases hg : compareWith g h with
      | lt => rw [compareWith_lt_trans hf hg]; rfl
      | eq => rw [← eq_of_compareWith hg, hf]; rfl
      | gt => rw [hg] at hgh; cases hgh
    | eq => rwa [eq_of_compareWith hf]
    | gt => rw [hf] at hfg; cases hfg

end Formula

end TemporalCheck
