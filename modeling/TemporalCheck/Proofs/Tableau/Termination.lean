import Mathlib.Algebra.Order.BigOperators.Group.List
import Mathlib.Algebra.Order.Ring.Nat
import Mathlib.Data.Finset.Powerset
import Mathlib.Data.Finset.Prod
import Mathlib.Data.List.Perm.Subperm
import Mathlib.Tactic.Ring
import TemporalCheck.Proofs.Fold
import TemporalCheck.Proofs.Tableau.Expansion

/-!
# The expansion ends

Every formula that occurs is part of the formula of the tableau. A node that waits weighs
less with every formula that it commits to, and there are no more committed nodes than
pairs of sets of parts. So each step lowers a potential, nothing waits any more when it is
used up, and the steps that the expansion is given are enough.
-/

namespace TemporalCheck

namespace Formula

variable {f g : Formula}

def parts : Formula → List Formula
  | const b => [const b]
  | var a => [var a]
  | unary op f => unary op f :: f.parts
  | binary op l r => binary op l r :: (l.parts ++ r.parts)

theorem length_parts (f : Formula) : f.parts.length = f.size := by
  induction f with
  | const b => rfl
  | var a => rfl
  | unary op f ih => rw [parts, List.length_cons, ih, size]
  | binary op l r ihl ihr => rw [parts, List.length_cons, List.length_append, ihl, ihr, size]

theorem Subformula.mem_parts (h : Subformula g f) : g ∈ f.parts := by
  induction h with
  | refl => cases g <;> simp [parts]
  | unary op _ ih => exact List.mem_cons_of_mem _ ih
  | left op r _ ih => exact List.mem_cons_of_mem _ (List.mem_append.2 (Or.inl ih))
  | right op l _ ih => exact List.mem_cons_of_mem _ (List.mem_append.2 (Or.inr ih))

theorem subformula_of_mem_parts (h : g ∈ f.parts) : Subformula g f := by
  induction f with
  | const b =>
    rw [List.mem_singleton.1 h]
    exact .refl _
  | var a =>
    rw [List.mem_singleton.1 h]
    exact .refl _
  | unary op f ih =>
    rcases List.mem_cons.1 h with rfl | h
    · exact .refl _
    · exact .unary op (ih h)
  | binary op l r ihl ihr =>
    rcases List.mem_cons.1 h with rfl | h
    · exact .refl _
    · rcases List.mem_append.1 h with h | h
      · exact .left op r (ihl h)
      · exact .right op l (ihr h)

def subformulas (f : Formula) : OrdSet Formula := .ofList f.parts

theorem mem_subformulas : g ∈ f.subformulas ↔ Subformula g f := by
  rw [subformulas, OrdSet.mem_ofList]
  exact ⟨subformula_of_mem_parts, Subformula.mem_parts⟩

theorem size_le_of_subformula {s : OrdSet Formula} (h : ∀ g ∈ s, Subformula g f) :
    s.size ≤ f.size := by
  rw [← length_parts]
  exact (s.nodup_toList.subperm fun g hg => (h g hg).mem_parts).length_le

theorem size_subformulas_le (f : Formula) : f.subformulas.size ≤ f.size :=
  size_le_of_subformula fun _ hg => mem_subformulas.1 hg

end Formula

namespace Tableau

variable {f g : Formula} {t t' : Tableau} {n m : Node} {rest : List Node} {todo : List Formula}

def Node.weight (c : Nat) (n : Node) : Nat := 3 ^ (c - n.old.size) * (n.todo.length + 2)

theorem Node.weight_pos (c : Nat) (n : Node) : 0 < n.weight c :=
  Nat.mul_pos (Nat.pow_pos (by omega)) (by omega)

theorem Node.Sound.size_next_le (h : n.Sound f) : n.next.size ≤ f.size :=
  Formula.size_le_of_subformula fun g hg => h.within g (Or.inr hg)

theorem weight_child_le {way : List Formula × List Formula} (ht : n.Takes g way m)
    (hw : way ∈ g.ways) (hold : g ∉ n.old) (c : Nat) :
    m.weight c ≤ 3 ^ (c - n.old.size - 1) * (n.todo.length + 3) := by
  have hlen := ht.length
  have htwo := Formula.length_le_of_mem_ways hw
  rw [Node.weight, ht.old, OrdSet.size_insert hold, Nat.sub_add_eq]
  exact Nat.mul_le_mul_left _ (by omega)

theorem two_mul_pow_lt (e : Nat) {c : Nat} (hc : 0 < c) :
    2 * (3 ^ e * (c + 3)) < 3 ^ (e + 1) * (c + 2) := by
  calc 2 * (3 ^ e * (c + 3)) = 3 ^ e * (2 * (c + 3)) := by ring
    _ < 3 ^ e * (3 * (c + 2)) := Nat.mul_lt_mul_of_pos_left (by omega) (Nat.pow_pos (by omega))
    _ = 3 ^ (e + 1) * (c + 2) := by ring

theorem sum_weight_children_lt (h : n.Sound f) (hf : f.IsNormal) (hn : n.todo = g :: todo) (k : Nat) :
    (((n.drop.expand g).nodes k).map (Node.weight f.size)).sum < n.weight f.size := by
  have hg : g.Subformula f := h.within g (Or.inl (Or.inr (by simp [hn])))
  have hnormal := hg.isNormal hf
  by_cases hold : g ∈ n.old
  · have hdrop : g ∈ n.drop.old := hold
    rw [Node.nodes_expand hnormal, if_pos hdrop]
    simp only [List.map_cons, List.map_nil, List.sum_cons, List.sum_nil, Nat.add_zero, Node.weight,
      Node.drop, hn, List.tail_cons, List.length_cons]
    exact Nat.mul_lt_mul_of_pos_left (by omega) (Nat.pow_pos (by omega))
  · have hlt : n.old.size < f.size := by
      rw [Nat.lt_iff_add_one_le, ← OrdSet.size_insert hold]
      refine Formula.size_le_of_subformula fun x hx => ?_
      rcases OrdSet.mem_insert.1 hx with rfl | hx
      · exact hg
      · exact h.within x (Or.inl (Or.inl hx))
    have hlength : ((n.drop.expand g).nodes k).length ≤ 2 := by
      simpa using (Node.map_id_nodes_expand hnormal n.drop k).length_le
    have hsum : (((n.drop.expand g).nodes k).map (Node.weight f.size)).sum ≤
        2 * (3 ^ (f.size - n.old.size - 1) * (n.todo.length + 3)) := by
      refine Nat.le_trans (List.sum_le_card_nsmul _
        (3 ^ (f.size - n.old.size - 1) * (n.todo.length + 3)) fun x hx => ?_) ?_
      · obtain ⟨m, hm, rfl⟩ := List.mem_map.1 hx
        rcases Node.child_cases hnormal hn hm with ⟨hmem, -⟩ | ⟨-, -, way, hw, ht⟩
        · exact absurd hmem hold
        · exact weight_child_le ht hw hold f.size
      · rw [List.length_map, Nat.nsmul_eq_mul]
        exact Nat.mul_le_mul_right _ hlength
    have hexp : f.size - n.old.size = f.size - n.old.size - 1 + 1 := by omega
    rw [Node.weight, hexp]
    exact Nat.lt_of_le_of_lt hsum (two_mul_pow_lt _ (by simp [hn]))

def Node.signature (n : Node) : OrdSet Formula × OrdSet Formula := (n.old, n.next)

theorem Sound.nodup_signatures (h : Sound f t) : (t.nodes.map Node.signature).Nodup := by
  refine List.pairwise_map.2 (h.distinct.imp fun {a b} hab he => ?_)
  rw [agrees_iff.2 (Prod.ext_iff.1 he)] at hab
  cases hab

def members (s : OrdSet Formula) : Finset Formula := s.toList.toFinset

theorem mem_members {s : OrdSet Formula} : g ∈ members s ↔ g ∈ s := List.mem_toFinset

theorem members_injective : Function.Injective members := by
  intro s s' h
  refine OrdSet.ext_mem fun g => ?_
  rw [← mem_members, h, mem_members]

/-- The two sets of a signature are sets of subformulas, and no signature is there twice. -/
theorem Sound.length_nodes_le (h : Sound f t) : t.nodes.length ≤ 4 ^ f.subformulas.size := by
  let sets := (members f.subformulas).powerset
  let pairs := (t.nodes.map Node.signature).map (Prod.map members members)
  have hcard : sets.card = 2 ^ f.subformulas.size := by
    rw [Finset.card_powerset, members, List.toFinset_card_of_nodup f.subformulas.nodup_toList]
    rfl
  have subset {s : OrdSet Formula} (hs : ∀ g ∈ s, g.Subformula f) : members s ∈ sets := by
    refine Finset.mem_powerset.2 fun g hg => ?_
    exact mem_members.2 (Formula.mem_subformulas.2 (hs g (mem_members.1 hg)))
  have nodup : pairs.Nodup :=
    h.nodup_signatures.map (members_injective.prodMap members_injective)
  have within : pairs.toFinset ⊆ sets ×ˢ sets := by
    intro x hx
    obtain ⟨s, hs, rfl⟩ := List.mem_map.1 (List.mem_toFinset.1 hx)
    obtain ⟨n, hn, rfl⟩ := List.mem_map.1 hs
    have hsound := h.node n (List.mem_append.2 (Or.inl hn))
    exact Finset.mem_product.2 ⟨subset fun g hg => hsound.within g (Or.inl (Or.inl hg)),
      subset fun g hg => hsound.within g (Or.inr hg)⟩
  calc t.nodes.length = pairs.toFinset.card := by
        rw [List.toFinset_card_of_nodup nodup, List.length_map, List.length_map]
    _ ≤ (sets ×ˢ sets).card := Finset.card_le_card within
    _ = 2 ^ f.subformulas.size * 2 ^ f.subformulas.size := by rw [Finset.card_product, hcard]
    _ = 4 ^ f.subformulas.size := by rw [← Nat.mul_pow]

theorem Sound.length_nodes_le_pow_size (h : Sound f t) : t.nodes.length ≤ 4 ^ f.size :=
  Nat.le_trans h.length_nodes_le (Nat.pow_le_pow_right (by omega) f.size_subformulas_le)

/-- The weight of the nodes that wait, and of those that can still be begun. -/
def potential (f : Formula) (t : Tableau) : Nat :=
  (t.pending.map (Node.weight f.size)).sum +
    (4 ^ f.size - t.nodes.length) * (3 ^ f.size * (f.size + 2))

theorem potential_close_lt (h : Sound f t) (hp : t.pending = n :: rest) (hn : n.todo = []) :
    potential f (t.close n rest) < potential f t := by
  have hpos := n.weight_pos f.size
  have hsound := h.close hp hn
  have hs := h.node n (by simp [all, hp])
  unfold close at hsound ⊢
  split at hsound
  · next ha =>
    rw [if_pos ha]
    simp only [potential, hp, List.length_map, List.map_cons, List.sum_cons]
    omega
  · next ha =>
    rw [if_neg ha]
    have hcount := hsound.length_nodes_le_pow_size
    simp only [List.length_append, List.length_singleton] at hcount
    have hseed : (Node.seed t.fresh (.node n.id) n.next.toList).weight f.size ≤
        3 ^ f.size * (f.size + 2) := by
      have hlen : n.next.toList.length ≤ f.size := hs.size_next_le
      simp only [Node.weight, Node.seed, List.length_reverse]
      exact Nat.mul_le_mul (Nat.pow_le_pow_right (by omega) (Nat.sub_le _ _)) (by omega)
    have hsplit : 4 ^ f.size - t.nodes.length = (4 ^ f.size - (t.nodes.length + 1)) + 1 := by omega
    simp only [potential, hp, List.length_append, List.length_singleton, List.map_cons,
      List.sum_cons, hsplit, Nat.add_mul, Nat.one_mul]
    omega

theorem Sound.exists_advance_lt (h : Sound f t) (hf : f.IsNormal) (hp : t.pending = n :: rest) :
    ∃ t', t.advance n rest = .ok t' ∧ Sound f t' ∧ potential f t' < potential f t := by
  obtain ⟨t', hadv, hs⟩ := h.exists_advance hf hp
  refine ⟨t', hadv, hs, ?_⟩
  have hnode := h.node n (by simp [all, hp])
  cases hn : n.todo with
  | nil =>
    rw [advance, hn] at hadv
    cases hadv
    exact potential_close_lt h hp hn
  | cons g todo =>
    have hg : g.Subformula f := hnode.within g (Or.inl (Or.inr (by simp [hn])))
    obtain ⟨k, -, hstep, -⟩ := advance_cons t rest hn (hg.isNormal hf)
    rw [hstep] at hadv
    cases hadv
    have hlt := sum_weight_children_lt hnode hf hn t.fresh
    simp only [potential, hp, List.map_append, List.sum_append, List.map_cons, List.sum_cons]
    omega

theorem pending_eq_nil (h : potential f t = 0) : t.pending = [] := by
  cases hp : t.pending with
  | nil => rfl
  | cons n rest =>
    have hpos := n.weight_pos f.size
    simp only [potential, hp, List.map_cons, List.sum_cons] at h
    omega

theorem Sound.exists_run (h : Sound f t) (hf : f.IsNormal) (steps : Nat) :
    ∃ t', run steps t = .ok t' ∧ Sound f t' ∧
      (t'.pending = [] ∨ potential f t' + steps ≤ potential f t) := by
  induction steps generalizing t with
  | zero => exact ⟨t, rfl, h, Or.inr (Nat.le_refl _)⟩
  | succ steps ih =>
    rw [run]
    cases hp : t.pending with
    | nil => exact ⟨t, rfl, h, Or.inl hp⟩
    | cons n rest =>
      obtain ⟨s, hadv, hs, hlt⟩ := h.exists_advance_lt hf hp
      obtain ⟨t', hrun, ht', hend⟩ := ih hs
      refine ⟨t', by simp only [hadv]; exact hrun, ht', hend.imp_right fun hle => ?_⟩
      omega

theorem Sound.exists_run_ended (h : Sound f t) (hf : f.IsNormal) {steps : Nat}
    (hle : potential f t ≤ steps) :
    ∃ t', run steps t = .ok t' ∧ Sound f t' ∧ t'.pending = [] := by
  obtain ⟨t', hrun, ht', hend⟩ := h.exists_run hf steps
  refine ⟨t', hrun, ht', ?_⟩
  rcases hend with hend | hlow
  · exact hend
  · exact pending_eq_nil (f := f) (by omega)

theorem run_of_pending_eq_nil (h : t.pending = []) (steps : Nat) : run steps t = .ok t := by
  cases steps with
  | zero => rfl
  | succ steps => rw [run, h]

theorem run_add {steps : Nat} (h : run steps t = .ok t') (more : Nat) :
    run (steps + more) t = run more t' := by
  induction steps generalizing t with
  | zero =>
    cases h
    rw [Nat.zero_add]
  | succ steps ih =>
    rw [Nat.add_right_comm, run]
    rw [run] at h
    cases hp : t.pending with
    | nil =>
      rw [hp] at h
      cases h
      rw [run_of_pending_eq_nil hp]
    | cons n rest =>
      rw [hp] at h
      obtain ⟨s, hadv, hrun⟩ := bind_eq_ok_iff.1 h
      simp only [hadv]
      exact ih hrun

theorem potential_start_le (f : Formula) : potential f (start f) ≤ stepBound f := by
  have hsize : 1 ≤ f.size := by cases f <;> simp [Formula.size]
  have hseed : (Node.seed 0 .entry [f]).weight f.size ≤ 3 ^ f.size * (f.size + 2) := by
    simp only [Node.weight, Node.seed, List.length_reverse, List.length_singleton]
    exact Nat.mul_le_mul (Nat.pow_le_pow_right (by omega) (Nat.sub_le _ _)) (by omega)
  simp only [potential, start, stepBound, List.map_cons, List.map_nil, List.sum_cons, List.sum_nil,
    List.length_nil, Nat.sub_zero, Nat.add_zero, Nat.pow_eq, Nat.add_mul, Nat.one_mul]
  omega

theorem exists_expand (hf : f.IsNormal) :
    ∃ t, expand f = .ok t.nodes ∧ Sound f t ∧ t.pending = [] := by
  obtain ⟨t, hrun, ht, hend⟩ := (sound_start f).exists_run_ended hf (potential_start_le f)
  exact ⟨t, by simp [expand, hrun, bind, Except.bind, pure, Except.pure], ht, hend⟩

/-- The expansion of a formula in normal form goes through step after step. At every moment all
formulas of all nodes are subformulas, and the committed nodes differ in their sets and in their
numbers, so there are no more of them than pairs of sets of subformulas. When the steps that the
expansion is given are done nothing waits, and further steps would change nothing. -/
theorem run_ends_within_subformulas (hf : f.IsNormal) :
    (∀ steps, ∃ t, run steps (start f) = .ok t ∧
      (∀ n ∈ t.nodes ++ t.pending, ∀ g, g ∈ n.todo ∨ g ∈ n.old ∨ g ∈ n.next → g.Subformula f) ∧
      (t.nodes.map fun n => (n.old, n.next)).Nodup ∧ (t.nodes.map Node.id).Nodup ∧
      t.nodes.length ≤ 4 ^ f.subformulas.size) ∧
    ∃ t, t.pending = [] ∧ expand f = .ok t.nodes ∧
      ∀ steps, stepBound f ≤ steps → run steps (start f) = .ok t := by
  constructor
  · intro steps
    obtain ⟨t, hrun, ht, -⟩ := (sound_start f).exists_run hf steps
    have hids : (t.nodes.map Node.id ++ t.pending.map Node.id).Nodup := by
      rw [← List.map_append]
      exact ht.ids
    refine ⟨t, hrun, fun n hn g hg => ?_, ht.nodup_signatures, (List.nodup_append.1 hids).1,
      ht.length_nodes_le⟩
    apply (ht.node n hn).within g
    rcases hg with hg | hg | hg
    · exact Or.inl (Or.inr hg)
    · exact Or.inl (Or.inl hg)
    · exact Or.inr hg
  · obtain ⟨t, hrun, -, hend⟩ := (sound_start f).exists_run_ended hf (potential_start_le f)
    refine ⟨t, hend, bind_eq_ok_iff.2 ⟨t, hrun, rfl⟩, fun steps hle => ?_⟩
    obtain ⟨more, rfl⟩ := Nat.exists_eq_add_of_le hle
    rw [run_add hrun, run_of_pending_eq_nil hend]

def later : Formula := .binary .until (.const true) (.var "p")

def recurring : Formula := .binary .release (.const false) later

/-- One node puts `later` off and the other meets it, and both ask for it again. -/
theorem run_ends_within_subformulas_recurring : recurring.subformulas.size = 5 ∧
    ∃ t, t.pending = [] ∧ expand recurring = .ok t.nodes ∧
      (t.nodes.map fun n => (n.old, n.next)) =
        [(.ofList [recurring, later, .const true], .ofList [recurring, later]),
          (.ofList [recurring, later, .var "p"], .singleton recurring)] ∧
      t.nodes.length ≤ 4 ^ 5 ∧ run (stepBound recurring + 1) (start recurring) = .ok t := by
  have hsize : recurring.subformulas.size = 5 := by decide +kernel
  have hview : ((expand recurring).map fun nodes => nodes.map fun n => (n.old, n.next)) =
      .ok [(.ofList [recurring, later, .const true], .ofList [recurring, later]),
        (.ofList [recurring, later, .var "p"], .singleton recurring)] := by decide +kernel
  have hnormal : recurring.IsNormal := by simp [recurring, later, Formula.IsNormal]
  obtain ⟨hruns, t, hend, hnodes, hrun⟩ := run_ends_within_subformulas hnormal
  obtain ⟨t', hrun', -, -, -, hle⟩ := hruns (stepBound recurring + 1)
  have hlast := hrun (stepBound recurring + 1) (Nat.le_succ _)
  obtain rfl := Except.ok.inj (hlast.symm.trans hrun')
  rw [hnodes] at hview
  rw [hsize] at hle
  exact ⟨hsize, t, hend, hnodes, Except.ok.inj hview, hle, hlast⟩

end Tableau

end TemporalCheck
