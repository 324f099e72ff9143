import TemporalCheck.Proofs.Tableau.Runs
import TemporalCheck.Proofs.Tableau.Termination

/-!
# Committed nodes are saturated and linked

A node that waits has looked at some of its formulas only, so what holds of it at every moment
speaks of all that it asks for. A committed node has nothing left to look at, and there the same
facts say that its formulas support each other. Every node is begun from the entry or from a
committed node, and joining adds origins only, so the links lead back to the entry.
-/

namespace TemporalCheck.Tableau

variable {f g x : Formula} {t t' : Tableau} {n m : Node} {rest nodes : List Node}
  {todo : List Formula}

/-- A formula that the node commits to puts `g` off, in a way that the node has taken. -/
def Node.Arises (n : Node) (g : Formula) : Prop :=
  ∃ x ∈ n.old, ∃ way ∈ x.ways, g ∈ way.2 ∧ ∀ y ∈ way.1, n.Asks y

theorem Node.Takes.arises {way : List Formula × List Formula} (ht : n.Takes g way m)
    (hx : n.Arises x) : m.Arises x := by
  obtain ⟨y, hy, v, hv, hxv, hnow⟩ := hx
  refine ⟨y, ?_, v, hv, hxv, fun z hz => (ht.asks z).2 (Or.inl (hnow z hz))⟩
  rw [ht.old]
  exact OrdSet.mem_insert.2 (Or.inr hy)

theorem Node.arises_child (hg : g.IsNormal) (hn : n.todo = g :: todo)
    (h : ∀ x ∈ n.next, n.Arises x) {k : Nat} (hm : m ∈ (n.drop.expand g).nodes k) :
    ∀ x ∈ m.next, m.Arises x := by
  intro x hx
  rcases child_cases hg hn hm with ⟨-, ht⟩ | ⟨-, -, way, hw, ht⟩
  · have hold : x ∈ n.next := ((ht.next x).1 hx).resolve_right List.not_mem_nil
    exact ht.arises (h x hold)
  · rcases (ht.next x).1 hx with hx | hx
    · exact ht.arises (h x hx)
    · refine ⟨g, ?_, way, hw, hx, fun y hy => (ht.asks y).2 (Or.inr hy)⟩
      rw [ht.old]
      exact OrdSet.mem_insert.2 (Or.inl rfl)

theorem later_cases {way : List Formula × List Formula} (hw : way ∈ x.ways) (hg : g ∈ way.2) :
    x = .unary .next g ∨ (∃ a b, g = .binary .until a b ∧ x = g ∧ a ∈ way.1) ∨
      ∃ a b, g = .binary .release a b ∧ x = g ∧ b ∈ way.1 := by
  fun_cases Formula.ways x <;>
    simp only [Formula.ways, List.mem_cons, List.not_mem_nil, or_false] at hw
  · subst hw; cases hg
  · subst hw; cases hg
  · subst hw; cases hg
  · subst hw
    rw [List.mem_singleton.1 hg]
    exact Or.inl rfl
  · subst hw; cases hg
  · rcases hw with rfl | rfl <;> cases hg
  · next a b =>
    rcases hw with rfl | rfl
    · rw [List.mem_singleton.1 hg]
      exact Or.inr (Or.inl ⟨a, b, rfl, rfl, List.mem_cons_self⟩)
    · cases hg
  · next a b =>
    rcases hw with rfl | rfl
    · rw [List.mem_singleton.1 hg]
      exact Or.inr (Or.inr ⟨a, b, rfl, rfl, List.mem_cons_self⟩)
    · cases hg

/-- The origins of the node lead back to the entry, through nodes of the list. -/
inductive Reached (nodes : List Node) : Node → Prop
  | entry {n : Node} (hn : n ∈ nodes) (ho : .entry ∈ n.incoming) : Reached nodes n
  | step {m n : Node} (hm : Reached nodes m) (hn : n ∈ nodes) (ho : .node m.id ∈ n.incoming) :
      Reached nodes n

theorem Reached.append (h : Reached nodes n) (added : List Node) : Reached (nodes ++ added) n := by
  induction h with
  | entry hn ho => exact .entry (List.mem_append.2 (Or.inl hn)) ho
  | step _ hn ho ih => exact .step ih (List.mem_append.2 (Or.inl hn)) ho

theorem Reached.absorb (h : Reached nodes m) (n : Node) :
    Reached (nodes.map (absorb n)) (absorb n m) := by
  have kept {m : Node} {o : Origin} (ho : o ∈ m.incoming) : o ∈ (Tableau.absorb n m).incoming := by
    obtain ⟨incoming, he, hin⟩ := absorb_eq n m
    rw [he]
    exact (hin o).2 (Or.inl ho)
  induction h with
  | entry hn ho => exact .entry (List.mem_map_of_mem hn) (kept ho)
  | @step k m _ hm ho ih =>
    refine .step ih (List.mem_map_of_mem hm) ?_
    rw [(absorb_fields n k).1]
    exact kept ho

theorem Sound.reached_commit (h : Sound f t) (hr : ∀ m ∈ t.nodes, Reached t.nodes m)
    (hn : n ∈ t.all) (hin : n.incoming ≠ []) : Reached (t.nodes ++ [n]) n := by
  have hmem : n ∈ t.nodes ++ [n] := List.mem_append.2 (Or.inr List.mem_cons_self)
  obtain ⟨o, ho⟩ := List.exists_mem_of_ne_nil n.incoming hin
  obtain ⟨l, hd, -⟩ := h.demand n hn o ho
  cases hd with
  | entry => exact .entry hmem ho
  | @node m hm => exact .step ((hr m hm).append [n]) hmem ho

structure Rooted (t : Tableau) : Prop where
  arises : ∀ n ∈ t.all, ∀ g ∈ n.next, n.Arises g
  incoming : ∀ n ∈ t.all, n.incoming ≠ []
  reached : ∀ n ∈ t.nodes, Reached t.nodes n

theorem arises_seed {k : Nat} {o : Origin} {l : List Formula} :
    ∀ g ∈ (Node.seed k o l).next, (Node.seed k o l).Arises g :=
  fun g hg => absurd hg (OrdSet.not_mem_empty g)

theorem rooted_start (f : Formula) : Rooted (start f) := by
  refine ⟨fun n hn => ?_, fun n hn => ?_, nofun⟩
  · rw [List.mem_singleton.1 hn]
    exact arises_seed
  · rw [List.mem_singleton.1 hn]
    exact List.cons_ne_nil _ _

theorem Rooted.expand (h : Rooted t) (hp : t.pending = n :: rest) (hn : n.todo = g :: todo)
    (hg : g.IsNormal) (k : Nat) :
    Rooted ⟨t.nodes, (n.drop.expand g).nodes t.fresh ++ rest, k⟩ := by
  have hn' : n ∈ t.all := by simp [all, hp]
  refine ⟨fun m hm => ?_, fun m hm => ?_, h.reached⟩
  · rcases mem_expand_cases hp hm with hm | hm
    · exact h.arises m hm
    · exact Node.arises_child hg hn (h.arises n hn') hm
  · rcases mem_expand_cases hp hm with hm | hm
    · exact h.incoming m hm
    · rw [(child_keeps hg hn hm).1]
      exact h.incoming n hn'

theorem Rooted.join (h : Rooted t) (hp : t.pending = n :: rest) :
    Rooted ⟨t.nodes.map (absorb n), rest, t.fresh⟩ := by
  have inNodes {m : Node} (hm : m ∈ t.nodes) : m ∈ t.all := List.mem_append.2 (Or.inl hm)
  have inRest {m : Node} (hm : m ∈ rest) : m ∈ t.all := by simp [all, hp, hm]
  refine ⟨fun m hm => ?_, fun m hm => ?_, fun m hm => ?_⟩
  · rcases List.mem_append.1 hm with hm | hm
    · obtain ⟨c, hc, rfl⟩ := List.mem_map.1 hm
      obtain ⟨incoming, he, -⟩ := absorb_eq n c
      rw [he]
      exact h.arises c (inNodes hc)
    · exact h.arises m (inRest hm)
  · rcases List.mem_append.1 hm with hm | hm
    · obtain ⟨c, hc, rfl⟩ := List.mem_map.1 hm
      obtain ⟨incoming, he, hin⟩ := absorb_eq n c
      obtain ⟨o, ho⟩ := List.exists_mem_of_ne_nil _ (h.incoming c (inNodes hc))
      rw [he]
      exact List.ne_nil_of_mem ((hin o).2 (Or.inl ho))
    · exact h.incoming m (inRest hm)
  · obtain ⟨c, hc, rfl⟩ := List.mem_map.1 hm
    exact (h.reached c hc).absorb n

theorem Rooted.commit (h : Rooted t) (hs : Sound f t) (hp : t.pending = n :: rest) : Rooted
    ⟨t.nodes ++ [n], .seed t.fresh (.node n.id) n.next.toList :: rest, t.fresh + 1⟩ := by
  have hn : n ∈ t.all := by simp [all, hp]
  refine ⟨fun m hm => ?_, fun m hm => ?_, fun m hm => ?_⟩
  · rcases (mem_commit_iff hp).1 hm with hm | rfl
    · exact h.arises m hm
    · exact arises_seed
  · rcases (mem_commit_iff hp).1 hm with hm | rfl
    · exact h.incoming m hm
    · exact List.cons_ne_nil _ _
  · rcases List.mem_append.1 hm with hm | hm
    · exact (h.reached m hm).append [n]
    · rw [List.mem_singleton.1 hm]
      exact hs.reached_commit h.reached hn (h.incoming n hn)

theorem Rooted.advance (h : Rooted t) (hs : Sound f t) (hf : f.IsNormal)
    (hp : t.pending = n :: rest) (hadv : t.advance n rest = .ok t') : Rooted t' := by
  cases hn : n.todo with
  | nil =>
    rw [Tableau.advance, hn] at hadv
    cases hadv
    unfold close
    split
    · exact h.join hp
    · exact h.commit hs hp
  | cons g todo =>
    have hg : g.Subformula f := by
      refine (hs.node n (by simp [all, hp])).within g (Or.inl (Or.inr ?_))
      simp [hn]
    obtain ⟨k, -, hstep, -⟩ := advance_cons t rest hn (hg.isNormal hf)
    rw [hstep] at hadv
    cases hadv
    exact h.expand hp hn (hg.isNormal hf) k

theorem Rooted.run (h : Rooted t) (hs : Sound f t) (hf : f.IsNormal) {steps : Nat}
    (hrun : run steps t = .ok t') : Rooted t' := by
  induction steps generalizing t with
  | zero =>
    cases hrun
    exact h
  | succ steps ih =>
    rw [Tableau.run] at hrun
    cases hp : t.pending with
    | nil =>
      rw [hp] at hrun
      cases hrun
      exact h
    | cons n rest =>
      rw [hp] at hrun
      obtain ⟨s, hadv, hrun⟩ := bind_eq_ok_iff.1 hrun
      obtain ⟨s', hadv', hsound⟩ := hs.exists_advance hf hp
      obtain rfl : s' = s := Except.ok.inj (hadv'.symm.trans hadv)
      exact ih (h.advance hs hf hp hadv) hsound hrun

/-- What a node commits to has no contradiction, holds by other formulas that the node commits
to or puts off, and is the reason for everything that the node puts off. -/
structure Node.Saturated (n : Node) : Prop where
  falsum : .const false ∉ n.old
  literals : ∀ a, .var a ∈ n.old → .unary .not (.var a) ∉ n.old
  conjuncts : ∀ a b, .binary .and a b ∈ n.old → a ∈ n.old ∧ b ∈ n.old
  disjunct : ∀ a b, .binary .or a b ∈ n.old → a ∈ n.old ∨ b ∈ n.old
  unfold_until : ∀ a b, .binary .until a b ∈ n.old →
    b ∈ n.old ∨ a ∈ n.old ∧ .binary .until a b ∈ n.next
  unfold_release : ∀ a b, .binary .release a b ∈ n.old →
    b ∈ n.old ∧ (a ∈ n.old ∨ .binary .release a b ∈ n.next)
  postponed : ∀ a, .unary .next a ∈ n.old → a ∈ n.next
  reason : ∀ g ∈ n.next, .unary .next g ∈ n.old ∨
    (∃ a b, g = .binary .until a b ∧ g ∈ n.old ∧ a ∈ n.old) ∨
      ∃ a b, g = .binary .release a b ∧ g ∈ n.old ∧ b ∈ n.old

/-- An origin is the entry, and then the node commits to the formula of the tableau, or it is a
node of the list, and then the node commits to what that one puts off. -/
structure Linked (f : Formula) (nodes : List Node) : Prop where
  ids : (nodes.map Node.id).Nodup
  origin : ∀ n ∈ nodes, ∀ o ∈ n.incoming, o = .entry ∧ f ∈ n.old ∨
    ∃ m ∈ nodes, o = .node m.id ∧ m.next.Subset n.old
  reached : ∀ n ∈ nodes, Reached nodes n

theorem Sound.exists_way (h : Sound f t) (hn : n ∈ t.nodes) (hg : g ∈ n.old) :
    ∃ way ∈ g.ways, (∀ x ∈ way.1, x ∈ n.old) ∧ ∀ x ∈ way.2, x ∈ n.next := by
  obtain ⟨way, hw, hnow, hlater⟩ := (h.node_of_mem hn).supports g hg
  exact ⟨way, hw, fun x hx => (h.asks_iff hn).1 (hnow x hx), hlater⟩

theorem Sound.falsum_not_mem (h : Sound f t) (hn : n ∈ t.nodes) : .const false ∉ n.old := by
  intro hc
  have hfree := (h.node_of_mem hn).consistent _ hc
  simp [Node.contradicts] at hfree

theorem Sound.unfold_until (h : Sound f t) (hn : n ∈ t.nodes) {a b : Formula}
    (hg : .binary .until a b ∈ n.old) : b ∈ n.old ∨ a ∈ n.old ∧ .binary .until a b ∈ n.next := by
  obtain ⟨way, hw, hnow, hlater⟩ := h.exists_way hn hg
  simp only [Formula.ways, List.mem_cons, List.not_mem_nil, or_false] at hw
  rcases hw with rfl | rfl
  · exact Or.inr ⟨hnow a List.mem_cons_self, hlater _ List.mem_cons_self⟩
  · exact Or.inl (hnow b List.mem_cons_self)

theorem Sound.unfold_release (h : Sound f t) (hn : n ∈ t.nodes) {a b : Formula}
    (hg : .binary .release a b ∈ n.old) :
    b ∈ n.old ∧ (a ∈ n.old ∨ .binary .release a b ∈ n.next) := by
  obtain ⟨way, hw, hnow, hlater⟩ := h.exists_way hn hg
  simp only [Formula.ways, List.mem_cons, List.not_mem_nil, or_false] at hw
  rcases hw with rfl | rfl
  · exact ⟨hnow b (by simp), Or.inr (hlater _ List.mem_cons_self)⟩
  · exact ⟨hnow b (by simp), Or.inl (hnow a (by simp))⟩

theorem Sound.reason (h : Sound f t) (hr : Rooted t) (hn : n ∈ t.nodes) (hg : g ∈ n.next) :
    .unary .next g ∈ n.old ∨ (∃ a b, g = .binary .until a b ∧ g ∈ n.old ∧ a ∈ n.old) ∨
      ∃ a b, g = .binary .release a b ∧ g ∈ n.old ∧ b ∈ n.old := by
  obtain ⟨x, hx, way, hw, hlater, hnow⟩ := hr.arises n (List.mem_append.2 (Or.inl hn)) g hg
  have hold (y : Formula) (hy : y ∈ way.1) : y ∈ n.old := (h.asks_iff hn).1 (hnow y hy)
  rcases later_cases hw hlater with rfl | ⟨a, b, rfl, rfl, ha⟩ | ⟨a, b, rfl, rfl, hb⟩
  · exact Or.inl hx
  · exact Or.inr (Or.inl ⟨a, b, rfl, hx, hold a ha⟩)
  · exact Or.inr (Or.inr ⟨a, b, rfl, hx, hold b hb⟩)

theorem Sound.saturated (h : Sound f t) (hr : Rooted t) (hn : n ∈ t.nodes) : n.Saturated := by
  refine ⟨h.falsum_not_mem hn, fun a ha => (h.node_of_mem hn).not_mem_old_of_var ha,
    fun a b hg => ?_, fun a b hg => ?_, fun a b hg => h.unfold_until hn hg,
    fun a b hg => h.unfold_release hn hg, fun a hg => ?_, fun g hg => h.reason hr hn hg⟩
  · obtain ⟨way, hw, hnow, -⟩ := h.exists_way hn hg
    rw [List.mem_singleton.1 hw] at hnow
    exact ⟨hnow a (by simp), hnow b (by simp)⟩
  · obtain ⟨way, hw, hnow, -⟩ := h.exists_way hn hg
    simp only [Formula.ways, List.mem_cons, List.not_mem_nil, or_false] at hw
    rcases hw with rfl | rfl
    · exact Or.inl (hnow a List.mem_cons_self)
    · exact Or.inr (hnow b List.mem_cons_self)
  · obtain ⟨way, hw, -, hlater⟩ := h.exists_way hn hg
    rw [List.mem_singleton.1 hw] at hlater
    exact hlater a List.mem_cons_self

theorem Sound.linked (h : Sound f t) (hr : Rooted t) : Linked f t.nodes := by
  refine ⟨?_, fun n hn o ho => ?_, hr.reached⟩
  · have hids := h.ids
    rw [all, List.map_append] at hids
    exact List.Nodup.of_append_left hids
  · obtain ⟨l, hd, -⟩ := h.demand n (List.mem_append.2 (Or.inl hn)) o ho
    cases hd with
    | entry => exact Or.inl ⟨rfl, h.mem_old_of_entry hn ho⟩
    | @node m hm => exact Or.inr ⟨m, hm, rfl, fun g hg => h.mem_old_of_step hm hn ho hg⟩

/-- The expansion of a formula in normal form returns nodes each of which is saturated, and whose
links begin at the entry, carry on what is put off and reach every node. -/
theorem expand_saturated_linked (hf : f.IsNormal) :
    ∃ nodes, expand f = .ok nodes ∧ (∀ n ∈ nodes, n.Saturated) ∧ Linked f nodes := by
  obtain ⟨t, hrun, hs, -⟩ := (sound_start f).exists_run_ended hf (potential_start_le f)
  have hr := (rooted_start f).run (sound_start f) hf hrun
  exact ⟨t.nodes, bind_eq_ok_iff.2 ⟨t, hrun, rfl⟩, fun n hn => hs.saturated hr hn, hs.linked hr⟩

def barred : Formula := .binary .release (.var "q") (.unary .not (.var "q"))

def patient : Formula :=
  .binary .and (.binary .until (.var "p") (.var "q")) (.binary .or (.unary .next (.var "p")) barred)

theorem expand_saturated_linked_patient : ∃ nodes, expand patient = .ok nodes ∧
    nodes.length = 9 ∧ nodes.countP (fun n => n.old.contains barred) = 2 ∧ Linked patient nodes ∧
      ∀ n ∈ nodes, barred ∈ n.old → .var "q" ∉ n.old ∧ barred ∈ n.next := by
  have hcount : (expand patient).map (fun nodes =>
      (nodes.length, nodes.countP fun n => n.old.contains barred)) = .ok (9, 2) := by
    decide +kernel
  have hnormal : patient.IsNormal := by simp [patient, barred, Formula.IsNormal]
  obtain ⟨nodes, hnodes, hsaturated, hlinked⟩ := expand_saturated_linked hnormal
  rw [hnodes] at hcount
  obtain ⟨hlength, hbarred⟩ := Prod.mk.inj (Except.ok.inj hcount)
  refine ⟨nodes, hnodes, hlength, hbarred, hlinked, fun n hn hb => ?_⟩
  obtain ⟨hnot, hlater⟩ := (hsaturated n hn).unfold_release _ _ hb
  have hq : .var "q" ∉ n.old := fun hq => (hsaturated n hn).literals "q" hq hnot
  exact ⟨hq, hlater.resolve_left hq⟩

end TemporalCheck.Tableau
