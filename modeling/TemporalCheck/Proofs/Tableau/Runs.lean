import TemporalCheck.Proofs.Recurrence
import TemporalCheck.Proofs.Tableau.Expansion
import TemporalCheck.Proofs.Tableau.Letters

/-!
# Runs through the nodes

A run goes from the entry through committed nodes whose literals the word meets. It is
fair when no until is asked for from some position on without reaching its goal. The
words with a fair run are the words of which the formula is true.
-/

namespace TemporalCheck.Tableau

variable {f g : Formula} {t : Tableau} {n m : Node} {w : Word Letter} {ρ : Nat → Node}

structure NodeRun (nodes : List Node) (w : Word Letter) (ρ : Nat → Node) : Prop where
  mem : ∀ i, ρ i ∈ nodes
  start : .entry ∈ (ρ 0).incoming
  step : ∀ i, .node (ρ i).id ∈ (ρ (i + 1)).incoming
  admits : ∀ i, (ρ i).Admits (w i)

def Fair (ρ : Nat → Node) : Prop :=
  ∀ l r, Often fun i => .binary .until l r ∉ (ρ i).old ∨ r ∈ (ρ i).old

theorem Sound.asks_iff (h : Sound f t) (hn : n ∈ t.nodes) : n.Asks g ↔ g ∈ n.old := by
  simp [Node.Asks, h.finished n hn]

theorem Sound.node_of_mem (h : Sound f t) (hn : n ∈ t.nodes) : n.Sound f :=
  h.node n (List.mem_append.2 (Or.inl hn))

theorem Sound.eq_of_id_eq (h : Sound f t) (hn : n ∈ t.nodes) (hm : m ∈ t.nodes)
    (he : n.id = m.id) : n = m := by
  have hids := h.ids
  rw [all, List.map_append] at hids
  exact List.inj_on_of_nodup_map (List.Nodup.of_append_left hids) hn hm he

theorem Sound.mem_old_of_entry (h : Sound f t) (hn : n ∈ t.nodes) (ho : .entry ∈ n.incoming) :
    f ∈ n.old := by
  obtain ⟨l, hd, hl⟩ := h.demand n (List.mem_append.2 (Or.inl hn)) _ ho
  cases hd
  exact (h.asks_iff hn).1 (hl f (List.mem_singleton.2 rfl))

theorem Sound.mem_old_of_step (h : Sound f t) (hn : n ∈ t.nodes) (hm : m ∈ t.nodes)
    (ho : .node n.id ∈ m.incoming) (hg : g ∈ n.next) : g ∈ m.old := by
  obtain ⟨l, hd, hl⟩ := h.demand m (List.mem_append.2 (Or.inl hm)) _ ho
  generalize he : Origin.node n.id = o at hd
  cases hd with
  | entry => cases he
  | @node k hk =>
    obtain rfl := h.eq_of_id_eq hn hk (Origin.node.inj he)
    exact (h.asks_iff hm).1 (hl g hg)

namespace NodeRun

theorem carry (hr : NodeRun t.nodes w ρ) (h : Sound f t) {i : Nat} (hg : g ∈ (ρ i).next) :
    g ∈ (ρ (i + 1)).old :=
  h.mem_old_of_step (hr.mem i) (hr.mem (i + 1)) (hr.step i) hg

theorem supports (hr : NodeRun t.nodes w ρ) (h : Sound f t) {i : Nat} (hg : g ∈ (ρ i).old) :
    ∃ way ∈ g.ways, (∀ x ∈ way.1, x ∈ (ρ i).old) ∧ ∀ x ∈ way.2, x ∈ (ρ (i + 1)).old := by
  obtain ⟨way, hw, hnow, hlater⟩ := (h.node_of_mem (hr.mem i)).supports g hg
  exact ⟨way, hw, fun x hx => (h.asks_iff (hr.mem i)).1 (hnow x hx),
    fun x hx => hr.carry h (hlater x hx)⟩

theorem holds_until (hr : NodeRun t.nodes w ρ) (h : Sound f t) {l r : Formula}
    (hl : ∀ i, l ∈ (ρ i).old → l.Holds w i) (hrt : ∀ i, r ∈ (ρ i).old → r.Holds w i)
    (d : Nat) : ∀ i, .binary .until l r ∈ (ρ i).old →
      .binary .until l r ∉ (ρ (i + d)).old ∨ r ∈ (ρ (i + d)).old →
        (Formula.binary .until l r).Holds w i := by
  induction d with
  | zero =>
    intro i hu hd
    apply Formula.holds_until_iff.2
    exact Or.inl (hrt i (hd.resolve_left fun hn => hn hu))
  | succ d ih =>
    intro i hu hd
    apply Formula.holds_until_iff.2
    obtain ⟨way, hw, hnow, hlater⟩ := hr.supports h hu
    simp only [Formula.ways, List.mem_cons, List.not_mem_nil, or_false] at hw
    rcases hw with rfl | rfl
    · have hnext := hlater _ (List.mem_singleton.2 rfl)
      have he : i + (d + 1) = i + 1 + d := by omega
      rw [he] at hd
      exact Or.inr ⟨hl i (hnow l (List.mem_singleton.2 rfl)), ih (i + 1) hnext hd⟩
    · exact Or.inl (hrt i (hnow r (List.mem_singleton.2 rfl)))

theorem holds_release (hr : NodeRun t.nodes w ρ) (h : Sound f t) {l r : Formula}
    (hl : ∀ i, l ∈ (ρ i).old → l.Holds w i) (hrt : ∀ i, r ∈ (ρ i).old → r.Holds w i)
    (d : Nat) : ∀ i, .binary .release l r ∈ (ρ i).old →
      r.Holds w (i + d) ∨ ∃ j, i ≤ j ∧ j < i + d ∧ l.Holds w j := by
  induction d with
  | zero =>
    intro i hu
    obtain ⟨way, hw, hnow, -⟩ := hr.supports h hu
    simp only [Formula.ways, List.mem_cons, List.not_mem_nil, or_false] at hw
    rcases hw with rfl | rfl
    · exact Or.inl (hrt i (hnow r (by simp)))
    · exact Or.inl (hrt i (hnow r (by simp)))
  | succ d ih =>
    intro i hu
    obtain ⟨way, hw, hnow, hlater⟩ := hr.supports h hu
    simp only [Formula.ways, List.mem_cons, List.not_mem_nil, or_false] at hw
    rcases hw with rfl | rfl
    · have he : i + (d + 1) = i + 1 + d := by omega
      rw [he]
      rcases ih (i + 1) (hlater _ (List.mem_singleton.2 rfl)) with hd | ⟨j, hij, hjd, hj⟩
      · exact Or.inl hd
      · exact Or.inr ⟨j, by omega, hjd, hj⟩
    · exact Or.inr ⟨i, Nat.le_refl i, by omega, hl i (hnow l (by simp))⟩

theorem holds_of_mem_old (hr : NodeRun t.nodes w ρ) (h : Sound f t) (hf : Fair ρ) (g : Formula) :
    ∀ i, g ∈ (ρ i).old → g.Holds w i := by
  -- Each case asks for the parts of one way only, so the induction is on the formula.
  induction g with
  | const b =>
    intro i hg
    have hc := (h.node_of_mem (hr.mem i)).consistent _ hg
    cases b with
    | true => rfl
    | false => simp [Node.contradicts] at hc
  | var a =>
    intro i hg
    exact (hr.admits i).1 a hg
  | unary op g ih =>
    intro i hg
    obtain ⟨way, hw, -, hlater⟩ := hr.supports h hg
    cases op with
    | not =>
      cases g with
      | var a => exact (hr.admits i).2 a hg
      | _ => cases hw
    | next =>
      rw [List.mem_singleton.1 hw] at hlater
      exact ih (i + 1) (hlater g (List.mem_singleton.2 rfl))
    | always => cases hw
    | eventually => cases hw
  | binary op l r ihl ihr =>
    intro i hg
    cases op with
    | and =>
      obtain ⟨way, hw, hnow, -⟩ := hr.supports h hg
      rw [List.mem_singleton.1 hw] at hnow
      exact ⟨ihl i (hnow l (by simp)), ihr i (hnow r (by simp))⟩
    | or =>
      obtain ⟨way, hw, hnow, -⟩ := hr.supports h hg
      simp only [Formula.ways, List.mem_cons, List.not_mem_nil, or_false] at hw
      rcases hw with rfl | rfl
      · exact Or.inl (ihl i (hnow l (by simp)))
      · exact Or.inr (ihr i (hnow r (by simp)))
    | implies =>
      obtain ⟨way, hw, -⟩ := hr.supports h hg
      cases hw
    | «until» =>
      obtain ⟨j, hj, hgoal⟩ := hf l r i
      have he : i + (j - i) = j := by omega
      exact hr.holds_until h ihl ihr (j - i) i hg (by rwa [he])
    | release =>
      intro k hk
      have he : i + (k - i) = k := by omega
      have hd := hr.holds_release h ihl ihr (k - i) i hg
      rwa [he] at hd

end NodeRun

theorem Node.Fits.admits {i : Nat} (h : n.Fits w i) : n.Admits (w i) :=
  ⟨fun _ ha => h.now _ (Or.inl ha), fun _ ha => h.now _ (Or.inl ha)⟩

theorem Sound.exists_nodeRun (h : Sound f t) (hend : t.pending = []) (hw : f.Holds w 0) :
    ∃ ρ, NodeRun t.nodes w ρ ∧ ∀ i, (ρ i).Fits w i := by
  have hall : t.all = t.nodes := by rw [all, hend, List.append_nil]
  have covered (o : Origin) (l : List Formula) (hd : Demand f t.nodes o l) (i : Nat)
      (hl : ∀ g ∈ l, g.Holds w i) : ∃ n ∈ t.nodes, o ∈ n.incoming ∧ n.Fits w i := by
    rw [← hall]
    exact h.covered o l hd w i hl
  obtain ⟨n, hn, ho, hfit⟩ := covered .entry [f] .entry 0 fun g hg => List.mem_singleton.1 hg ▸ hw
  obtain ⟨ρ, hρ0, hρ, hstep⟩ := exists_sequence
    (P := fun i n => n ∈ t.nodes ∧ n.Fits w i)
    (R := fun _ n m => .node n.id ∈ m.incoming) (a := n) ⟨hn, hfit⟩ fun i n hn => by
      obtain ⟨m, hm, ho, hfit⟩ := covered (.node n.id) n.next.toList (.node hn.1) (i + 1) hn.2.later
      exact ⟨m, ho, hm, hfit⟩
  refine ⟨ρ, ⟨fun i => (hρ i).1, ?_, hstep, fun i => (hρ i).2.admits⟩, fun i => (hρ i).2⟩
  rw [hρ0]
  exact ho

theorem Sound.fair_of_fits (h : Sound f t) (hm : ∀ i, ρ i ∈ t.nodes) (hfit : ∀ i, (ρ i).Fits w i) :
    Fair ρ := by
  intro l r i
  by_cases hu : .binary .until l r ∈ (ρ i).old
  · obtain ⟨k, hk, hr, -⟩ := (hfit i).now _ (Or.inl hu)
    refine ⟨k, hk, ?_⟩
    by_cases huk : .binary .until l r ∈ (ρ k).old
    · exact Or.inr ((h.asks_iff (hm k)).1 ((hfit k).goal l r huk hr))
    · exact Or.inl huk
  · exact ⟨i, Nat.le_refl i, Or.inl hu⟩

theorem Sound.exists_fair_nodeRun_iff (h : Sound f t) (hend : t.pending = []) :
    (∃ ρ, NodeRun t.nodes w ρ ∧ Fair ρ) ↔ f.Satisfies w := by
  constructor
  · intro hρ
    obtain ⟨ρ, hr, hf⟩ := hρ
    apply hr.holds_of_mem_old h hf
    exact h.mem_old_of_entry (hr.mem 0) hr.start
  · intro hw
    obtain ⟨ρ, hr, hfit⟩ := h.exists_nodeRun hend hw
    exact ⟨ρ, hr, h.fair_of_fits hr.mem hfit⟩

end TemporalCheck.Tableau
