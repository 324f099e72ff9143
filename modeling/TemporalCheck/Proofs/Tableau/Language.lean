import Mathlib.Tactic.Choose
import TemporalCheck.Proofs.Labels
import TemporalCheck.Proofs.Tableau.Runs
import TemporalCheck.Proofs.Tableau.Termination
import TemporalCheck.Proofs.WellFormed

/-!
# The automaton of a formula

The states are the entry and the committed nodes, under different labels, so the runs of
the automaton are the runs through the nodes. The final sets recur exactly when the run is
fair. The automaton accepts the words over the names of the formula of which the formula
is true.
-/

namespace TemporalCheck

namespace Builder

variable {σ δ : Type} [Ord σ] [Std.TransOrd σ] [Std.LawfulEqOrd σ] [DecidableEq σ]

theorem exists_extendFinals (labels : OrdSet String) (family : List (OrdSet String)) :
    ∃ family', extendFinals labels (.generalized family) = .generalized family' ∧
      ∀ s, s ∈ family' ↔ s ∈ family ∨ s = labels := by
  rw [extendFinals]
  split
  · next hm =>
    refine ⟨family, rfl, fun s => ⟨Or.inl, fun hs => ?_⟩⟩
    rcases hs with hs | rfl
    · exact hs
    · exact hm
  · exact ⟨family ++ [labels], rfl, by simp⟩

theorem foldlM_addFinals {l : List (OrdSet String)} {b c : Builder σ δ}
    {family : List (OrdSet String)} (hb : b.acceptance = .generalized family)
    (h : l.foldlM addFinals b = .ok c) : c.states = b.states ∧ c.rows = b.rows ∧
      (Reachable b → Reachable c) ∧ ∀ s, s ∈ c.finalSets ↔ s ∈ family ∨ s ∈ l := by
  induction l generalizing b family with
  | nil =>
    cases h
    refine ⟨rfl, rfl, id, fun s => ?_⟩
    simp [Automaton.finalSets, hb, Acceptance.sets]
  | cons labels l ih =>
    obtain ⟨d, hd, hc⟩ := foldlM_cons_eq_ok_iff.1 h
    obtain ⟨-, rfl⟩ := addFinals_eq_ok_iff.1 hd
    obtain ⟨family', hacc, hmem⟩ := exists_extendFinals labels family
    rw [← hb] at hacc
    obtain ⟨hs, hr, hreach, hfinal⟩ := ih hacc hc
    refine ⟨hs, hr, fun hb => hreach (.addFinals hb hd), fun s => ?_⟩
    rw [hfinal, hmem, List.mem_cons, or_assoc]

end Builder

namespace Tableau

variable {f g : Formula} {t : Tableau} {n : Node} {nodes : List Node} {w : Word Letter}
  {ρ : Nat → Node}

theorem mem_untils {u goal : Formula} : (u, goal) ∈ untils nodes ↔
    ∃ l, u = .binary .until l goal ∧ ∃ n ∈ nodes, u ∈ n.old := by
  simp only [untils, List.mem_filterMap, ← OrdSet.mem_def, OrdSet.mem_ofList, List.mem_flatMap]
  constructor
  · intro h
    obtain ⟨g, hg, he⟩ := h
    split at he
    · cases he
      exact ⟨_, rfl, hg⟩
    · cases he
  · intro h
    obtain ⟨l, rfl, hu⟩ := h
    exact ⟨_, hu, rfl⟩

theorem Sound.label_mem_labels_iff (h : Sound f t) (hn : n ∈ t.nodes) {p : Node → Bool} :
    n.label ∈ labels (t.nodes.filter p) ↔ p n = true := by
  simp only [labels, OrdSet.mem_ofList, List.mem_map, List.mem_filter]
  constructor
  · intro hl
    obtain ⟨m, ⟨hm, hp⟩, he⟩ := hl
    rwa [← h.eq_of_id_eq hm hn (toString_nat_inj he)]
  · intro hp
    exact ⟨n, ⟨hn, hp⟩, rfl⟩

theorem Sound.forall_finalSets_often_iff (h : Sound f t) (hρ : ∀ i, ρ i ∈ t.nodes) :
    (∀ s ∈ finalSets t.nodes, Often fun i => (ρ i).label ∈ s) ↔ Fair ρ := by
  have hne : t.nodes.isEmpty = false := by
    cases hn : t.nodes with
    | nil => simpa [hn] using hρ 0
    | cons n l => rfl
  have visited (u goal : Formula) : (Often fun i => (ρ i).label ∈ labels
      (t.nodes.filter fun n => !n.old.contains u || n.old.contains goal)) ↔
        Often fun i => u ∉ (ρ i).old ∨ goal ∈ (ρ i).old := by
    simp only [h.label_mem_labels_iff (hρ _), Bool.or_eq_true, Bool.not_eq_true',
      ← Bool.not_eq_true, OrdSet.contains_iff]
  have absent (l r : Formula) (hu : (.binary .until l r, r) ∉ untils t.nodes) :
      Often fun i => .binary .until l r ∉ (ρ i).old ∨ r ∈ (ρ i).old := by
    intro i
    refine ⟨i, Nat.le_refl i, Or.inl fun hm => hu ?_⟩
    exact mem_untils.2 ⟨l, rfl, ρ i, hρ i, hm⟩
  rw [finalSets, hne, if_neg Bool.false_ne_true]
  cases hu : untils t.nodes with
  | nil =>
    constructor
    · intro _ l r
      apply absent l r
      simp [hu]
    · intro _ s hs i
      rw [List.mem_singleton.1 hs]
      refine ⟨i, Nat.le_refl i, ?_⟩
      exact OrdSet.mem_ofList.2 (List.mem_map_of_mem (hρ i))
  | cons u us =>
    simp only [← hu, List.forall_mem_map, visited]
    constructor
    · intro hall l r
      by_cases hm : (.binary .until l r, r) ∈ untils t.nodes
      · exact hall _ hm
      · exact absent l r hm
    · intro hf v hv
      obtain ⟨l, he, -⟩ := mem_untils.1 (Prod.mk.eta (p := v) ▸ hv)
      rw [he]
      exact hf l v.2

structure Presents (f : Formula) (nodes : List Node) (A : Automaton Letter (List Formula)) :
    Prop where
  initial : ∀ p, A.Initial p ↔ p = Origin.entry.label
  edge : ∀ p a q, A.Edge p a q ↔ ∃ n ∈ nodes, ∃ o ∈ n.incoming,
    p = o.label ∧ q = n.label ∧ a.Subset f.names ∧ n.Admits a
  finals : ∀ s, s ∈ A.finalSets ↔ s ∈ finalSets nodes

def visited (ρ : Nat → Node) : Nat → String :=
  enter Origin.entry.label fun i => (ρ i).label

namespace Presents

variable {A : Automaton Letter (List Formula)}

theorem run_visited (hA : Presents f nodes A) (hw : ∀ i, (w i).Subset f.names)
    (hr : NodeRun nodes w ρ) : A.Run w (visited ρ) := by
  refine ⟨(hA.initial _).2 rfl, fun i => (hA.edge _ _ _).2 ?_⟩
  cases i with
  | zero => exact ⟨ρ 0, hr.mem 0, .entry, hr.start, rfl, rfl, hw 0, hr.admits 0⟩
  | succ i => exact ⟨ρ (i + 1), hr.mem _, .node (ρ i).id, hr.step i, rfl, rfl, hw _, hr.admits _⟩

theorem exists_nodeRun_of_run (hA : Presents f nodes A) {r : Nat → String} (hr : A.Run w r) :
    ∃ ρ, NodeRun nodes w ρ ∧ (∀ i, (w i).Subset f.names) ∧ ∀ i, r (i + 1) = (ρ i).label := by
  have step (i : Nat) := (hA.edge _ _ _).1 (hr.edge i)
  choose ρ hmem o ho hsource htarget hsub hadm using step
  refine ⟨ρ, ⟨hmem, ?_, fun i => ?_, hadm⟩, hsub, htarget⟩
  · have hentry : (o 0).label = Origin.entry.label := by
      rw [← hsource 0]
      exact (hA.initial _).1 hr.initial
    exact Origin.label_inj hentry ▸ ho 0
  · have hnode : (o (i + 1)).label = (Origin.node (ρ i).id).label := by
      rw [← hsource (i + 1), htarget i]
      rfl
    exact Origin.label_inj hnode ▸ ho (i + 1)

theorem accepts_iff (hA : Presents f t.nodes A) (h : Sound f t) (hend : t.pending = []) :
    A.Accepts w ↔ (∀ i, (w i).Subset f.names) ∧ f.Satisfies w := by
  rw [← h.exists_fair_nodeRun_iff hend]
  constructor
  · intro hw
    obtain ⟨r, hr, hf⟩ := hw
    obtain ⟨ρ, hρ, hsub, hlabel⟩ := hA.exists_nodeRun_of_run hr
    refine ⟨hsub, ρ, hρ, (h.forall_finalSets_often_iff hρ.mem).1 fun s hs => ?_⟩
    simp only [← hlabel]
    exact often_shift.2 (hf s ((hA.finals s).2 hs))
  · intro hw
    obtain ⟨hsub, ρ, hρ, hfair⟩ := hw
    refine ⟨visited ρ, hA.run_visited hsub hρ, fun s hs => ?_⟩
    apply often_shift.1
    exact (h.forall_finalSets_often_iff hρ.mem).2 hfair s ((hA.finals s).1 hs)

theorem not_accepts (hA : Presents f nodes A) (hempty : A.finalSets = []) : ¬ A.Accepts w := by
  intro hw
  obtain ⟨r, hr, -⟩ := hw
  obtain ⟨ρ, hρ, -⟩ := hA.exists_nodeRun_of_run hr
  have hfinal := hA.finals
  simp only [hempty, List.not_mem_nil, false_iff] at hfinal
  have hnil : finalSets nodes = [] := List.eq_nil_iff_forall_not_mem.2 hfinal
  unfold finalSets at hnil
  split at hnil
  · next hn =>
    rw [List.isEmpty_iff.1 hn] at hρ
    exact List.not_mem_nil (hρ.mem 0)
  · split at hnil
    · cases hnil
    · next us hus => exact hus (List.map_eq_nil_iff.1 hnil)

end Presents

theorem Sound.states_inj (h : Sound f t) :
    ∀ s ∈ states t.nodes, ∀ s' ∈ states t.nodes, s.label = s'.label → s = s' := by
  have origin (s : State (List Formula)) (hs : s ∈ states t.nodes) :
      s = ⟨Origin.entry.label, true, none⟩ ∨
        ∃ n ∈ t.nodes, s = ⟨(Origin.node n.id).label, false, some n.old.toList⟩ := by
    rcases List.mem_cons.1 hs with hs | hs
    · exact Or.inl hs
    · obtain ⟨n, hn, rfl⟩ := List.mem_map.1 hs
      exact Or.inr ⟨n, hn, rfl⟩
  intro s hs s' hs' he
  rcases origin s hs with rfl | ⟨n, hn, rfl⟩ <;> rcases origin s' hs' with rfl | ⟨m, hm, rfl⟩
  · rfl
  · exact absurd (Origin.label_inj (a := .entry) (b := .node m.id) he) nofun
  · exact absurd (Origin.label_inj (a := .node n.id) (b := .entry) he) nofun
  · rw [h.eq_of_id_eq hn hm (Origin.node.inj (Origin.label_inj he))]

theorem Sound.initial_addStates (h : Sound f t) {b : Builder Letter (List Formula)}
    (hb : ∀ p, b.hasState p = false) {p : String} :
    (b.addStates (states t.nodes)).Initial p ↔ p = Origin.entry.label := by
  have stored {s : State (List Formula)} (hs : s ∈ states t.nodes) :
      (b.addStates (states t.nodes)).state? s.label = some s :=
    Builder.state?_addStates_of_mem h.states_inj hs
  constructor
  · intro hp
    obtain ⟨s, hs, hi⟩ := hp
    rcases Builder.hasState_addStates.1 (Automaton.hasState_iff.2 ⟨s, hs⟩) with hn | ⟨s', hs', rfl⟩
    · rw [hb] at hn
      cases hn
    · rw [stored hs'] at hs
      cases hs
      rcases List.mem_cons.1 hs' with rfl | hs'
      · rfl
      · obtain ⟨n, -, rfl⟩ := List.mem_map.1 hs'
        cases hi
  · intro hp
    subst hp
    exact ⟨_, stored List.mem_cons_self, rfl⟩

theorem extends_addNode (h : n.Sound f) {limit : Nat} (hlimit : limit < 64)
    {b c : Builder Letter (List Formula)} (hc : addNode f.names limit b n = .ok c) :
    b.Extends c fun p a q =>
      ∃ o ∈ n.incoming, p = o.label ∧ q = n.label ∧ a.Subset f.names ∧ n.Admits a := by
  obtain ⟨letters, hl, hc⟩ := bind_eq_ok_iff.1 hc
  simp only [← mem_letters_iff h hlimit hl]
  split at hc
  · next hempty =>
    cases hc
    refine (Builder.Extends.refl _).congr fun p a q => ⟨False.elim, fun he => ?_⟩
    obtain ⟨o, -, -, -, ha⟩ := he
    exact OrdSet.isEmpty_iff.1 hempty a ha
  · rw [mapError_eq_ok_iff] at hc
    exact Builder.extends_foldlM (fun o _ _ _ => Builder.extends_addTransition) hc

theorem exists_presents {options : TableauOptions} {A : Automaton Letter (List Formula)}
    (h : f.toAutomaton options = .ok A) : ∃ (t : Tableau) (b : Builder Letter (List Formula)),
      expand f.normalized = .ok t.nodes ∧ Sound f.normalized t ∧ t.pending = [] ∧ Reachable b ∧
        A = b.build ∧ Presents f.normalized t.nodes b.toAutomaton := by
  obtain ⟨nodes, hnodes, h⟩ := bind_eq_ok_iff.1 h
  obtain ⟨t, ht, hs, hend⟩ := exists_expand (Formula.isNormal_normalForm f true)
  rw [Formula.normalized, ht] at hnodes
  cases hnodes
  obtain ⟨c, hc, h⟩ := bind_eq_ok_iff.1 h
  obtain ⟨d, hd, h⟩ := bind_eq_ok_iff.1 h
  rw [mapError_eq_ok_iff] at hd
  cases h
  have hext := Builder.extends_foldlM
    (fun n hn _ _ hstep => extends_addNode (hs.node_of_mem hn) (min_freeLimit_lt _) hstep) hc
  obtain ⟨hrows, hacc, -⟩ := Builder.addStates_fields
    ((Builder.generalized : Builder Letter (List Formula)).withOptimize options.optimize)
    (states t.nodes)
  have hfamily : c.acceptance = .generalized [] := hext.acceptance.trans hacc
  obtain ⟨dstates, drows, hreach, hfinal⟩ := Builder.foldlM_addFinals hfamily hd
  refine ⟨t, d, ht, hs, hend, hreach (hext.reachable (.addStates _ (.withOptimize _ .generalized))),
    rfl, fun p => ?_, fun p a q => ?_, fun s => ?_⟩
  · rw [← hs.initial_addStates (b := Builder.generalized.withOptimize options.optimize)
      fun _ => rfl]
    simp only [Automaton.Initial, Automaton.state?, dstates, hext.states]
  · have hedge : d.Edge p a q ↔ c.Edge p a q := by
      simp only [Automaton.Edge, Automaton.symbols?, drows]
    have hnone : ¬ ((Builder.generalized.withOptimize options.optimize).addStates
        (states t.nodes)).Edge p a q := Automaton.not_edge_of_rows_eq_empty hrows
    rw [hedge, hext.edge, or_iff_right hnone]
    rfl
  · rw [hfinal]
    simp

end Tableau

namespace Formula

variable {f : Formula} {options : TableauOptions} {A : Automaton Letter (List Formula)}

theorem built_toAutomaton (h : f.toAutomaton options = .ok A) : Built A := by
  obtain ⟨t, b, -, -, -, hb, rfl, -⟩ := Tableau.exists_presents h
  exact .build hb

theorem accepts_toAutomaton (h : f.toAutomaton options = .ok A) (w : Word Letter) :
    A.Accepts w ↔ (∀ i, (w i).Subset f.normalized.names) ∧ f.normalized.Satisfies w := by
  obtain ⟨t, b, -, ht, hend, hb, rfl, hp⟩ := Tableau.exists_presents h
  rw [Builder.accepts_build hb.wellFormed]
  exact hp.accepts_iff ht hend

theorem not_accepts_toAutomaton (h : f.toAutomaton options = .ok A) (hA : A.finalSets = [])
    (w : Word Letter) : ¬ A.Accepts w := by
  obtain ⟨t, b, -, -, -, hb, rfl, hp⟩ := Tableau.exists_presents h
  rw [Builder.accepts_build hb.wellFormed]
  exact hp.not_accepts ((Builder.finalSets_build_eq_nil_iff hb.wellFormed).1 hA)

/-- The automaton of a formula accepts the words over the names of the formula that satisfy it. -/
theorem toAutomaton_accepts_iff_satisfies (h : f.toAutomaton options = .ok A) (w : Word Letter) :
    A.Accepts w ↔ (∀ i, (w i).Subset f.names) ∧ f.Satisfies w := by
  rw [accepts_toAutomaton h, names_normalized]
  exact and_congr_right fun _ => holds_normalized

theorem toAutomaton_accepts_until : ∃ A,
    (binary .until (var "p") (var "q")).toAutomaton .standard = .ok A ∧
      A.Accepts (fun _ => .singleton "q") ∧ ¬ A.Accepts fun _ => .singleton "p" := by
  have hok : ((binary .until (var "p") (var "q")).toAutomaton .standard).isOk = true := by
    decide +kernel
  obtain ⟨A, h⟩ := exists_eq_ok_of_isOk hok
  refine ⟨A, h, ?_, ?_⟩
  · apply (toAutomaton_accepts_iff_satisfies h _).2
    refine ⟨fun _ a ha => ?_, 0, Nat.le_refl 0, OrdSet.mem_singleton.2 rfl, by simp⟩
    rw [OrdSet.mem_singleton.1 ha]
    decide
  · intro hA
    obtain ⟨-, k, -, hq, -⟩ := (toAutomaton_accepts_iff_satisfies h _).1 hA
    exact absurd (OrdSet.mem_singleton.1 hq) (by decide)

end Formula

end TemporalCheck
