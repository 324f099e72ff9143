import TemporalCheck.Proofs.Verification

/-!
# The one way in which verification fails

The letters of a node are enumerated only when few names are left without a literal. The
expansion, the literals, the labels and the final sets give no reason to fail, so the first
committed node that leaves too many names open decides the outcome of the whole verification.
-/

namespace TemporalCheck

namespace Tableau

variable {f : Formula} {t : Tableau} {n : Node} {nodes : List Node} {names : OrdSet String}
  {limit : Nat} {b : Builder Letter (List Formula)}

/-- The names of which the node has no literal. -/
def Node.undecided (names : OrdSet String) (n : Node) : OrdSet String :=
  names.filter fun a => decide (.var a ∉ n.old ∧ .unary .not (.var a) ∉ n.old)

def Node.exceeds (names : OrdSet String) (limit : Nat) (n : Node) : Bool :=
  decide (limit < (n.undecided names).size)

theorem free_eq_undecided : n.free names = n.undecided names := by
  ext a
  simp only [Node.free, Node.undecided, OrdSet.mem_diff, OrdSet.mem_filter, mem_fixed, not_or,
    decide_eq_true_eq]

theorem size_undecided_le (names : OrdSet String) (n : Node) :
    (n.undecided names).size ≤ names.size :=
  List.length_filter_le _ _

theorem letters_eq_error (h : n.exceeds names limit = true) : n.letters names limit =
    .error (.tooManyPropositions (n.undecided names).size limit) := by
  have hlt : limit < (n.free names).size := by
    rw [free_eq_undecided]
    exact of_decide_eq_true h
  rw [Node.letters, if_pos hlt, free_eq_undecided]

theorem exists_letters (h : n.exceeds names limit = false) :
    ∃ letters, n.letters names limit = .ok letters := by
  have hle : ¬ limit < (n.free names).size := by
    rw [free_eq_undecided]
    exact of_decide_eq_false h
  obtain ⟨kept, hkept, -⟩ := exists_filterM (exists_evaluate_constraint n)
    ((masks (n.free names).size).map (n.candidate names))
  refine ⟨.ofList kept, ?_⟩
  rw [Node.letters, if_neg hle]
  exact bind_eq_ok_iff.2 ⟨kept, mapError_eq_ok_iff.2 hkept, rfl⟩

theorem addNode_eq_error (h : n.exceeds names limit = true) (b : Builder Letter (List Formula)) :
    addNode names limit b n =
      .error (.tooManyPropositions (n.undecided names).size limit) := by
  rw [addNode, letters_eq_error h]
  rfl

theorem exists_addNode (h : n.exceeds names limit = false) (hn : b.hasState n.label = true)
    (hin : ∀ o ∈ n.incoming, b.hasState o.label = true) :
    ∃ c, addNode names limit b n = .ok c ∧ c.states = b.states := by
  obtain ⟨letters, hl⟩ := exists_letters h
  cases hempty : letters.isEmpty with
  | true =>
    refine ⟨b, ?_, rfl⟩
    rw [addNode, hl]
    exact if_pos hempty
  | false =>
    obtain ⟨c, hc, hext⟩ := Builder.exists_foldlM_extends (l := n.incoming) (b := b)
      (f := fun b o => b.addTransition o.label n.label letters)
      (fun o _ _ _ => Builder.extends_addTransition) fun o ho d hd => by
        have declared {q : String} (hq : b.hasState q = true) : d.hasState q = true := by
          rwa [Automaton.hasState_congr hd]
        exact Builder.exists_addTransition_eq_ok (declared (hin o ho)) (declared hn) hempty
    refine ⟨c, bind_eq_ok_iff.2 ⟨letters, hl, ?_⟩, hext.states⟩
    rw [if_neg (by simp [hempty])]
    exact mapError_eq_ok_iff.2 hc

theorem Sound.origin_cases (h : Sound f t) (hn : n ∈ t.nodes) {o : Origin} (ho : o ∈ n.incoming) :
    o = .entry ∨ ∃ m ∈ t.nodes, o = .node m.id := by
  obtain ⟨l, hd, -⟩ := h.demand n (List.mem_append.2 (Or.inl hn)) o ho
  cases hd with
  | entry => exact Or.inl rfl
  | node hm => exact Or.inr ⟨_, hm, rfl⟩

theorem exists_node_of_mem_finalSets {s : OrdSet String} {q : String} (hs : s ∈ finalSets nodes)
    (hq : q ∈ s) : ∃ n ∈ nodes, n.label = q := by
  have ofLabels {l : List Node} (hl : ∀ n ∈ l, n ∈ nodes) (hq : q ∈ labels l) :
      ∃ n ∈ nodes, n.label = q := by
    obtain ⟨n, hn, he⟩ := List.mem_map.1 (OrdSet.mem_ofList.1 hq)
    exact ⟨n, hl n hn, he⟩
  unfold finalSets at hs
  split at hs
  · cases hs
  · split at hs
    · rw [List.mem_singleton.1 hs] at hq
      exact ofLabels (fun _ hn => hn) hq
    · obtain ⟨u, -, rfl⟩ := List.mem_map.1 hs
      exact ofLabels (fun _ hn => (List.mem_filter.1 hn).1) hq

theorem hasState_addStates_states {o : Origin}
    (ho : o = .entry ∨ ∃ m ∈ nodes, o = .node m.id) :
    (b.addStates (states nodes)).hasState o.label = true := by
  apply Builder.hasState_addStates.2
  right
  rcases ho with rfl | ⟨m, hm, rfl⟩
  · exact ⟨_, List.mem_cons_self, rfl⟩
  · exact ⟨_, List.mem_cons_of_mem _ (List.mem_map_of_mem hm), rfl⟩

theorem Sound.exists_addNode_of_mem (h : Sound f t) {c : Builder Letter (List Formula)}
    (hc : c.states = (b.addStates (states t.nodes)).states) (hn : n ∈ t.nodes)
    (hle : n.exceeds names limit = false) :
    ∃ d, addNode names limit c n = .ok d ∧
      d.states = (b.addStates (states t.nodes)).states := by
  have declared {o : Origin} (ho : o = .entry ∨ ∃ m ∈ t.nodes, o = .node m.id) :
      c.hasState o.label = true := by
    rw [Automaton.hasState_congr hc]
    exact hasState_addStates_states ho
  obtain ⟨d, hd, hs⟩ := exists_addNode (b := c) hle (declared (Or.inr ⟨n, hn, rfl⟩))
    fun o ho => declared (h.origin_cases hn ho)
  exact ⟨d, hd, hs.trans hc⟩

theorem exists_sound_of_expand (hf : f.IsNormal) (h : expand f = .ok nodes) :
    ∃ t, t.nodes = nodes ∧ Sound f t := by
  obtain ⟨t, ht, hs, -⟩ := exists_expand hf
  exact ⟨t, Except.ok.inj (ht.symm.trans h), hs⟩

end Tableau

namespace Formula

variable {f : Formula} {nodes : List Tableau.Node} {n : Tableau.Node}

theorem toAutomaton_eq_error (options : TableauOptions)
    (hnodes : Tableau.expand f.normalized = .ok nodes)
    (hn : nodes.find? (Tableau.Node.exceeds f.normalized.names (min options.maxFree freeLimit)) =
      some n) :
    f.toAutomaton options = .error (.tooManyPropositions (n.undecided f.normalized.names).size
      (min options.maxFree freeLimit)) := by
  obtain ⟨t, rfl, hs⟩ := Tableau.exists_sound_of_expand (isNormal_normalForm f true) hnodes
  let b := ((Builder.generalized : Builder Letter (List Formula)).withOptimize
    options.optimize).addStates (Tableau.states t.nodes)
  have hfold := foldlM_eq_error_of_find? (b := b) (fun c => c.states = b.states)
    (fun m hm hle c hc => hs.exists_addNode_of_mem hc hm hle) hn
    (fun c _ => Tableau.addNode_eq_error (List.find?_some hn) c) rfl
  simp only [toAutomaton, hnodes, bind, Except.bind, b] at hfold ⊢
  rw [hfold]

theorem exists_toAutomaton (options : TableauOptions)
    (hnodes : Tableau.expand f.normalized = .ok nodes)
    (hle : ∀ n ∈ nodes,
      n.exceeds f.normalized.names (min options.maxFree freeLimit) = false) :
    ∃ A, f.toAutomaton options = .ok A := by
  obtain ⟨t, rfl, hs⟩ := Tableau.exists_sound_of_expand (isNormal_normalForm f true) hnodes
  let b := ((Builder.generalized : Builder Letter (List Formula)).withOptimize
    options.optimize).addStates (Tableau.states t.nodes)
  obtain ⟨c, hc⟩ := exists_foldlM_eq_ok (b := b) (fun c => c.states = b.states)
    (fun n hn c hc => hs.exists_addNode_of_mem hc hn (hle n hn)) rfl
  have hstates := (Builder.extends_foldlM
    (fun n hn _ _ hstep => Tableau.extends_addNode (hs.node_of_mem hn)
      (Tableau.min_freeLimit_lt _) hstep) hc).states
  obtain ⟨d, hd⟩ := Builder.exists_foldlM_addFinals (b := c) (l := Tableau.finalSets t.nodes)
    fun s hset q hq => by
      obtain ⟨n, hn, rfl⟩ := Tableau.exists_node_of_mem_finalSets hset hq
      rw [Automaton.hasState_congr hstates]
      exact Tableau.hasState_addStates_states (o := .node n.id) (Or.inr ⟨n, hn, rfl⟩)
  refine ⟨d.build, bind_eq_ok_iff.2 ⟨t.nodes, hnodes, bind_eq_ok_iff.2 ⟨c, hc, ?_⟩⟩⟩
  exact bind_eq_ok_iff.2 ⟨d, mapError_eq_ok_iff.2 hd, rfl⟩

end Formula

section Outcome

variable {k : Kripke} {f : Formula} {nodes : List Tableau.Node}

theorem verify_eq_error_of_find? (config : Config) (hnodes : Tableau.expand f.negated = .ok nodes)
    {n : Tableau.Node}
    (hn : nodes.find? (Tableau.Node.exceeds f.names (min config.maxFree freeLimit)) = some n) :
    k.verify f config = .error (.tableau (.tooManyPropositions (n.undecided f.names).size
      (min config.maxFree freeLimit))) := by
  obtain ⟨S, hS, -⟩ := Kripke.exists_liftWith k fun s => s.atoms.project f.names
  rw [← Formula.normalized_negated] at hnodes
  have hfail := Formula.toAutomaton_eq_error (n := n) ⟨config.maxFree, config.optimize⟩ hnodes
  simp only [Formula.normalized_negated, Formula.names_negated] at hfail
  rw [Kripke.verify, Kripke.liftProjected, hS, hfail hn]
  rfl

theorem exists_verify_of_find? (config : Config) (hk : k.Built)
    (hnodes : Tableau.expand f.negated = .ok nodes)
    (hn : nodes.find? (Tableau.Node.exceeds f.names (min config.maxFree freeLimit)) = none) :
    ∃ v, k.verify f config = .ok v := by
  rw [← Formula.normalized_negated] at hnodes
  have hok := Formula.exists_toAutomaton ⟨config.maxFree, config.optimize⟩ hnodes
  simp only [Formula.normalized_negated, Formula.names_negated] at hok
  obtain ⟨A, hA⟩ := hok fun n hm => by simpa using List.find?_eq_none.1 hn n hm
  obtain ⟨v, hv, -⟩ := exists_verify config hk hA
  exact ⟨v, hv⟩

theorem verify_eq_error_iff (config : Config) (hk : k.Built)
    (hnodes : Tableau.expand f.negated = .ok nodes) {e : Error} :
    k.verify f config = .error e ↔ ∃ n,
      nodes.find? (Tableau.Node.exceeds f.names (min config.maxFree freeLimit)) = some n ∧
        e = .tableau (.tooManyPropositions (n.undecided f.names).size
          (min config.maxFree freeLimit)) := by
  constructor
  · intro he
    cases hn : nodes.find? (Tableau.Node.exceeds f.names (min config.maxFree freeLimit)) with
    | none =>
      obtain ⟨v, hv⟩ := exists_verify_of_find? config hk hnodes hn
      cases hv.symm.trans he
    | some n =>
      have hfail := verify_eq_error_of_find? (k := k) config hnodes hn
      exact ⟨n, rfl, Except.error.inj (he.symm.trans hfail)⟩
  · intro h
    obtain ⟨n, hn, rfl⟩ := h
    exact verify_eq_error_of_find? config hnodes hn

theorem isOk_verify (config : Config) (hk : k.Built)
    (hnodes : Tableau.expand f.negated = .ok nodes) : (k.verify f config).isOk =
      (nodes.find? (Tableau.Node.exceeds f.names (min config.maxFree freeLimit))).isNone := by
  cases hn : nodes.find? (Tableau.Node.exceeds f.names (min config.maxFree freeLimit)) with
  | none =>
    obtain ⟨v, hv⟩ := exists_verify_of_find? config hk hnodes hn
    rw [hv]
    rfl
  | some n =>
    rw [verify_eq_error_of_find? config hnodes hn]
    rfl

/-- Verification fails exactly when a committed node of the negated formula leaves more names
without literal than the limit allows, and the first such node is reported. So a formula with few
names is always verified, and merging of states has no part in the outcome. -/
theorem verify_fails_iff_node_exceeds (hk : k.Built) (f : Formula) (config : Config) :
    ∃ nodes, Tableau.expand f.negated = .ok nodes ∧
      ((∃ e, k.verify f config = .error e) ↔
        ∃ n ∈ nodes, min config.maxFree 32 < (n.undecided f.names).size) ∧
      (∀ e, k.verify f config = .error e → ∃ n,
        nodes.find? (Tableau.Node.exceeds f.names (min config.maxFree 32)) = some n ∧
          e = .tableau (.tooManyPropositions (n.undecided f.names).size (min config.maxFree 32))) ∧
      (f.names.size ≤ min config.maxFree 32 → ∃ v, k.verify f config = .ok v) ∧
      ∀ optimize, (k.verify f ⟨config.maxFree, optimize, config.maxCounterexamples⟩).isOk =
        (k.verify f config).isOk := by
  obtain ⟨t, hnodes, -⟩ := Tableau.exists_expand (Formula.isNormal_negated f)
  refine ⟨t.nodes, hnodes, ⟨fun h => ?_, fun h => ?_⟩,
    fun e he => (verify_eq_error_iff config hk hnodes).1 he, fun hle => ?_, fun optimize => ?_⟩
  · obtain ⟨e, he⟩ := h
    obtain ⟨n, hn, -⟩ := (verify_eq_error_iff config hk hnodes).1 he
    have hexceeds := List.find?_some hn
    exact ⟨n, List.mem_of_find?_eq_some hn, of_decide_eq_true hexceeds⟩
  · obtain ⟨n, hn, hlt⟩ := h
    have hexceeds : n.exceeds f.names (min config.maxFree 32) = true := decide_eq_true hlt
    have hsome := List.find?_isSome.2 ⟨n, hn, hexceeds⟩
    obtain ⟨m, hm⟩ := Option.isSome_iff_exists.1 hsome
    exact ⟨_, (verify_eq_error_iff config hk hnodes).2 ⟨m, hm, rfl⟩⟩
  · cases hv : k.verify f config with
    | ok v => exact ⟨v, rfl⟩
    | error e =>
      obtain ⟨n, hn, -⟩ := (verify_eq_error_iff config hk hnodes).1 hv
      have hexceeds := List.find?_some hn
      have hsize := Tableau.size_undecided_le f.names n
      exact absurd (of_decide_eq_true hexceeds) (Nat.not_lt.2 (Nat.le_trans hsize hle))
  · exact (isOk_verify _ hk hnodes).trans (isOk_verify config hk hnodes).symm

/-- After one step both names are open: one name too many for the first limit, and no more than
the second one allows, which counts as thirty-two. -/
theorem verify_fails_limit_one :
    lost.verify (.unary .next (.binary .and (.var "p") (.var "q"))) ⟨1, true, none⟩ =
        .error (.tableau (.tooManyPropositions 2 1)) ∧
      ∃ v, lost.verify (.unary .next (.binary .and (.var "p") (.var "q"))) ⟨1000, false, none⟩ =
        .ok v := by
  let f : Formula := .unary .next (.binary .and (.var "p") (.var "q"))
  obtain ⟨nodes, hnodes, hiff, herror, -⟩ :=
    verify_fails_iff_node_exceeds built_lost f ⟨1, true, none⟩
  obtain ⟨-, -, -, -, hok, -⟩ := verify_fails_iff_node_exceeds built_lost f ⟨1000, false, none⟩
  have hfirst : (Tableau.expand f.negated).map (fun nodes =>
      (nodes.find? (Tableau.Node.exceeds f.names 1)).map fun n => (n.undecided f.names).size) =
        .ok (some 2) := by
    decide +kernel
  rw [hnodes] at hfirst
  obtain ⟨n, hn, hsize⟩ := Option.map_eq_some_iff.1 (Except.ok.inj hfirst)
  have hlt : 1 < (n.undecided f.names).size := by omega
  obtain ⟨e, he⟩ := hiff.2 ⟨n, List.mem_of_find?_eq_some hn, hlt⟩
  obtain ⟨m, hm, rfl⟩ := herror e he
  obtain rfl : m = n := Option.some.inj (hm.symm.trans hn)
  rw [hsize] at he
  exact ⟨he, hok (by decide)⟩

end Outcome

end TemporalCheck
