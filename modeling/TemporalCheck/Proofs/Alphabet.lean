import TemporalCheck.Proofs.Verification

/-!
# The alphabet of a verification

Rewriting neither drops a name nor adds one, and inverting exchanges the plain and the negated
occurrences. So the names that the structure is projected onto are those over which the tableau
enumerates its letters, and no construction after that reads a letter beyond them.
-/

namespace TemporalCheck

namespace Formula

theorem names_invert (f : Formula) : f.invert.names = f.names := by
  rw [← names_normalized, normalized, normalForm_invert, names_normalForm]

theorem plain_normalForm (f : Formula) :
    (f.normalForm false).propositions .plain = (f.normalForm true).propositions .negated ∧
      (f.normalForm true).propositions .plain = (f.normalForm false).propositions .negated := by
  induction f with
  | const b => exact ⟨rfl, rfl⟩
  | var name => exact ⟨rfl, rfl⟩
  | unary op f ih => cases op <;> simp [normalForm, propositions, ih]
  | binary op l r ihl ihr => cases op <;> simp [normalForm, propositions, ihl, ihr]

theorem plain_invert (f : Formula) :
    f.invert.normalized.propositions .plain = f.normalized.propositions .negated ∧
      f.invert.normalized.propositions .negated = f.normalized.propositions .plain := by
  rw [normalized, normalForm_invert, normalized]
  exact ⟨f.plain_normalForm.1, f.plain_normalForm.2.symm⟩

end Formula

namespace Automaton

variable {σ β δ : Type} [Ord σ] {A M : Automaton σ δ} {p q : String} {a : σ}

theorem Quotient.exists_edge {rep : String → String} (h : Quotient A M rep) (hM : M.WellFormed)
    (he : M.Edge p a q) : ∃ u, A.Edge p a u ∧ ∀ b, A.Edge p b u → M.Edge p b q := by
  obtain ⟨hrep, hp⟩ := h.hasState_iff.1 (hM.edge_source he)
  have hedge (b : σ) : M.Edge p b q ↔ ∃ u, A.Edge p b u ∧ rep u = q := by
    rw [← h.edge p b q hp, hrep]
  obtain ⟨u, hu, hq⟩ := (hedge a).1 he
  exact ⟨u, hu, fun b hb => (hedge b).2 ⟨u, hb, hq⟩⟩

variable [Std.TransOrd σ] [Std.LawfulEqOrd σ] [DecidableEq σ]

theorem exists_edge_of_build {b : Builder σ δ} (hb : b.WellFormed) (h : b.build.Edge p a q) :
    ∃ u, b.Edge p a u ∧ ∀ c, b.Edge p c u → b.build.Edge p c q := by
  unfold Builder.build at h ⊢
  split at h
  · next hopt =>
    obtain ⟨hmerged, rep, hrep⟩ := exists_quotient_mergeUpTo b.size hb
    rw [if_pos hopt]
    exact hrep.exists_edge hmerged h
  · next hopt =>
    rw [if_neg hopt]
    exact ⟨q, h, fun _ hc => hc⟩

def LettersWithin (A : Automaton Letter δ) (names : OrdSet String) : Prop :=
  ∀ p a q, A.Edge p a q → a.Subset names

variable {names : OrdSet String} {S : Automaton Letter δ}

theorem LettersWithin.build {b : Builder Letter δ} (h : b.LettersWithin names)
    (hb : b.WellFormed) : b.build.LettersWithin names := by
  intro p a q he
  obtain ⟨u, hu, -⟩ := exists_edge_of_build hb he
  exact h p a u hu

theorem LettersWithin.optimized (h : S.LettersWithin names) (hS : S.WellFormed) :
    S.optimized.LettersWithin names :=
  LettersWithin.build (b := (Builder.ofAutomaton S).withOptimize true) h hS

theorem LettersWithin.unrolls {U : Automaton Letter δ} (h : S.LettersWithin names)
    (hU : Unrolls S U) : U.LettersWithin names := by
  intro p a q he
  obtain ⟨p', q', r, -, hs, -⟩ := (hU.edge p a q).1 he
  exact h p' a q' hs

theorem LettersWithin.product {R : Automaton Letter β} {F G : OrdSet String}
    {P : Automaton Letter Empty} (h : S.LettersWithin names) (hP : IsProduct S R F G P) :
    P.LettersWithin names := by
  intro p a q he
  cases hP with
  | empty => exact absurd he (not_edge_of_rows_eq_empty rfl)
  | graph hgraph =>
    obtain ⟨t, u, hstep, -⟩ := (hgraph.edge p a q).1 he
    exact h t.left a u.left hstep.left

end Automaton

theorem Kripke.Lifts.exists_letter {k : Kripke} {letter : KripkeState → Letter}
    {S : Automaton Letter String} (h : k.Lifts letter S) {p q : String} {a : Letter}
    (he : S.Edge p a q) : ∃ s ∈ k.states, a = letter s := by
  rcases (h.edge p a q).1 he with ⟨t, ht, -, -, ha⟩ | ⟨s, -, t, ht, -, -, ha⟩
  · exact ⟨t, Kripke.mem_states_of_initial ht, ha⟩
  · exact ⟨t, Kripke.mem_states_of_successor ht, ha⟩

theorem Formula.exists_nodes_of_toAutomaton {f : Formula} {options : TableauOptions}
    {A : Automaton Letter (List Formula)} (h : f.toAutomaton options = .ok A) :
    ∃ nodes, Tableau.expand f.normalized = .ok nodes ∧ ∀ p a q, A.Edge p a q →
      a.Subset f.normalized.names ∧ ∃ n ∈ nodes, n.Admits a ∧
        ∀ b, b.Subset f.normalized.names → n.Admits b → A.Edge p b q := by
  obtain ⟨t, b, hnodes, -, -, hb, rfl, hp⟩ := Tableau.exists_presents h
  refine ⟨t.nodes, hnodes, fun p a q he => ?_⟩
  obtain ⟨u, hu, hkept⟩ := Automaton.exists_edge_of_build hb.wellFormed he
  obtain ⟨n, hn, o, ho, hpo, hun, hsub, hadmits⟩ := (hp.edge p a u).1 hu
  refine ⟨hsub, n, hn, hadmits, fun c hc hcn => hkept c ?_⟩
  exact (hp.edge p c u).2 ⟨n, hn, o, ho, hpo, hun, hc, hcn⟩

namespace Stages

variable {k : Kripke} {f : Formula} {config : Config} {v : Verification} {names : OrdSet String}

theorem lifts (h : Stages k f config v) :
    k.Lifts (fun s => s.atoms.project f.names) v.system := by
  obtain ⟨S, hS, hlift⟩ := Kripke.exists_liftWith k fun s => s.atoms.project f.names
  obtain rfl : S = v.system := Except.ok.inj (hS.symm.trans h.system)
  exact hlift

theorem exists_isProduct (h : Stages k f config v) :
    ∃ F G, IsProduct v.system v.degeneralizedSpecification F G v.product := by
  obtain ⟨D, hD, hsingle⟩ := h.single
  obtain ⟨E, hE, hbuilt, ⟨G, hG⟩, -⟩ := exists_single h.automaton config.optimize
  obtain rfl : E = D := Except.ok.inj (hE.symm.trans hD)
  rw [← hsingle] at hbuilt hG
  obtain ⟨F, hF, -⟩ := h.lifts.finals
  obtain ⟨P, hP, hprod⟩ :=
    Automaton.exists_product_eq_ok h.lifts.built.wellFormed hbuilt.wellFormed hF hG
  obtain rfl : P = v.product := Except.ok.inj (hP.symm.trans h.product)
  exact ⟨F, G, hprod⟩

theorem lettersWithin_degeneralized (h : Stages k f config v)
    (hspec : v.specificationAutomaton.LettersWithin names) :
    v.degeneralizedSpecification.LettersWithin names := by
  obtain ⟨D, hD, hsingle⟩ := h.single
  obtain ⟨U, hU, hunrolls⟩ :=
    Automaton.exists_degeneralize (Formula.built_toAutomaton h.automaton).wellFormed
  obtain rfl : U = D := Except.ok.inj (hU.symm.trans hD)
  rw [hsingle]
  split
  · exact (hspec.unrolls hunrolls).optimized hunrolls.built.wellFormed
  · exact hspec.unrolls hunrolls

end Stages

/-- All stages of a verification are over the names of the formula: the letters of the structure
are projected onto them, and a step of the specification reads every letter over them that agrees
with a node of its tableau. -/
structure SharesAlphabet (k : Kripke) (f : Formula) (v : Verification) : Prop where
  system : v.system.LettersWithin f.names
  specification : v.specificationAutomaton.LettersWithin f.names
  degeneralized : v.degeneralizedSpecification.LettersWithin f.names
  product : v.product.LettersWithin f.names
  names : v.negatedSpecification.normalized.names = f.names
  projected : ∀ p a q, v.system.Edge p a q → ∃ s ∈ k.states, a = s.atoms.inter f.names
  ranges : ∃ nodes, Tableau.expand v.negatedSpecification.normalized = .ok nodes ∧
    ∀ p a q, v.specificationAutomaton.Edge p a q → ∃ n ∈ nodes, n.Admits a ∧
      ∀ b, b.Subset f.names → n.Admits b → v.specificationAutomaton.Edge p b q

theorem sharesAlphabet_of_verify {k : Kripke} {f : Formula} {config : Config} {v : Verification}
    (h : k.verify f config = .ok v) : SharesAlphabet k f v := by
  have hstages := stages_of_verify h
  have hnames : v.negatedSpecification.normalized.names = f.names := by
    rw [hstages.negated, Formula.names_normalized, Formula.names_negated]
  obtain ⟨nodes, hnodes, hedge⟩ := Formula.exists_nodes_of_toAutomaton hstages.automaton
  rw [hnames] at hedge
  have hspec : v.specificationAutomaton.LettersWithin f.names := fun p a q he => (hedge p a q he).1
  have hprojected (p a q) (he : v.system.Edge p a q) :
      ∃ s ∈ k.states, a = s.atoms.inter f.names := hstages.lifts.exists_letter he
  have hsystem : v.system.LettersWithin f.names := by
    intro p a q he
    obtain ⟨s, -, rfl⟩ := hprojected p a q he
    exact fun x hx => (OrdSet.mem_inter.1 hx).2
  obtain ⟨F, G, hproduct⟩ := hstages.exists_isProduct
  exact ⟨hsystem, hspec, hstages.lettersWithin_degeneralized hspec, hsystem.product hproduct,
    hnames, hprojected, nodes, hnodes, fun p a q he => (hedge p a q he).2⟩

/-- Inverting and normalizing keep the names, and inverting exchanges the plain and the negated
ones. So every verification has one alphabet, from the names of its formula. -/
theorem verify_shares_alphabet (f : Formula) :
    (f.invert.names = f.names ∧ f.normalized.names = f.names) ∧
      (f.invert.normalized.propositions .plain = f.normalized.propositions .negated ∧
        f.invert.normalized.propositions .negated = f.normalized.propositions .plain) ∧
      ∀ k config v, Kripke.verify k f config = .ok v → SharesAlphabet k f v :=
  ⟨⟨f.names_invert, f.names_normalized⟩, f.plain_invert,
    fun _ _ _ h => sharesAlphabet_of_verify h⟩

theorem verify_shares_alphabet_lost : ∃ v,
    lost.verify (.unary .always (.var "p")) .standard = .ok v ∧
      v.system.LettersWithin (.singleton "p") ∧ v.product.LettersWithin (.singleton "p") ∧
        SharesAlphabet lost (.unary .always (.var "p")) v := by
  obtain ⟨v, hv⟩ := exists_verify_lost none
  obtain ⟨-, -, hverify⟩ := verify_shares_alphabet (.unary .always (.var "p"))
  have hshares := hverify lost _ v hv
  exact ⟨v, hv, hshares.system, hshares.product, hshares⟩

end TemporalCheck
