import TemporalCheck.Proofs.Generalize
import TemporalCheck.Proofs.Lift
import TemporalCheck.Proofs.Product

/-!
# Whatever is produced is well-formed

The constructions use nothing but the calls of a builder, so their results are built and may be
the start of a builder again. The invariant of what is built therefore holds of every automaton
that calls and constructions lead to, in any order.
-/

namespace TemporalCheck

variable {σ δ : Type} [Ord σ] [Std.TransOrd σ] [Std.LawfulEqOrd σ] [DecidableEq σ]

namespace Automaton

variable {A : Automaton σ δ}

theorem built_optimized (hA : Built A) : Built A.optimized :=
  .build (.withOptimize true (.ofAutomaton hA))

theorem built_product {β : Type} {R : Automaton σ β} {P : Automaton σ Empty} (hA : Built A)
    (hR : Built R) (h : A.product R = .ok P) : Built P := by
  cases hF : A.acceptance with
  | generalized family => simp [product, hF] at h
  | buchi F =>
    cases hG : R.acceptance with
    | generalized family => simp [product, hF, hG] at h
    | buchi G =>
      obtain ⟨P', hP, hprod⟩ := exists_product_eq_ok hA.wellFormed hR.wellFormed hF hG
      obtain rfl := Except.ok.inj (hP.symm.trans h)
      exact hprod.built

end Automaton

/-- Every builder that successful calls lead to is well-formed, and so is what is built from it.
What merging, degeneralizing, generalizing, intersecting, lifting and the tableau produce is built,
so a builder may go on from it, and well-formed. -/
theorem produced_wellFormed :
    (∀ b : Builder σ δ, Reachable b → b.WellFormed ∧ b.build.WellFormed) ∧
      (∀ A : Automaton σ δ, Built A → A.WellFormed ∧ Built A.optimized ∧ A.optimized.WellFormed ∧
        (∃ D, A.degeneralize = .ok D ∧ Built D ∧ D.WellFormed) ∧
        (∃ G, A.generalize = .ok G ∧ Built G ∧ G.WellFormed) ∧
        ∀ (β : Type) (R : Automaton σ β) (P : Automaton σ Empty), Built R → A.product R = .ok P →
          Built P ∧ P.WellFormed) ∧
      (∀ k : Kripke, (∃ A, k.lift = .ok A ∧ Built A ∧ A.WellFormed) ∧
        ∀ names, ∃ A, k.liftProjected names = .ok A ∧ Built A ∧ A.WellFormed) ∧
      ∀ (f : Formula) (options : TableauOptions) (A : Automaton Letter (List Formula)),
        f.toAutomaton options = .ok A → Built A ∧ A.WellFormed := by
  refine ⟨fun b hb => ⟨hb.wellFormed, (Built.build hb).wellFormed⟩, fun A hA => ?_, fun k => ?_,
    fun f options A h => ?_⟩
  · have hopt := Automaton.built_optimized hA
    obtain ⟨D, hD, hu⟩ := Automaton.exists_degeneralize hA.wellFormed
    obtain ⟨G, hG, hbuilt⟩ := Automaton.exists_generalize hA.wellFormed
    refine ⟨hA.wellFormed, hopt, hopt.wellFormed, ⟨D, hD, hu.built, hu.built.wellFormed⟩,
      ⟨G, hG, hbuilt, hbuilt.wellFormed⟩, fun β R P hR h => ?_⟩
    have hP := Automaton.built_product hA hR h
    exact ⟨hP, hP.wellFormed⟩
  · have lifted (letter : KripkeState → Letter) :
        ∃ A, k.liftWith letter = .ok A ∧ Built A ∧ A.WellFormed := by
      obtain ⟨A, hA, hl⟩ := Kripke.exists_liftWith k letter
      exact ⟨A, hA, hl.built, hl.built.wellFormed⟩
    exact ⟨lifted KripkeState.atoms, fun names => lifted fun s => s.atoms.project names⟩
  · have hA := Formula.built_toAutomaton h
    exact ⟨hA, hA.wellFormed⟩

theorem produced_wellFormed_fork : ∃ D P,
    Automaton.fork.build.optimized.degeneralize = .ok D ∧ D.product D = .ok P ∧
      (Builder.ofAutomaton D).WellFormed ∧ P.WellFormed := by
  obtain ⟨hbuilder, hproduced, -⟩ := produced_wellFormed (σ := Nat) (δ := Unit)
  obtain ⟨-, -, hwell, -⟩ := hproduced _ (.build Automaton.reachable_fork)
  obtain ⟨D, hD, hu⟩ := Automaton.exists_degeneralize hwell
  obtain ⟨H, hH, -⟩ := hu.finals
  obtain ⟨hDwell, -, -, -, -, hproduct⟩ := hproduced D hu.built
  obtain ⟨P, hP, -⟩ := Automaton.exists_product_eq_ok hDwell hDwell hH hH
  exact ⟨D, P, hD, hP, (hbuilder _ (.ofAutomaton hu.built)).1, (hproduct Unit D P hu.built hP).2⟩

end TemporalCheck
