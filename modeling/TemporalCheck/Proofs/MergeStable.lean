import Mathlib.Data.List.Nodup
import TemporalCheck.Proofs.WellFormed

/-!
# Merging goes on until it is stable

The number of states bounds the merges, and that bound is never what ends them:
each merge takes a declared state away, so the pass ends at an automaton with no
joinable pair. Its states have pairwise different profiles, and merging it once
more gives it back.
-/

namespace TemporalCheck

namespace Automaton

variable {σ δ : Type} [Ord σ] {A : Automaton σ δ} {keep remove p q : String}

theorem Quotient.hasState_iff_exists {M : Automaton σ δ} {rep : String → String}
    (h : Quotient A M rep) : M.hasState p = true ↔ ∃ s, A.hasState s = true ∧ rep s = p := by
  rw [h.hasState_iff]
  constructor
  · intro hp
    exact ⟨p, hp.2, hp.1⟩
  · intro hs
    obtain ⟨s, hs, rfl⟩ := hs
    exact (h.kept s hs).symm

theorem nodup_profiles [DecidableEq σ] (h : A.joinablePair = none) :
    (A.states.values.map A.profile).Nodup := by
  have hpairs := firstPair_eq_none_iff.1 (Option.map_eq_none_iff.1 h)
  simpa [List.Nodup, List.pairwise_map] using hpairs

theorem WellFormed.eq_of_alike [DecidableEq σ] (hA : A.WellFormed) (h : A.joinablePair = none)
    (hp : A.hasState p = true) (hq : A.hasState q = true) (hpq : A.Alike p q) : p = q := by
  obtain ⟨s, hs⟩ := hasState_iff.1 hp
  obtain ⟨t, ht⟩ := hasState_iff.1 hq
  have hsm := OrdMap.mem_values.2 ⟨p, hs⟩
  have htm := OrdMap.mem_values.2 ⟨q, ht⟩
  rw [← hA.label_eq p s hs, ← hA.label_eq q t ht] at hpq ⊢
  exact congrArg State.label
    (List.inj_on_of_nodup_map (nodup_profiles h) hsm htm ((hA.alike_iff hsm htm).1 hpq))

variable [Std.TransOrd σ] [Std.LawfulEqOrd σ]

theorem Joinable.size_mergePair_lt (h : A.Joinable keep remove) :
    (A.mergePair keep remove).size < A.size :=
  OrdMap.size_erase_lt h.removed

variable [DecidableEq σ]

theorem joinablePair_mergeUpTo (n : Nat) (hA : A.WellFormed) (hn : A.size ≤ n) :
    (A.mergeUpTo n).joinablePair = none := by
  induction n generalizing A with
  | zero =>
    cases hp : A.joinablePair with
    | none => exact hp
    | some pair =>
      have hlt := (joinable_of_joinablePair hA hp).size_mergePair_lt
      omega
  | succ n ih =>
    rw [mergeUpTo]
    split
    · next keep remove hp =>
      have hj := joinable_of_joinablePair hA hp
      have hlt := hj.size_mergePair_lt
      exact ih (wellFormed_mergePair hA hj) (by omega)
    · next hp => exact hp

theorem mergeUpTo_of_joinablePair_eq_none (n : Nat) (h : A.joinablePair = none) :
    A.mergeUpTo n = A := by
  cases n with
  | zero => rfl
  | succ n => rw [mergeUpTo, h]

/-- Merging folds the states onto the smallest of those they are joined with, step by step, and
nothing is left to fold: the result is a quotient, no two of its states are alike, and merging
it again changes nothing. -/
theorem optimized_stable_quotient (hA : Built A) :
    (∃ rep, Quotient A A.optimized rep ∧
      (∀ t, A.optimized.hasState t = true ↔ ∃ s, A.hasState s = true ∧ rep s = t) ∧
        ∀ t, A.optimized.hasState t = true → rep t = t) ∧
      A.optimized.acceptance.isGeneralized = A.acceptance.isGeneralized ∧
      (∀ p q, A.optimized.hasState p = true → A.optimized.hasState q = true →
        A.optimized.Alike p q → p = q) ∧
      A.optimized.optimized = A.optimized := by
  obtain ⟨hwell, rep, hrep⟩ := exists_quotient_mergeUpTo A.size hA.wellFormed
  have hnone := joinablePair_mergeUpTo A.size hA.wellFormed (Nat.le_refl _)
  refine ⟨⟨rep, hrep, fun t => hrep.hasState_iff_exists, fun t ht => (hrep.hasState_iff.1 ht).1⟩,
    isGeneralized_mergeUpTo A.size A, fun p q => hwell.eq_of_alike hnone, ?_⟩
  exact mergeUpTo_of_joinablePair_eq_none _ hnone

def cascadeStates : Builder Nat Unit :=
  Builder.generalized.addStates [⟨"p", true, none⟩, ⟨"a", false, none⟩, ⟨"b", false, none⟩,
    ⟨"c", false, some ()⟩, ⟨"d", false, none⟩]

/-- Only when `d` is folded onto `c` do `a` and `b` lead to the same state. -/
def cascade : Builder Nat Unit :=
  ((((((cascadeStates.withFinals (.ofList ["c", "d"])).link "p" "a" (.singleton 0)).link
    "p" "b" (.singleton 1)).link "a" "c" (.singleton 2)).link "b" "d" (.singleton 2)).link
    "c" "p" (.singleton 3)).link "d" "p" (.singleton 3)

theorem reachable_cascade : Reachable cascade := by
  have hstates : Reachable cascadeStates := .addStates _ .generalized
  have hfinals := hstates.withFinals (.ofList ["c", "d"]) (by decide)
  exact (((((hfinals.link rfl rfl rfl).link rfl rfl rfl).link rfl rfl rfl).link rfl rfl rfl).link
    rfl rfl rfl).link rfl rfl rfl

/-- After two merges, the second of which the first makes possible, `1` leads from `p` to the
representative of its old target. -/
theorem stable_quotient_cascade :
    ∃ rep, Quotient cascade.build cascade.build.optimized rep ∧ rep "d" = "c" ∧ rep "b" = "a" ∧
      cascade.build.optimized.Edge "p" 1 "a" ∧
        cascade.build.optimized.optimized.hasState "b" = false := by
  obtain ⟨⟨rep, hrep, honto, hfixed⟩, -, -, hagain⟩ :=
    optimized_stable_quotient (.build reachable_cascade)
  have hkeys : cascade.build.optimized.states.keys = .ofList ["a", "c", "p"] := by decide +kernel
  have hfinal : .ofList ["c", "d"] ∈ cascade.build.finalSets := by decide +kernel
  have image (s : String) (hs : cascade.build.hasState s = true) :
      rep s = "a" ∨ rep s = "c" ∨ rep s = "p" := by
    have hm := OrdMap.contains_iff.1 ((honto (rep s)).2 ⟨s, hs, rfl⟩)
    rw [hkeys] at hm
    simpa using hm
  have hd : rep "d" = "c" := by
    have hf := (hrep.final _ hfinal "d" rfl).2 (by decide)
    rcases image "d" rfl with h | h | h
    · simp [h] at hf
    · exact h
    · simp [h] at hf
  have hb : rep "b" = "a" := by
    rcases image "b" rfl with h | h | h
    · exact h
    · have hf := (hrep.final _ hfinal "b" rfl).1 (by simp [h])
      simp at hf
    · have hi := hrep.initial "b" rfl
      rw [h] at hi
      cases hi
  refine ⟨rep, hrep, hd, hb, ?_, by rw [hagain]; decide +kernel⟩
  have hp : rep "p" = "p" := hfixed "p" (by decide +kernel)
  have hedge : cascade.build.Edge "p" 1 "b" := ⟨.singleton 1, rfl, OrdSet.mem_singleton.2 rfl⟩
  have hmerged := (hrep.edge "p" 1 "a" rfl).2 ⟨"b", hedge, hb⟩
  rwa [hp] at hmerged

end Automaton

end TemporalCheck
