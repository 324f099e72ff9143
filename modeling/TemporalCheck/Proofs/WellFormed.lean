import TemporalCheck.Proofs.Merge

/-!
# Everything that is built is well-formed

Each call of a builder keeps the invariant, merging keeps it, and so every
automaton that a sequence of successful calls leads to has it. Merging therefore
keeps the language of whatever is built.
-/

namespace TemporalCheck

variable {σ δ : Type} [Ord σ] {b : Builder σ δ} {A : Automaton σ δ} {w : Word σ}

namespace Builder

theorem wellFormed_empty {acceptance : Acceptance} (h : ∀ s ∈ acceptance.sets, s = .empty)
    (hn : acceptance.sets.Nodup) : (Builder.empty acceptance : Builder σ δ).WellFormed := by
  refine ⟨?_, ?_, ?_, ?_, ?_, ?_, hn⟩
  · intro k s hs
    cases hs
  · intro p row hp
    cases hp
  · intro p row q symbols hp
    cases hp
  · intro p row hp
    cases hp
  · intro p q symbols hs
    cases hs
  · intro s hs q hq
    rw [h s hs] at hq
    exact absurd hq (OrdSet.not_mem_empty q)

theorem wellFormed_addState (hb : b.WellFormed) (s : State δ) : (b.addState s).WellFormed := by
  have declared {p : String} (hp : b.hasState p = true) : (b.addState s).hasState p = true := by
    obtain ⟨t, ht⟩ := Automaton.hasState_iff.1 hp
    rw [Automaton.hasState_iff, state?_addState]
    split
    · exact ⟨s, rfl⟩
    · exact ⟨t, ht⟩
  refine ⟨?_, ?_, ?_, hb.row_nonempty, hb.symbols_nonempty, ?_, hb.sets_nodup⟩
  · intro k t ht
    change (b.addState s).state? k = some t at ht
    rw [state?_addState] at ht
    split at ht
    · next hk =>
      cases ht
      exact hk.symm
    · exact hb.label_eq k t ht
  · intro p row hp
    exact declared (hb.source_declared p row hp)
  · intro p row q symbols hp hq
    exact declared (hb.target_declared p row q symbols hp hq)
  · intro finals hf q hq
    exact declared (hb.finals_declared finals hf q hq)

theorem wellFormed_addStates (hb : b.WellFormed) (l : List (State δ)) :
    (b.addStates l).WellFormed := by
  induction l generalizing b with
  | nil => exact hb
  | cons s l ih => exact ih (wellFormed_addState hb s)

theorem mem_extendFinals_cases {labels s : OrdSet String} {acceptance : Acceptance}
    (h : s ∈ (extendFinals labels acceptance).sets) :
    ∀ q ∈ s, q ∈ labels ∨ ∃ t ∈ acceptance.sets, q ∈ t := by
  intro q hq
  cases acceptance with
  | buchi finals =>
    rw [List.mem_singleton.1 h, OrdSet.mem_union] at hq
    rcases hq with hq | hq
    · exact Or.inr ⟨finals, List.mem_singleton.2 rfl, hq⟩
    · exact Or.inl hq
  | generalized family =>
    rw [extendFinals] at h
    split at h
    · exact Or.inr ⟨s, h, hq⟩
    · rcases List.mem_append.1 h with h | h
      · exact Or.inr ⟨s, h, hq⟩
      · exact Or.inl (List.mem_singleton.1 h ▸ hq)

theorem nodup_extendFinals {labels : OrdSet String} {acceptance : Acceptance}
    (h : acceptance.sets.Nodup) : (extendFinals labels acceptance).sets.Nodup := by
  cases acceptance with
  | buchi finals => exact List.pairwise_singleton _ _
  | generalized family =>
    rw [extendFinals]
    split
    · exact h
    · next hn =>
      refine List.pairwise_append.2 ⟨h, List.pairwise_singleton _ _, fun s hs t ht he => hn ?_⟩
      rwa [← List.mem_singleton.1 ht, ← he]

theorem wellFormed_withFinals (hb : b.WellFormed) {labels : OrdSet String}
    (h : ∀ q ∈ labels, b.hasState q = true) : (b.withFinals labels).WellFormed := by
  refine ⟨hb.label_eq, hb.source_declared, hb.target_declared, hb.row_nonempty,
    hb.symbols_nonempty, ?_, nodup_extendFinals hb.sets_nodup⟩
  intro s hs q hq
  rcases mem_extendFinals_cases hs q hq with hq | ⟨t, ht, hq⟩
  · exact h q hq
  · exact hb.finals_declared t ht q hq

variable [Std.TransOrd σ] [Std.LawfulEqOrd σ]

theorem wellFormed_link (hb : b.WellFormed) {source target : String} {symbols : OrdSet σ}
    (hs : b.hasState source = true) (ht : b.hasState target = true)
    (hn : symbols.isEmpty = false) : (b.link source target symbols).WellFormed := by
  refine ⟨hb.label_eq, ?_, ?_, ?_, ?_, hb.finals_declared, hb.sets_nodup⟩
  · intro p row hp
    simp only [link, OrdMap.get?_insert] at hp
    split at hp
    · next he => exact he ▸ hs
    · exact hb.source_declared p row hp
  · intro p row q stored hp hq
    have he := symbols?_link b source target p q symbols
    rw [Automaton.symbols?, hp, Option.bind_some, hq] at he
    split at he
    · next hpq => exact hpq.2 ▸ ht
    · obtain ⟨old, hold, hq⟩ := Option.bind_eq_some_iff.1 he.symm
      exact hb.target_declared p old q stored hold hq
  · intro p row hp
    simp only [link, OrdMap.get?_insert] at hp
    split at hp
    · cases hp
      have hm := OrdMap.get?_insert ((b.rows.get? source).getD .empty) target target
        (((((b.rows.get? source).getD .empty).get? target).getD .empty).union symbols)
      rw [if_pos rfl] at hm
      simpa [OrdMap.isEmpty] using List.ne_nil_of_mem (OrdMap.get?_eq_some_iff.1 hm)
    · exact hb.row_nonempty p row hp
  · intro p q stored hp
    rw [symbols?_link] at hp
    split at hp
    · cases hp
      obtain ⟨a, ha⟩ := OrdSet.isEmpty_eq_false_iff.1 hn
      exact OrdSet.isEmpty_eq_false_iff.2 ⟨a, OrdSet.mem_union.2 (Or.inr ha)⟩
    · exact hb.symbols_nonempty p q stored hp

variable [DecidableEq σ]

theorem wellFormed_build (hb : b.WellFormed) : b.build.WellFormed := by
  rw [build]
  split
  · exact Automaton.wellFormed_merged hb
  · exact hb

theorem accepts_build (hb : b.WellFormed) : b.build.Accepts w ↔ b.Accepts w := by
  rw [build]
  split
  · exact Automaton.accepts_merged hb
  · exact Iff.rfl

theorem finalSets_build_eq_nil_iff (hb : b.WellFormed) :
    b.build.finalSets = [] ↔ b.finalSets = [] := by
  rw [build]
  split
  · obtain ⟨rep, h⟩ := (Automaton.exists_quotient_mergeUpTo b.size hb).2
    rw [Automaton.merged, h.finalSets, List.map_eq_nil_iff]
  · exact Iff.rfl

end Builder

mutual

theorem Reachable.wellFormed {σ δ : Type} [Ord σ] [Std.TransOrd σ] [Std.LawfulEqOrd σ]
    [DecidableEq σ] {b : Builder σ δ} : Reachable b → b.WellFormed
  | .buchi => Builder.wellFormed_empty (fun _ hs => List.mem_singleton.1 hs)
      (List.pairwise_singleton _ _)
  | .generalized => Builder.wellFormed_empty (fun _ hs => absurd hs List.not_mem_nil)
      List.Pairwise.nil
  | .ofAutomaton hA => hA.wellFormed
  | .withOptimize _ hb => hb.wellFormed
  | .addState s hb => Builder.wellFormed_addState hb.wellFormed s
  | .addStates l hb => Builder.wellFormed_addStates hb.wellFormed l
  | .addTransition hb h => by
      obtain ⟨hs, ht, hn, rfl⟩ := Builder.addTransition_eq_ok_iff.1 h
      exact Builder.wellFormed_link hb.wellFormed hs ht hn
  | .addFinal hb h => by
      obtain ⟨hl, rfl⟩ := Builder.addFinal_eq_ok_iff.1 h
      refine Builder.wellFormed_withFinals hb.wellFormed fun q hq => ?_
      rwa [OrdSet.mem_singleton.1 hq]
  | .addFinals hb h => by
      obtain ⟨hl, rfl⟩ := Builder.addFinals_eq_ok_iff.1 h
      exact Builder.wellFormed_withFinals hb.wellFormed hl

theorem Built.wellFormed {σ δ : Type} [Ord σ] [Std.TransOrd σ] [Std.LawfulEqOrd σ]
    [DecidableEq σ] {A : Automaton σ δ} : Built A → A.WellFormed
  | .build hb => Builder.wellFormed_build hb.wellFormed

end

namespace Automaton

variable [Std.TransOrd σ] [Std.LawfulEqOrd σ] [DecidableEq σ]

/-- Merging keeps the language, when an automaton is merged that exists and when its builder is
told to merge. -/
theorem optimized_accepts_iff (hA : Built A) (w : Word σ) :
    (A.optimized.Accepts w ↔ A.Accepts w) ∧ ∀ b : Builder σ δ, Reachable b → b.build = A →
      ((b.withOptimize true).build.Accepts w ↔ A.Accepts w) := by
  constructor
  · exact Builder.accepts_build (b := (Builder.ofAutomaton A).withOptimize true) hA.wellFormed
  · intro b hb he
    rw [← he, Builder.accepts_build hb.wellFormed]
    exact Builder.accepts_build (b := b.withOptimize true) hb.wellFormed

def forkStates : Builder Nat Unit :=
  Builder.generalized.addStates [⟨"p", true, none⟩, ⟨"q", false, none⟩, ⟨"r", false, none⟩]

/-- The symbols `0` and `2` lead to states that agree in all that a merge looks at, and `1` leads
back from both. -/
def fork : Builder Nat Unit :=
  (((((forkStates.withFinals (.ofList ["q", "r"])).withFinals (.singleton "p")).link
    "p" "q" (.singleton 0)).link "p" "r" (.singleton 2)).link
    "q" "p" (.singleton 1)).link "r" "p" (.singleton 1)

theorem reachable_fork : Reachable fork := by
  have hstates : Reachable forkStates := .addStates _ .generalized
  have hfinals := (hstates.withFinals (.ofList ["q", "r"]) (by decide)).withFinals
    (.singleton "p") (by decide)
  exact (((hfinals.link rfl rfl rfl).link rfl rfl rfl).link rfl rfl rfl).link rfl rfl rfl

theorem edge_fork {p q : String} {n : Nat} : fork.Edge p n q ↔
    p = "p" ∧ (q = "q" ∧ n = 0 ∨ q = "r" ∧ n = 2) ∨ (p = "q" ∨ p = "r") ∧ q = "p" ∧ n = 1 := by
  have none : ¬ ((forkStates.withFinals (.ofList ["q", "r"])).withFinals
      (.singleton "p")).Edge p n q := not_edge_of_rows_eq_empty rfl
  simp only [fork, Builder.edge_link, none, OrdSet.mem_singleton, false_or]
  grind

theorem accepts_fork : fork.build.Accepts fun i => 2 - i % 2 := by
  refine ⟨fun i => if i % 2 = 0 then "p" else "r", ⟨⟨_, rfl, rfl⟩, fun i => ?_⟩, fun s hs i => ?_⟩
  · apply edge_fork.2
    by_cases hi : i % 2 = 0
    · have hnext : ¬ (i + 1) % 2 = 0 := by omega
      simp [hi, hnext]
    · have hnext : (i + 1) % 2 = 0 := by omega
      have hone : i % 2 = 1 := by omega
      simp [hnext, hone]
  · have hsets : fork.build.finalSets = [.ofList ["q", "r"], .singleton "p"] := by decide
    rw [hsets] at hs
    simp only [List.mem_cons, List.not_mem_nil, or_false] at hs
    rcases hs with rfl | rfl
    · exact ⟨2 * i + 1, by omega, by simp⟩
    · exact ⟨2 * i, by omega, by simp⟩

theorem optimized_accepts_fork : fork.build.optimized.hasState "r" = false ∧
    (fork.build.optimized.Accepts fun i => 2 - i % 2) ∧
      ((fork.withOptimize true).build.Accepts fun i => 2 - i % 2) ∧
        ¬ fork.build.optimized.Accepts fun _ => 1 := by
  have hbuilt : Built fork.build := .build reachable_fork
  obtain ⟨hmerged, hbuilder⟩ := optimized_accepts_iff hbuilt fun i => 2 - i % 2
  refine ⟨by decide +kernel, hmerged.2 accepts_fork,
    (hbuilder fork reachable_fork rfl).2 accepts_fork, fun hw => ?_⟩
  obtain ⟨r, hr, -⟩ := (optimized_accepts_iff hbuilt _).1.1 hw
  -- The symbol `1` leads to `p` only, and not on from there.
  have hfirst : (r 0 = "q" ∨ r 0 = "r") ∧ r 1 = "p" := by simpa using edge_fork.1 (hr.edge 0)
  have hsecond := edge_fork.1 (hr.edge 1)
  simp [hfirst.2] at hsecond

end Automaton

end TemporalCheck
