import TemporalCheck.Proofs.Degeneralize
import TemporalCheck.Proofs.Tableau.Language

/-!
# Families of final sets and single ones

A well-formed automaton is determined by its states, its edges and its final sets. Generalizing
declares all of them again and so gives the automaton back, with its final sets as a family. With
one final set there is one round, and degeneralizing does no more than to rename the states.
-/

namespace TemporalCheck

namespace OrdMap

variable {κ β γ : Type} [Ord κ] [Std.TransOrd κ] [Std.LawfulEqOrd κ] [DecidableEq κ]

def mapEntries (f : κ → κ) (g : β → γ) (m : OrdMap κ β) : OrdMap κ γ :=
  ofList (m.toList.map fun e => (f e.1, g e.2))

theorem get?_mapEntries_eq_some_iff {f : κ → κ} {g : β → γ} {m : OrdMap κ β} {j : κ} {c : γ}
    (hf : Function.Injective f) : (m.mapEntries f g).get? j = some c ↔
      ∃ k b, m.get? k = some b ∧ f k = j ∧ g b = c := by
  have hkeys : (m.toList.map fun e => f e.1).Nodup := by
    have := m.keys.nodup_toList.map hf
    rwa [keys, List.map_map] at this
  rw [mapEntries, get?_ofList_eq_some_iff (by simpa [Function.comp_def] using hkeys)]
  simp [get?_eq_some_iff, Prod.ext_iff]

end OrdMap

variable {σ δ : Type} [Ord σ]

namespace Automaton

variable {A : Automaton σ δ}

structure Populated (A : Automaton σ δ) : Prop where
  row : ∀ p row, A.rows.get? p = some row → ∃ e : String × OrdSet σ, row.get? e.1 = some e.2
  symbols : ∀ p q symbols, A.symbols? p q = some symbols → ∃ a, a ∈ symbols

theorem WellFormed.populated (hA : A.WellFormed) : A.Populated := by
  refine ⟨fun p row hrow => ?_, fun p q symbols hs => ?_⟩
  · have hne := hA.row_nonempty p row hrow
    rw [OrdMap.isEmpty, List.isEmpty_eq_false_iff] at hne
    obtain ⟨e, he⟩ := List.exists_mem_of_ne_nil _ hne
    exact ⟨e, OrdMap.get?_eq_some_iff.2 he⟩
  · exact OrdSet.isEmpty_eq_false_iff.1 (hA.symbols_nonempty p q symbols hs)

end Automaton

namespace Builder

variable {b c : Builder σ δ} {family l : List (OrdSet String)}

theorem foldlM_addFinals_of_nodup (hb : b.acceptance = .generalized family)
    (hn : (family ++ l).Nodup) (h : l.foldlM addFinals b = .ok c) :
    c.acceptance = .generalized (family ++ l) ∧ c.optimize = b.optimize := by
  induction l generalizing b family with
  | nil =>
    cases h
    exact ⟨by rw [hb, List.append_nil], rfl⟩
  | cons labels l ih =>
    obtain ⟨d, hd, hc⟩ := foldlM_cons_eq_ok_iff.1 h
    obtain ⟨-, rfl⟩ := addFinals_eq_ok_iff.1 hd
    have hfresh : labels ∉ family := fun hm =>
      (List.nodup_append.1 hn).2.2 labels hm labels List.mem_cons_self rfl
    have hacc : (b.withFinals labels).acceptance = .generalized (family ++ [labels]) := by
      rw [withFinals, hb, extendFinals, if_neg hfresh]
    obtain ⟨hfamily, hopt⟩ := ih hacc (by simpa using hn) hc
    exact ⟨by simpa using hfamily, hopt⟩

end Builder

namespace Automaton

variable {A B D : Automaton σ δ} {F : OrdSet String}

theorem mem_values_iff (hA : A.WellFormed) {s : State δ} {p : String} :
    s ∈ A.states.values ∧ s.label = p ↔ A.state? p = some s := by
  constructor
  · rintro ⟨hs, rfl⟩
    exact hA.state?_of_mem_values hs
  · intro hs
    exact ⟨OrdMap.mem_values.2 ⟨p, hs⟩, hA.label_eq p s hs⟩

theorem states_addStates_values (hA : A.WellFormed) {b : Builder σ δ} (hb : b.states = .empty) :
    (b.addStates A.states.values).states = A.states := by
  have inj : ∀ s ∈ A.states.values, ∀ t ∈ A.states.values, s.label = t.label → s = t := by
    intro s hs t ht he
    have hst := hA.state?_of_mem_values hs
    rw [he, hA.state?_of_mem_values ht] at hst
    exact (Option.some.inj hst).symm
  refine OrdMap.ext_get? fun p => Option.ext fun s => ?_
  exact (Builder.state?_addStates_eq_some_iff hb inj).trans (mem_values_iff hA)

/-- Every label `p` is replaced by `f p`, and what is stored under the labels stays. -/
def relabel (f : String → String) (A : Automaton σ δ) (finals : OrdSet String) :
    Automaton σ δ where
  states := A.states.mapEntries f fun s => ⟨f s.label, s.initial, s.data⟩
  rows := A.rows.mapEntries f fun row => row.mapEntries f id
  acceptance := .buchi (.ofList (finals.toList.map f))

section Relabel

variable {f : String → String} (hf : Function.Injective f) {p q : String} {a : σ}
include hf

theorem state?_relabel {s : State δ} : (A.relabel f F).state? p = some s ↔
    ∃ q t, A.state? q = some t ∧ f q = p ∧ ⟨f t.label, t.initial, t.data⟩ = s :=
  OrdMap.get?_mapEntries_eq_some_iff hf

theorem symbols?_relabel {symbols : OrdSet σ} : (A.relabel f F).symbols? p q = some symbols ↔
    ∃ p' q', A.symbols? p' q' = some symbols ∧ f p' = p ∧ f q' = q := by
  simp only [symbols?, Option.bind_eq_some_iff, relabel, OrdMap.get?_mapEntries_eq_some_iff hf]
  constructor
  · rintro ⟨_, ⟨p', row, hrow, hp, rfl⟩, hq⟩
    obtain ⟨q', _, hs, he, rfl⟩ := (OrdMap.get?_mapEntries_eq_some_iff hf).1 hq
    exact ⟨p', q', ⟨row, hrow, hs⟩, hp, he⟩
  · rintro ⟨p', q', ⟨row, hrow, hs⟩, hp, hq⟩
    exact ⟨_, ⟨p', row, hrow, hp, rfl⟩,
      (OrdMap.get?_mapEntries_eq_some_iff hf).2 ⟨q', symbols, hs, hq, rfl⟩⟩

theorem edge_relabel : (A.relabel f F).Edge p a q ↔
    ∃ p' q', A.Edge p' a q' ∧ f p' = p ∧ f q' = q := by
  simp only [Edge, symbols?_relabel hf]
  constructor
  · rintro ⟨symbols, ⟨p', q', hs, hp, hq⟩, ha⟩
    exact ⟨p', q', ⟨symbols, hs, ha⟩, hp, hq⟩
  · rintro ⟨p', q', ⟨symbols, hs, ha⟩, hp, hq⟩
    exact ⟨symbols, ⟨p', q', hs, hp, hq⟩, ha⟩

theorem Populated.relabel (hA : A.Populated) : (A.relabel f F).Populated := by
  refine ⟨fun p row hrow => ?_, fun p q symbols hs => ?_⟩
  · obtain ⟨p', old, hold, -, rfl⟩ := (OrdMap.get?_mapEntries_eq_some_iff hf).1 hrow
    obtain ⟨e, he⟩ := hA.row p' old hold
    exact ⟨(f e.1, e.2), (OrdMap.get?_mapEntries_eq_some_iff hf).2 ⟨e.1, e.2, he, rfl, rfl⟩⟩
  · obtain ⟨p', q', hs, -⟩ := (symbols?_relabel hf).1 hs
    exact hA.symbols p' q' symbols hs

end Relabel

theorem copyLabel_zero_injective : Function.Injective fun p => copyLabel p 0 :=
  fun _ _ h => (copyLabel_inj h).1

variable [Std.TransOrd σ] [Std.LawfulEqOrd σ]

theorem Populated.rows_ext (hA : A.Populated) (hB : B.Populated)
    (h : ∀ p a q, A.Edge p a q ↔ B.Edge p a q) : A.rows = B.rows := by
  have hsymbols (p q : String) : A.symbols? p q = B.symbols? p q :=
    option_ext_mem (R := fun s a => a ∈ s) (fun _ _ => OrdSet.ext_mem) (hA.symbols p q)
      (hB.symbols p q) fun a => h p a q
  refine OrdMap.ext_get? fun p => option_ext_mem
    (R := fun (row : Row σ) (e : String × OrdSet σ) => row.get? e.1 = some e.2)
    (fun r s hrs => OrdMap.ext_get? fun q => Option.ext fun t => hrs (q, t))
    (hA.row p) (hB.row p) fun e => ?_
  have hq := hsymbols p e.1
  simp only [← Option.bind_eq_some_iff]
  rw [symbols?, symbols?] at hq
  rw [hq]

variable [DecidableEq σ]

theorem exists_rebuilt (hA : A.WellFormed) : ∃ b : Builder σ δ, A.generalize = .ok b.build ∧
    Reachable b ∧ b.optimize = false ∧ b.states = A.states ∧
      (∀ p a q, b.Edge p a q ↔ A.Edge p a q) ∧ b.acceptance = .generalized A.finalSets := by
  let b : Builder σ δ := Builder.generalized.addStates A.states.values
  obtain ⟨hrows, hacc, hopt⟩ :=
    Builder.addStates_fields (Builder.generalized : Builder σ δ) A.states.values
  have hstates : b.states = A.states := states_addStates_values hA rfl
  obtain ⟨c, hc, hext⟩ := Builder.exists_foldlM_extends (l := A.transitions) (b := b)
    (f := fun b t => b.addTransition t.1 t.2.1 t.2.2)
    (fun t _ _ _ => Builder.extends_addTransition) fun t ht d hd => by
      obtain ⟨row, hrow, hq⟩ := Option.bind_eq_some_iff.1 (mem_transitions.1 ht)
      have same (p : String) : d.hasState p = A.hasState p := hasState_congr (hd.trans hstates)
      have hsymbols := hA.symbols_nonempty _ _ _ (mem_transitions.1 ht)
      refine Builder.exists_addTransition_eq_ok ?_ ?_ hsymbols
      · rw [same]
        exact hA.source_declared _ row hrow
      · rw [same]
        exact hA.target_declared _ row _ _ hrow hq
  obtain ⟨d, hd⟩ := Builder.exists_foldlM_addFinals (b := c) (l := A.finalSets) fun s hs q hq => by
    rw [hasState_congr (hext.states.trans hstates)]
    exact hA.finals_declared s hs q hq
  have hnone : c.acceptance = .generalized [] := hext.acceptance.trans hacc
  obtain ⟨dstates, drows, hreach, -⟩ := Builder.foldlM_addFinals hnone hd
  obtain ⟨dacc, dopt⟩ := Builder.foldlM_addFinals_of_nodup hnone hA.sets_nodup hd
  refine ⟨d, bind_eq_ok_iff.2 ⟨c, hc, bind_eq_ok_iff.2 ⟨d, hd, rfl⟩⟩,
    hreach (hext.reachable (.addStates _ .generalized)), dopt.trans (hext.optimize.trans hopt),
    dstates.trans (hext.states.trans hstates), fun p a q => ?_, dacc⟩
  have hedge : d.Edge p a q ↔ c.Edge p a q := by simp only [Edge, symbols?, drows]
  rw [hedge, hext.edge, or_iff_right (not_edge_of_rows_eq_empty hrows)]
  constructor
  · rintro ⟨t, ht, rfl, rfl, ha⟩
    exact ⟨t.2.2, mem_transitions.1 ht, ha⟩
  · rintro ⟨symbols, hs, ha⟩
    exact ⟨(p, q, symbols), mem_transitions.2 hs, rfl, rfl, ha⟩

theorem exists_generalize (hA : A.WellFormed) : ∃ G, A.generalize = .ok G ∧ Built G := by
  obtain ⟨b, hok, hb, -⟩ := exists_rebuilt hA
  exact ⟨b.build, hok, .build hb⟩

theorem generalize_eq_ok (hA : A.WellFormed) :
    A.generalize = .ok ⟨A.states, A.rows, .generalized A.finalSets⟩ := by
  obtain ⟨b, hok, hb, hopt, hstates, hedge, hacc⟩ := exists_rebuilt hA
  rw [hok, Builder.build, hopt, if_neg Bool.false_ne_true, ← hstates, ← hacc,
    ← Populated.rows_ext hb.wellFormed.populated hA.populated hedge]

/-- With one final set there is one round, from which no step leads on. -/
theorem Unrolls.eq_relabel (h : Unrolls A D) (hA : A.WellFormed) (hF : A.finalSets = [F]) :
    D = A.relabel (fun p => copyLabel p 0) F := by
  have hround : A.roundCount = 1 := by rw [roundCount, hF]; rfl
  have hnext (p : String) : nextRound A.finalSets p 0 = 0 := by
    simp [nextRound, hF]
  have hinj := copyLabel_zero_injective
  have hstates : D.states = (A.relabel (fun p => copyLabel p 0) F).states := by
    refine OrdMap.ext_get? fun p => Option.ext fun s => ?_
    refine (h.state?_iff p s).trans (Iff.trans ?_ (state?_relabel hinj).symm)
    rw [mem_copies hA, hround]
    constructor
    · rintro ⟨⟨r, t, hr, ht, rfl⟩, rfl⟩
      obtain rfl := Nat.lt_one_iff.1 hr
      exact ⟨t.label, t, ht, rfl, rfl⟩
    · rintro ⟨q, t, ht, rfl, rfl⟩
      obtain rfl := hA.label_eq q t ht
      exact ⟨⟨0, t, Nat.one_pos, ht, rfl⟩, rfl⟩
  have hrows : D.rows = (A.relabel (fun p => copyLabel p 0) F).rows := by
    refine h.built.wellFormed.populated.rows_ext (hA.populated.relabel hinj) fun p a q => ?_
    rw [h.edge, edge_relabel hinj, hround]
    constructor
    · rintro ⟨p', q', r, hr, he, rfl, rfl⟩
      obtain rfl := Nat.lt_one_iff.1 hr
      exact ⟨p', q', he, rfl, by rw [hnext]⟩
    · rintro ⟨p', q', he, rfl, rfl⟩
      exact ⟨p', q', 0, Nat.one_pos, he, rfl, by rw [hnext]⟩
  obtain ⟨H, hH, hmem⟩ := h.finals
  have hfinals : H = .ofList (F.toList.map fun p => copyLabel p 0) := by
    refine OrdSet.ext_mem fun q => ?_
    rw [hmem, hF, OrdSet.mem_ofList, List.mem_map]
    simp only [List.head?_cons, Option.some.injEq, exists_eq_left', OrdSet.mem_def, eq_comm]
  cases D
  cases hstates
  cases hrows
  cases hH
  rw [hfinals]
  rfl

/-- Both conversions succeed. Generalizing changes nothing but the kind of acceptance, so it is
idempotent, and degeneralizing does not see whether it came first. A single final set is kept as
it is, with all labels renamed in the same way, and different labels differently. -/
theorem generalize_degeneralize_laws (hA : Built A) : ∃ G D,
    A.generalize = .ok G ∧ A.degeneralize = .ok D ∧
      G = ⟨A.states, A.rows, .generalized A.finalSets⟩ ∧
      (A.acceptance.isGeneralized = true → G = A) ∧
      G.generalize = .ok G ∧ G.degeneralize = .ok D ∧
      Function.Injective (fun p => copyLabel p 0) ∧
      ∀ F, A.finalSets = [F] → D = A.relabel (fun p => copyLabel p 0) F := by
  obtain ⟨D, hD, hunrolls⟩ := exists_degeneralize hA.wellFormed
  have hgeneralize := generalize_eq_ok hA.wellFormed
  obtain ⟨G, hG, hbuilt⟩ := exists_generalize hA.wellFormed
  obtain rfl := Except.ok.inj (hgeneralize.symm.trans hG)
  refine ⟨_, D, hG, hD, rfl, fun hfamily => ?_, generalize_eq_ok hbuilt.wellFormed, hD,
    copyLabel_zero_injective, fun F hF => hunrolls.eq_relabel hA.wellFormed hF⟩
  obtain ⟨states, rows, acceptance⟩ := A
  cases acceptance with
  | buchi finals => cases hfamily
  | generalized family => rfl

theorem generalize_degeneralize_memory : ∃ D : Automaton Nat Unit,
    (memory.withFinals (.singleton "s")).build.generalize =
      .ok (memory.withFinals (.singleton "s")).build ∧
    (memory.withFinals (.singleton "s")).build.degeneralize = .ok D ∧
    D.states.keys = .ofList ["(s, 0)", "((s, 0), 0)"] ∧
    D.symbols? "(s, 0)" "((s, 0), 0)" = some (.singleton 1) ∧
    D.acceptance = .buchi (.singleton "(s, 0)") := by
  have hreach := reachable_memory.withFinals (.singleton "s") (by decide)
  obtain ⟨G, D, hG, hD, -, hsame, -, -, -, hone⟩ := generalize_degeneralize_laws (.build hreach)
  obtain rfl := hsame rfl
  obtain rfl := hone (.singleton "s") rfl
  exact ⟨_, hG, hD, by decide +kernel, by decide +kernel, by decide +kernel⟩

end Automaton

end TemporalCheck
