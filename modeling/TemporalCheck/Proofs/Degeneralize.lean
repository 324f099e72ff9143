import TemporalCheck.Proofs.Labels
import TemporalCheck.Proofs.WellFormed

/-!
# One final set accepts what the family accepts

The copies of the states in `k` rounds form an unrolling of the automaton: a run of
it is a run of the automaton together with the rounds that the run determines. The
rounds go round for ever exactly when every final set is visited again and again.
-/

namespace TemporalCheck.Automaton

variable {σ δ : Type} [Ord σ] {A D : Automaton σ δ}

def roundCount (A : Automaton σ δ) : Nat := max A.finalSets.length 1

theorem roundCount_pos (A : Automaton σ δ) : 0 < A.roundCount := by
  unfold roundCount
  omega

def copies (A : Automaton σ δ) : List (State δ) :=
  (List.range A.roundCount).flatMap fun r => A.states.values.map (copyState r)

theorem nextRound_lt {sets : List (OrdSet String)} {p : String} {r : Nat}
    (h : r < max sets.length 1) : nextRound sets p r < max sets.length 1 := by
  unfold nextRound
  split
  · next hs =>
    cases hr : sets[r]? with
    | none => simp [hr] at hs
    | some s =>
      have hlt := (List.getElem?_eq_some_iff.1 hr).1
      have hmod := Nat.mod_lt (r + 1) (by omega : 0 < sets.length)
      omega
  · exact h

theorem mem_copies (hA : A.WellFormed) {s : State δ} : s ∈ A.copies ↔
    ∃ r t, r < A.roundCount ∧ A.state? t.label = some t ∧ s = copyState r t := by
  simp only [copies, List.mem_flatMap, List.mem_range, List.mem_map, OrdMap.mem_values]
  constructor
  · intro h
    obtain ⟨r, hr, t, ⟨k, hk⟩, rfl⟩ := h
    refine ⟨r, t, hr, ?_, rfl⟩
    rw [hA.label_eq k t hk]
    exact hk
  · intro h
    obtain ⟨r, t, hr, ht, rfl⟩ := h
    exact ⟨r, hr, t, ⟨t.label, ht⟩, rfl⟩

theorem copies_inj (hA : A.WellFormed) :
    ∀ s ∈ A.copies, ∀ t ∈ A.copies, s.label = t.label → s = t := by
  intro s hs t ht h
  obtain ⟨m, u, -, hu, rfl⟩ := (mem_copies hA).1 hs
  obtain ⟨n, v, -, hv, rfl⟩ := (mem_copies hA).1 ht
  obtain ⟨hl, rfl⟩ := copyLabel_inj h
  rw [hl, hv] at hu
  rw [Option.some.inj hu]

theorem hasState_addStates_copies (hA : A.WellFormed) {p : String} {r : Nat}
    (hr : r < A.roundCount) (hp : A.hasState p = true) :
    (Builder.buchi.addStates A.copies : Builder σ δ).hasState (copyLabel p r) = true := by
  obtain ⟨t, ht⟩ := hasState_iff.1 hp
  obtain rfl := hA.label_eq p t ht
  exact Builder.hasState_addStates.2 (Or.inr
    ⟨copyState r t, (mem_copies hA).2 ⟨r, t, hr, ht, rfl⟩, rfl⟩)

theorem initial_addStates_copies (hA : A.WellFormed) {p : String} :
    (Builder.buchi.addStates A.copies : Builder σ δ).Initial p ↔
      ∃ q, A.Initial q ∧ p = copyLabel q 0 := by
  have stored {s : State δ} (hs : s ∈ A.copies) :
      (Builder.buchi.addStates A.copies : Builder σ δ).state? s.label = some s :=
    Builder.state?_addStates_of_mem (copies_inj hA) hs
  constructor
  · intro h
    obtain ⟨s, hs, hi⟩ := h
    rcases Builder.hasState_addStates.1 (hasState_iff.2 ⟨s, hs⟩) with hn | ⟨t, ht, rfl⟩
    · cases hn
    · rw [stored ht] at hs
      cases hs
      obtain ⟨r, u, hr, hu, rfl⟩ := (mem_copies hA).1 ht
      simp only [copyState, Bool.and_eq_true, beq_iff_eq] at hi
      exact ⟨u.label, ⟨u, hu, hi.2⟩, by rw [copyState, hi.1]⟩
  · intro h
    obtain ⟨q, ⟨t, ht, hi⟩, rfl⟩ := h
    obtain rfl := hA.label_eq q t ht
    have hm : copyState 0 t ∈ A.copies :=
      (mem_copies hA).2 ⟨0, t, A.roundCount_pos, ht, rfl⟩
    exact ⟨copyState 0 t, stored hm, by simp [copyState, hi]⟩

def setEvent (sets : List (OrdSet String)) (p : Nat → String) (m i : Nat) : Prop :=
  ∃ s, sets[m]? = some s ∧ p i ∈ s

theorem rotates_nextRound {sets : List (OrdSet String)} {p : Nat → String} {c : Nat → Nat}
    (hsets : sets ≠ []) (h0 : c 0 = 0) (h : ∀ i, c (i + 1) = nextRound sets (p i) (c i)) :
    Rotates sets.length (setEvent sets p) c := by
  have hpos := List.length_pos_iff.2 hsets
  have hmax : max sets.length 1 = sets.length := by omega
  have event (i : Nat) : setEvent sets p (c i) i ↔
      (sets[c i]?.any fun s => s.contains (p i)) = true := by
    simp [setEvent, Option.any_eq_true]
  refine ⟨?_, ?_, ?_⟩
  · intro i
    induction i with
    | zero => omega
    | succ i ih =>
      rw [h, ← hmax]
      exact nextRound_lt (hmax.symm ▸ ih)
  · intro i hi
    rw [h, nextRound, if_pos ((event i).1 hi)]
  · intro i hi
    rw [h, nextRound, if_neg fun ht => hi ((event i).2 ht)]

theorem forall_often_setEvent {sets : List (OrdSet String)} {p : Nat → String} :
    (∀ n < sets.length, Often (setEvent sets p n)) ↔ ∀ s ∈ sets, Recurs p s := by
  constructor
  · intro h s hs
    obtain ⟨n, hn, rfl⟩ := List.mem_iff_getElem.1 hs
    refine (h n hn).mono fun i hi => ?_
    obtain ⟨s, he, hp⟩ := hi
    rw [List.getElem?_eq_getElem hn] at he
    rwa [Option.some.inj he]
  · intro h n hn
    exact Often.mono (fun i hi => ⟨sets[n], List.getElem?_eq_getElem hn, hi⟩)
      (h sets[n] (List.getElem_mem hn))

/-- The first copy of the first set recurs exactly when every set does. -/
theorem often_final_iff {sets : List (OrdSet String)} {p : Nat → String}
    {c : Nat → Nat} (hsets : sets ≠ [])
    (h0 : c 0 = 0) (hc : ∀ i, c (i + 1) = nextRound sets (p i) (c i)) :
    (Often fun i => ∃ first, sets.head? = some first ∧ ∃ q ∈ first,
        copyLabel (p i) (c i) = copyLabel q 0) ↔ ∀ s ∈ sets, Recurs p s := by
  rw [← forall_often_setEvent, ← (rotates_nextRound hsets h0 hc).often_leave_iff
    (List.length_pos_iff.2 hsets)]
  have same (i : Nat) : (∃ first, sets.head? = some first ∧ ∃ q ∈ first,
      copyLabel (p i) (c i) = copyLabel q 0) ↔ c i = 0 ∧ setEvent sets p 0 i := by
    rw [setEvent, ← List.head?_eq_getElem?]
    constructor
    · intro hf
      obtain ⟨first, hfirst, q, hq, he⟩ := hf
      obtain ⟨hp, hci⟩ := copyLabel_inj he
      exact ⟨hci, first, hfirst, hp ▸ hq⟩
    · intro hf
      obtain ⟨hci, first, hfirst, hp⟩ := hf
      exact ⟨first, hfirst, p i, hp, by rw [hci]⟩
  simp only [same]

variable [Std.TransOrd σ] [Std.LawfulEqOrd σ] [DecidableEq σ]

structure Unrolls (A D : Automaton σ δ) : Prop where
  built : Built D
  state?_iff : ∀ p s, D.state? p = some s ↔ s ∈ A.copies ∧ s.label = p
  initial : ∀ p, D.Initial p ↔ ∃ q, A.Initial q ∧ p = copyLabel q 0
  edge : ∀ p a q, D.Edge p a q ↔ ∃ p' q' r, r < A.roundCount ∧ A.Edge p' a q' ∧
    p = copyLabel p' r ∧ q = copyLabel q' (nextRound A.finalSets p' r)
  finals : ∃ H, D.acceptance = .buchi H ∧
    ∀ q, q ∈ H ↔ ∃ first, A.finalSets.head? = some first ∧ ∃ p ∈ first, q = copyLabel p 0

theorem exists_copyFinals (hA : A.WellFormed) : ∃ (b : Builder σ δ) (H : OrdSet String),
    (match A.finalSets.head? with
      | some first => (Builder.buchi.addStates A.copies).addFinals
          (.ofList (first.toList.map fun label => copyLabel label 0))
      | none => .ok (Builder.buchi.addStates A.copies)) = .ok b ∧
    b.states = (Builder.buchi.addStates A.copies : Builder σ δ).states ∧ b.optimize = false ∧
      Reachable b ∧ (∀ p a q, ¬ b.Edge p a q) ∧ b.acceptance = .buchi H ∧
        ∀ q, q ∈ H ↔ ∃ first, A.finalSets.head? = some first ∧ ∃ p ∈ first, q = copyLabel p 0 := by
  obtain ⟨hrows, hacc, hopt⟩ := Builder.addStates_fields (Builder.buchi : Builder σ δ) A.copies
  have hreach : Reachable (Builder.buchi.addStates A.copies : Builder σ δ) := .addStates _ .buchi
  cases hf : A.finalSets.head? with
  | none => exact ⟨_, .empty, rfl, rfl, hopt, hreach,
      fun _ _ _ => not_edge_of_rows_eq_empty hrows, hacc, by simp⟩
  | some first =>
    have hmem := List.mem_of_mem_head? (Option.mem_def.2 hf)
    have declared (q : String) (hq : q ∈ OrdSet.ofList
        (first.toList.map fun label => copyLabel label 0)) :
        (Builder.buchi.addStates A.copies : Builder σ δ).hasState q = true := by
      obtain ⟨p, hp, rfl⟩ := List.mem_map.1 (OrdSet.mem_ofList.1 hq)
      exact hasState_addStates_copies hA A.roundCount_pos (hA.finals_declared first hmem p hp)
    have hok := Builder.addFinals_eq_ok_iff.2 ⟨declared, rfl⟩
    refine ⟨_, _, hok, rfl, hopt, .addFinals hreach hok,
      fun _ _ _ => not_edge_of_rows_eq_empty hrows, by simp only [Builder.withFinals, hacc]; rfl, fun q => ?_⟩
    rw [OrdSet.mem_union, or_iff_right (OrdSet.not_mem_empty q), OrdSet.mem_ofList, List.mem_map]
    simp only [Option.some.injEq, exists_eq_left', OrdSet.mem_def, eq_comm]

theorem exists_copyTransitions (hA : A.WellFormed) {b : Builder σ δ}
    (hb : b.states = (Builder.buchi.addStates A.copies : Builder σ δ).states) : ∃ c,
    (List.range A.roundCount).foldlM (fun b r => A.transitions.foldlM (fun b t =>
      b.addTransition (copyLabel t.1 r) (copyLabel t.2.1 (nextRound A.finalSets t.1 r)) t.2.2) b) b
        = .ok c ∧
    b.Extends c fun p a q => ∃ p' q' r, r < A.roundCount ∧ A.Edge p' a q' ∧
      p = copyLabel p' r ∧ q = copyLabel q' (nextRound A.finalSets p' r) := by
  have declared (d : Builder σ δ) (hd : d.states = b.states) {p : String} {r : Nat}
      (hr : r < A.roundCount) (hp : A.hasState p = true) : d.hasState (copyLabel p r) = true := by
    rw [hasState_congr (hd.trans hb)]
    exact hasState_addStates_copies hA hr hp
  obtain ⟨c, hc, hext⟩ := Builder.exists_foldlM_extends (b := b) (l := List.range A.roundCount)
    (f := fun b r => A.transitions.foldlM (fun b t => b.addTransition (copyLabel t.1 r)
      (copyLabel t.2.1 (nextRound A.finalSets t.1 r)) t.2.2) b)
    (fun r _ _ _ => Builder.extends_foldlM fun t _ _ _ => Builder.extends_addTransition)
    fun r hr d hd => by
      have hr := List.mem_range.1 hr
      obtain ⟨c, hc, -⟩ := Builder.exists_foldlM_extends (b := d) (l := A.transitions)
        (f := fun b t => b.addTransition (copyLabel t.1 r)
          (copyLabel t.2.1 (nextRound A.finalSets t.1 r)) t.2.2)
        (fun t _ _ _ => Builder.extends_addTransition) fun t ht e he => by
          have hs := mem_transitions.1 ht
          obtain ⟨row, hrow, hq⟩ := Option.bind_eq_some_iff.1 hs
          exact Builder.exists_addTransition_eq_ok
            (declared e (he.trans hd) hr (hA.source_declared _ row hrow))
            (declared e (he.trans hd) (nextRound_lt hr) (hA.target_declared _ row _ _ hrow hq))
            (hA.symbols_nonempty _ _ _ hs)
      exact ⟨c, hc⟩
  refine ⟨c, hc, hext.congr fun p a q => ?_⟩
  constructor
  · intro h
    obtain ⟨r, hr, t, ht, hp, hq, ha⟩ := h
    exact ⟨t.1, t.2.1, r, List.mem_range.1 hr, ⟨t.2.2, mem_transitions.1 ht, ha⟩, hp, hq⟩
  · intro h
    obtain ⟨p', q', r, hr, ⟨symbols, hs, ha⟩, hp, hq⟩ := h
    exact ⟨r, List.mem_range.2 hr, (p', q', symbols), mem_transitions.2 hs, hp, hq, ha⟩

theorem exists_degeneralize (hA : A.WellFormed) : ∃ D, A.degeneralize = .ok D ∧ Unrolls A D := by
  obtain ⟨b, H, hb, hs, ho, hreach, hnone, hH, hmem⟩ := exists_copyFinals hA
  obtain ⟨c, hc, hext⟩ := exists_copyTransitions hA hs
  have hbuild := hext.build_eq ho
  refine ⟨c.build, ?_, .build (hext.reachable hreach), ?_, ?_, ?_, H, ?_, hmem⟩
  · simp only [degeneralize]
    rw [← roundCount, ← copies]
    cases hf : A.finalSets.head? with
    | none =>
      rw [hf] at hb
      cases hb
      simp only [bind, Except.bind, hc]
      rfl
    | some first =>
      simp only [hf] at hb
      simp only [bind, Except.bind, hb, hc]
      rfl
  · intro p s
    rw [hbuild, state?, hext.states, hs]
    exact Builder.state?_addStates_eq_some_iff rfl (copies_inj hA)
  · intro p
    rw [hbuild, ← initial_addStates_copies hA]
    simp only [Initial, state?, hext.states, hs]
  · intro p a q
    rw [hbuild, hext.edge, or_iff_right (hnone p a q)]
  · rw [hbuild, hext.acceptance, hH]

namespace Unrolls

variable {w : Word σ} {r : Nat → String}

theorem exists_rounds (h : Unrolls A D) (hr : D.Run w r) : ∃ (p : Nat → String) (c : Nat → Nat),
    A.Run w p ∧ c 0 = 0 ∧ (∀ i, c (i + 1) = nextRound A.finalSets (p i) (c i)) ∧
      ∀ i, r i = copyLabel (p i) (c i) := by
  obtain ⟨q, hq, hstart⟩ := (h.initial _).1 hr.initial
  obtain ⟨x, hx0, hx, hstep⟩ := exists_sequence
    (P := fun i (x : String × Nat) => r i = copyLabel x.1 x.2)
    (R := fun i x y => A.Edge x.1 (w i) y.1 ∧ y.2 = nextRound A.finalSets x.1 x.2)
    (a := (q, 0)) hstart fun i x hx => by
      obtain ⟨p', q', m, -, hedge, hp, hq⟩ := (h.edge _ _ _).1 (hr.edge i)
      obtain ⟨hl, hm⟩ := copyLabel_inj (hx.symm.trans hp)
      rw [← hl] at hedge
      exact ⟨(q', nextRound A.finalSets x.1 x.2), ⟨hedge, rfl⟩, by rw [hl, hm]; exact hq⟩
  refine ⟨fun i => (x i).1, fun i => (x i).2, ⟨?_, fun i => (hstep i).1⟩, ?_,
    fun i => (hstep i).2, hx⟩
  · rw [hx0]
    exact hq
  · simp only [hx0]

def roundAt (sets : List (OrdSet String)) (p : Nat → String) : Nat → Nat
  | 0 => 0
  | i + 1 => nextRound sets (p i) (roundAt sets p i)

theorem run_copyLabel (h : Unrolls A D) {p : Nat → String} (hp : A.Run w p) :
    D.Run w fun i => copyLabel (p i) (roundAt A.finalSets p i) := by
  have hlt (i : Nat) : roundAt A.finalSets p i < A.roundCount := by
    induction i with
    | zero => exact A.roundCount_pos
    | succ i ih => exact nextRound_lt ih
  refine ⟨(h.initial _).2 ⟨p 0, hp.initial, rfl⟩, fun i => (h.edge _ _ _).2 ?_⟩
  exact ⟨p i, p (i + 1), roundAt A.finalSets p i, hlt i, hp.edge i, rfl, rfl⟩

theorem accepts_iff (h : Unrolls A D) (hsets : A.finalSets ≠ []) :
    D.Accepts w ↔ A.Accepts w := by
  obtain ⟨H, hH, hmem⟩ := h.finals
  rw [accepts_buchi_iff hH]
  simp only [hmem]
  constructor
  · intro hw
    obtain ⟨r, hr, hf⟩ := hw
    obtain ⟨p, c, hp, h0, hc, hlabel⟩ := h.exists_rounds hr
    simp only [hlabel] at hf
    exact ⟨p, hp, (often_final_iff hsets h0 hc).1 hf⟩
  · intro hw
    obtain ⟨p, hp, hf⟩ := hw
    exact ⟨_, h.run_copyLabel hp,
      (often_final_iff (c := roundAt A.finalSets p) hsets rfl fun _ => rfl).2 hf⟩

theorem not_accepts (h : Unrolls A D) (hsets : A.finalSets = []) : ¬ D.Accepts w := by
  obtain ⟨H, hH, hmem⟩ := h.finals
  rw [accepts_buchi_iff hH]
  intro hw
  obtain ⟨r, -, hf⟩ := hw
  obtain ⟨i, -, hi⟩ := hf 0
  obtain ⟨first, hfirst, -⟩ := (hmem _).1 hi
  rw [hsets] at hfirst
  cases hfirst

end Unrolls

/-- The automaton with one final set is built without error, whatever the labels are. It accepts a
word exactly when there is a final set at all and a run on the word visits each of them again and
again. -/
theorem degeneralize_accepts_iff_family (hA : Built A) : ∃ D, A.degeneralize = .ok D ∧
    (∃ H, D.acceptance = .buchi H) ∧ ∀ w, D.Accepts w ↔ A.finalSets ≠ [] ∧ A.Accepts w := by
  obtain ⟨D, hD, hu⟩ := exists_degeneralize hA.wellFormed
  obtain ⟨H, hH, -⟩ := hu.finals
  refine ⟨D, hD, ⟨H, hH⟩, fun w => ?_⟩
  by_cases hsets : A.finalSets = []
  · exact iff_of_false (hu.not_accepts hsets) fun hw => hw.1 hsets
  · rw [hu.accepts_iff hsets, and_iff_right hsets]

def memoryStates : Builder Nat Unit :=
  Builder.generalized.addStates [⟨"s", true, none⟩, ⟨"(s, 0)", false, none⟩]

def memory : Builder Nat Unit :=
  (((memoryStates.link "s" "s" (.singleton 0)).link "s" "(s, 0)" (.singleton 1)).link
    "(s, 0)" "s" (.singleton 0)).link "(s, 0)" "(s, 0)" (.singleton 1)

theorem reachable_memory : Reachable memory := by
  have hstates : Reachable memoryStates := .addStates _ .generalized
  exact (((hstates.link rfl rfl rfl).link rfl rfl rfl).link rfl rfl rfl).link rfl rfl rfl

theorem edge_memory {p q : String} {n : Nat} : memory.Edge p n q ↔
    (p = "s" ∨ p = "(s, 0)") ∧ (q = "s" ∧ n = 0 ∨ q = "(s, 0)" ∧ n = 1) := by
  have none : ¬ memoryStates.Edge p n q := not_edge_of_rows_eq_empty rfl
  simp only [memory, Builder.edge_link, none, OrdSet.mem_singleton, false_or]
  grind

def turns : Nat → String := enter "s" fun i => if i % 2 = 0 then "s" else "(s, 0)"

theorem run_turns : memory.Run (fun i => i % 2) turns := by
  have visits (i : Nat) : turns i = "s" ∨ turns i = "(s, 0)" := by
    cases i with
    | zero => exact Or.inl rfl
    | succ i =>
      by_cases hi : i % 2 = 0
      · exact Or.inl (if_pos hi)
      · exact Or.inr (if_neg hi)
  refine ⟨⟨_, rfl, rfl⟩, fun i => edge_memory.2 ⟨visits i, ?_⟩⟩
  by_cases hi : i % 2 = 0
  · exact Or.inl ⟨if_pos hi, hi⟩
  · exact Or.inr ⟨if_neg hi, by omega⟩

def alternation : Builder Nat Unit :=
  (memory.withFinals (.singleton "s")).withFinals (.singleton "(s, 0)")

theorem degeneralize_accepts_alternation :
    (∃ D, alternation.build.degeneralize = .ok D ∧
      D.Accepts (fun i => i % 2) ∧ ¬ D.Accepts fun _ => 0) ∧
      ∃ D, memory.build.degeneralize = .ok D ∧ ∀ w, ¬ D.Accepts w := by
  have hreach : Reachable alternation := (reachable_memory.withFinals (.singleton "s")
    (by decide)).withFinals (.singleton "(s, 0)") (by decide)
  have hsets : alternation.build.finalSets = [.singleton "s", .singleton "(s, 0)"] := by decide
  obtain ⟨D, hD, -, hacc⟩ := degeneralize_accepts_iff_family (.build hreach)
  obtain ⟨E, hE, -, hnone⟩ := degeneralize_accepts_iff_family (.build reachable_memory)
  refine ⟨⟨D, hD, ?_, fun hw => ?_⟩, E, hE, fun w hw => ((hnone w).1 hw).1 rfl⟩
  · apply (hacc _).2
    refine ⟨by simp [hsets], turns, ⟨run_turns.initial, run_turns.edge⟩, fun s hs i => ?_⟩
    rw [hsets] at hs
    simp only [List.mem_cons, List.not_mem_nil, or_false] at hs
    rcases hs with rfl | rfl
    · exact ⟨2 * i + 1, by omega, by simp [turns, enter]⟩
    · exact ⟨2 * i + 2, by omega, by simp [turns, enter]⟩
  · obtain ⟨-, r, hr, hf⟩ := (hacc _).1 hw
    obtain ⟨j, hj, hmem⟩ := hf (.singleton "(s, 0)") (by simp [hsets]) 1
    -- The symbol before a visit to the second state is `1`.
    obtain ⟨i, rfl⟩ : ∃ i, j = i + 1 := ⟨j - 1, by omega⟩
    have hedge := edge_memory.1 (hr.edge i)
    simp [OrdSet.mem_singleton.1 hmem] at hedge

end TemporalCheck.Automaton
