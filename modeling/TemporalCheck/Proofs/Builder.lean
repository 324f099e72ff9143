import TemporalCheck.Automaton.Built
import TemporalCheck.Automaton.Language
import TemporalCheck.Proofs.Fold

/-!
# What building adds

The views of an automaton are its declared states, its edges and its final sets.
`Extends b c E` says that a builder has gained exactly the edges of `E`, so a
construction is described by the edges that each of its calls adds. The invariant
of all builders and of all that is built from them is proved from one lemma per
call.
-/

namespace TemporalCheck

theorem OrdMap.mem_values {κ β : Type} [Ord κ] [Std.TransOrd κ] [Std.LawfulEqOrd κ]
    {m : OrdMap κ β} {b : β} : b ∈ m.values ↔ ∃ k, m.get? k = some b := by
  simp only [values, List.mem_map, get?_eq_some_iff]
  constructor
  · intro h
    obtain ⟨e, he, rfl⟩ := h
    exact ⟨e.1, he⟩
  · intro h
    obtain ⟨k, hk⟩ := h
    exact ⟨(k, b), hk, rfl⟩

namespace Automaton

variable {σ δ : Type} [Ord σ] {A : Automaton σ δ} {p q : String}

theorem hasState_iff : A.hasState p = true ↔ ∃ s, A.state? p = some s :=
  Option.isSome_iff_exists

theorem hasState_congr {B : Automaton σ δ} (h : A.states = B.states) :
    A.hasState p = B.hasState p := by
  rw [hasState, h, hasState]

theorem Initial.hasState (h : A.Initial p) : A.hasState p = true := by
  obtain ⟨s, hs, -⟩ := h
  exact hasState_iff.2 ⟨s, hs⟩

theorem mem_transitionsFrom {symbols : OrdSet σ} :
    (q, symbols) ∈ A.transitionsFrom p ↔ A.symbols? p q = some symbols := by
  rw [transitionsFrom, symbols?]
  cases A.rows.get? p with
  | none => simp [OrdMap.empty]
  | some row => simp [OrdMap.get?_eq_some_iff]

theorem mem_transitions {symbols : OrdSet σ} :
    (p, q, symbols) ∈ A.transitions ↔ A.symbols? p q = some symbols := by
  simp only [transitions, List.mem_flatMap, List.mem_map, symbols?, Option.bind_eq_some_iff,
    OrdMap.get?_eq_some_iff]
  constructor
  · intro h
    obtain ⟨⟨p, row⟩, hrow, ⟨q, symbols⟩, hs, he⟩ := h
    cases he
    exact ⟨row, hrow, hs⟩
  · intro h
    obtain ⟨row, hrow, hs⟩ := h
    exact ⟨(p, row), hrow, (q, symbols), hs, rfl⟩

theorem mem_successors : q ∈ A.successors p ↔ A.hasTransition p q = true := by
  simp only [successors, List.mem_map, hasTransition, Option.isSome_iff_exists]
  constructor
  · intro h
    obtain ⟨⟨q, symbols⟩, hs, rfl⟩ := h
    exact ⟨symbols, mem_transitionsFrom.1 hs⟩
  · intro h
    obtain ⟨symbols, hs⟩ := h
    exact ⟨(q, symbols), mem_transitionsFrom.2 hs, rfl⟩

theorem mem_initialStates (hA : A.WellFormed) {s : State δ} :
    s ∈ A.initialStates ↔ A.state? s.label = some s ∧ s.initial = true := by
  rw [initialStates, List.mem_filter, OrdMap.mem_values]
  refine and_congr_left fun _ => ⟨?_, fun h => ⟨s.label, h⟩⟩
  intro h
  obtain ⟨k, hk⟩ := h
  rw [hA.label_eq k s hk]
  exact hk

theorem initial_iff (hA : A.WellFormed) :
    A.Initial p ↔ ∃ s ∈ A.initialStates, s.label = p := by
  constructor
  · intro h
    obtain ⟨s, hs, hi⟩ := h
    obtain rfl := hA.label_eq p s hs
    exact ⟨s, (mem_initialStates hA).2 ⟨hs, hi⟩, rfl⟩
  · intro h
    obtain ⟨s, hs, rfl⟩ := h
    exact ⟨s, (mem_initialStates hA).1 hs⟩

theorem not_edge_of_rows_eq_empty (h : A.rows = .empty) {a : σ} : ¬ A.Edge p a q := by
  intro he
  obtain ⟨symbols, hs, -⟩ := he
  rw [symbols?, h] at hs
  cases hs

namespace WellFormed

theorem edge_source (hA : A.WellFormed) {a : σ} (h : A.Edge p a q) : A.hasState p = true := by
  obtain ⟨symbols, hs, -⟩ := h
  obtain ⟨row, hrow, -⟩ := Option.bind_eq_some_iff.1 hs
  exact hA.source_declared p row hrow

theorem edge_target (hA : A.WellFormed) {a : σ} (h : A.Edge p a q) : A.hasState q = true := by
  obtain ⟨symbols, hs, -⟩ := h
  obtain ⟨row, hrow, hq⟩ := Option.bind_eq_some_iff.1 hs
  exact hA.target_declared p row q symbols hrow hq

theorem hasTransition_iff (hA : A.WellFormed) :
    A.hasTransition p q = true ↔ ∃ a, A.Edge p a q := by
  rw [hasTransition, Option.isSome_iff_exists]
  constructor
  · intro h
    obtain ⟨symbols, hs⟩ := h
    obtain ⟨a, ha⟩ := OrdSet.isEmpty_eq_false_iff.1 (hA.symbols_nonempty p q symbols hs)
    exact ⟨a, symbols, hs, ha⟩
  · intro h
    obtain ⟨a, symbols, hs, -⟩ := h
    exact ⟨symbols, hs⟩

end WellFormed

theorem Run.hasState (hA : A.WellFormed) {w : Word σ} {r : Nat → String} (hr : A.Run w r)
    (i : Nat) : A.hasState (r i) = true := by
  cases i with
  | zero => exact hr.initial.hasState
  | succ i => exact hA.edge_target (hr.edge i)

end Automaton

namespace Builder

variable {σ δ : Type} [Ord σ] {b c d : Builder σ δ} {p q : String}

theorem addFinal_eq_ok_iff {label : String} :
    b.addFinal label = .ok c ↔
      b.hasState label = true ∧ b.withFinals (.singleton label) = c := by
  unfold addFinal requireState
  cases b.hasState label <;> simp [bind, Except.bind]

theorem exists_foldlM_addFinals {l : List (OrdSet String)}
    (h : ∀ s ∈ l, ∀ q ∈ s, b.hasState q = true) : ∃ c, l.foldlM addFinals b = .ok c := by
  apply exists_foldlM_eq_ok (fun d : Builder σ δ => d.states = b.states) ?_ rfl
  intro s hs d hd
  refine ⟨d.withFinals s, addFinals_eq_ok_iff.2 ⟨fun q hq => ?_, rfl⟩, hd⟩
  rw [Automaton.hasState_congr hd]
  exact h s hs q hq

section States

variable {l : List (State δ)}

theorem addStates_fields (b : Builder σ δ) (l : List (State δ)) :
    (b.addStates l).rows = b.rows ∧ (b.addStates l).acceptance = b.acceptance ∧
      (b.addStates l).optimize = b.optimize := by
  induction l generalizing b with
  | nil => exact ⟨rfl, rfl, rfl⟩
  | cons s l ih => exact ih (b.addState s)

theorem state?_addStates_of_not_mem (h : ∀ s ∈ l, s.label ≠ p) :
    (b.addStates l).state? p = b.state? p := by
  induction l generalizing b with
  | nil => rfl
  | cons s l ih =>
    have hs : p ≠ s.label := (h s List.mem_cons_self).symm
    have rest := ih (b := b.addState s) fun t ht => h t (List.mem_cons_of_mem s ht)
    rwa [state?_addState, if_neg hs] at rest

theorem state?_addStates_of_mem {s : State δ}
    (inj : ∀ s ∈ l, ∀ t ∈ l, s.label = t.label → s = t) (hs : s ∈ l) :
    (b.addStates l).state? s.label = some s := by
  induction l generalizing b s with
  | nil => cases hs
  | cons t l ih =>
    have injTail : ∀ s ∈ l, ∀ t ∈ l, s.label = t.label → s = t := fun x hx y hy =>
      inj x (List.mem_cons_of_mem t hx) y (List.mem_cons_of_mem t hy)
    by_cases hl : ∃ u ∈ l, u.label = s.label
    · obtain ⟨u, hu, he⟩ := hl
      rw [← inj u (List.mem_cons_of_mem t hu) s hs he]
      exact ih injTail hu
    · have hne : ∀ u ∈ l, u.label ≠ s.label := fun u hu he => hl ⟨u, hu, he⟩
      obtain rfl : s = t := by
        rcases List.mem_cons.1 hs with hs | hs
        · exact hs
        · exact absurd rfl (hne s hs)
      have rest := state?_addStates_of_not_mem (b := b.addState s) hne
      rwa [state?_addState, if_pos rfl] at rest

theorem state?_addStates_eq_some_iff {s : State δ} (hb : b.states = .empty)
    (inj : ∀ s ∈ l, ∀ t ∈ l, s.label = t.label → s = t) :
    (b.addStates l).state? p = some s ↔ s ∈ l ∧ s.label = p := by
  constructor
  · intro h
    by_cases hp : ∃ t ∈ l, t.label = p
    · obtain ⟨t, ht, rfl⟩ := hp
      rw [state?_addStates_of_mem inj ht] at h
      cases h
      exact ⟨ht, rfl⟩
    · rw [state?_addStates_of_not_mem fun t ht he => hp ⟨t, ht, he⟩, Automaton.state?, hb] at h
      cases h
  · intro h
    obtain ⟨hs, rfl⟩ := h
    exact state?_addStates_of_mem inj hs

theorem hasState_addStates :
    (b.addStates l).hasState p = true ↔ b.hasState p = true ∨ ∃ s ∈ l, s.label = p := by
  induction l generalizing b with
  | nil => simp [addStates]
  | cons s l ih =>
    have step : (b.addState s).hasState p = true ↔ b.hasState p = true ∨ s.label = p := by
      rw [Automaton.hasState_iff, state?_addState, Automaton.hasState_iff]
      by_cases h : p = s.label
      · simp [h]
      · simp [h, Ne.symm h]
    have rest := ih (b := b.addState s)
    rw [step, or_assoc] at rest
    simpa only [addStates, List.foldl_cons, List.mem_cons, exists_eq_or_imp] using rest

end States

variable [Std.TransOrd σ] [Std.LawfulEqOrd σ]

theorem edge_link {source target : String} {symbols : OrdSet σ} {a : σ} :
    (b.link source target symbols).Edge p a q ↔
      b.Edge p a q ∨ p = source ∧ q = target ∧ a ∈ symbols := by
  simp only [Automaton.Edge, symbols?_link]
  by_cases h : p = source ∧ q = target
  · obtain ⟨rfl, rfl⟩ := h
    cases b.symbols? p q <;> simp
  · rw [if_neg h]
    constructor
    · exact Or.inl
    · intro he
      rcases he with he | ⟨hp, hq, -⟩
      · exact he
      · exact absurd ⟨hp, hq⟩ h

theorem exists_addTransition_eq_ok {source target : String} {symbols : OrdSet σ}
    (hs : b.hasState source = true) (ht : b.hasState target = true)
    (hn : symbols.isEmpty = false) : ∃ c, b.addTransition source target symbols = .ok c :=
  ⟨_, addTransition_eq_ok_iff.2 ⟨hs, ht, hn, rfl⟩⟩

variable [DecidableEq σ]

structure Extends (b c : Builder σ δ) (E : String → σ → String → Prop) : Prop where
  states : c.states = b.states
  acceptance : c.acceptance = b.acceptance
  optimize : c.optimize = b.optimize
  edge : ∀ p a q, c.Edge p a q ↔ b.Edge p a q ∨ E p a q
  reachable : Reachable b → Reachable c

variable {E F : String → σ → String → Prop}

theorem Extends.hasState (h : Extends b c E) : c.hasState p = b.hasState p :=
  Automaton.hasState_congr h.states

theorem Extends.build_eq (h : Extends b c E) (hb : b.optimize = false) :
    c.build = c.toAutomaton := by
  rw [build, h.optimize, hb]
  rfl

theorem Extends.refl (b : Builder σ δ) : Extends b b fun _ _ _ => False :=
  ⟨rfl, rfl, rfl, fun _ _ _ => by rw [or_false], id⟩

theorem Extends.trans (h : Extends b c E) (k : Extends c d F) :
    Extends b d fun p a q => E p a q ∨ F p a q :=
  ⟨k.states.trans h.states, k.acceptance.trans h.acceptance, k.optimize.trans h.optimize,
    fun p a q => by rw [k.edge, h.edge, or_assoc], fun hb => k.reachable (h.reachable hb)⟩

theorem Extends.congr (h : Extends b c E) (he : ∀ p a q, E p a q ↔ F p a q) : Extends b c F :=
  ⟨h.states, h.acceptance, h.optimize, fun p a q => by rw [h.edge, he], h.reachable⟩

theorem extends_addTransition {source target : String} {symbols : OrdSet σ}
    (h : b.addTransition source target symbols = .ok c) :
    Extends b c fun p a q => p = source ∧ q = target ∧ a ∈ symbols := by
  obtain ⟨-, -, -, rfl⟩ := addTransition_eq_ok_iff.1 h
  exact ⟨rfl, rfl, rfl, fun _ _ _ => edge_link, fun hb => .addTransition hb h⟩

section Folds

variable {α ε : Type} {f : Builder σ δ → α → Except ε (Builder σ δ)} {l : List α}
  {G : α → String → σ → String → Prop}

theorem extends_foldlM (step : ∀ x ∈ l, ∀ b c, f b x = .ok c → Extends b c (G x))
    (h : l.foldlM f b = .ok c) : Extends b c fun p a q => ∃ x ∈ l, G x p a q := by
  induction l generalizing b with
  | nil =>
    cases h
    exact (Extends.refl _).congr fun _ _ _ => by simp
  | cons x l ih =>
    obtain ⟨d, hd, hc⟩ := foldlM_cons_eq_ok_iff.1 h
    have first := step x List.mem_cons_self b d hd
    have rest := ih (fun y hy => step y (List.mem_cons_of_mem x hy)) hc
    exact (first.trans rest).congr fun _ _ _ => by simp

theorem exists_foldlM_extends (step : ∀ x ∈ l, ∀ b c, f b x = .ok c → Extends b c (G x))
    (total : ∀ x ∈ l, ∀ d, d.states = b.states → ∃ c, f d x = .ok c) :
    ∃ c, l.foldlM f b = .ok c ∧ Extends b c fun p a q => ∃ x ∈ l, G x p a q := by
  obtain ⟨c, hc⟩ := exists_foldlM_eq_ok (fun d : Builder σ δ => d.states = b.states)
      (fun x hx d hd => by
        obtain ⟨e, he⟩ := total x hx d hd
        exact ⟨e, he, (step x hx d e he).states.trans hd⟩) rfl
  exact ⟨c, hc, extends_foldlM step hc⟩

theorem exists_foldlM_addFinal {F : OrdSet String} {g : α → String}
    (hb : b.acceptance = .buchi F) (h : ∀ x ∈ l, b.hasState (g x) = true) :
    ∃ c H, l.foldlM (fun b x => b.addFinal (g x)) b = .ok c ∧ c.states = b.states ∧
      c.rows = b.rows ∧ c.optimize = b.optimize ∧ (Reachable b → Reachable c) ∧
        c.acceptance = .buchi H ∧ ∀ q, q ∈ H ↔ q ∈ F ∨ ∃ x ∈ l, q = g x := by
  induction l generalizing b F with
  | nil => exact ⟨b, F, rfl, rfl, rfl, rfl, id, hb, by simp⟩
  | cons x l ih =>
    have hx := h x List.mem_cons_self
    have hstep : b.addFinal (g x) = .ok (b.withFinals (.singleton (g x))) :=
      addFinal_eq_ok_iff.2 ⟨hx, rfl⟩
    have hacc : (b.withFinals (.singleton (g x))).acceptance =
        .buchi (F.union (.singleton (g x))) := by
      simp only [withFinals, hb, extendFinals]
    obtain ⟨c, H, hc, hs, hr, ho, hreach, hH, hmem⟩ :=
      ih hacc fun y hy => h y (List.mem_cons_of_mem x hy)
    refine ⟨c, H, foldlM_cons_eq_ok_iff.2 ⟨_, hstep, hc⟩, hs, hr, ho,
      fun hb => hreach (.addFinal hb hstep), hH, fun q => ?_⟩
    rw [hmem, OrdSet.mem_union, OrdSet.mem_singleton, or_assoc]
    simp only [List.mem_cons, exists_eq_or_imp]

end Folds

end Builder

section Calls

variable {σ δ : Type} [Ord σ] [Std.TransOrd σ] [Std.LawfulEqOrd σ] [DecidableEq σ]
  {b : Builder σ δ}

theorem Reachable.link (hb : Reachable b) {source target : String} {symbols : OrdSet σ}
    (hs : b.hasState source = true) (ht : b.hasState target = true)
    (hn : symbols.isEmpty = false) : Reachable (b.link source target symbols) :=
  .addTransition hb (Builder.addTransition_eq_ok_iff.2 ⟨hs, ht, hn, rfl⟩)

theorem Reachable.withFinals (hb : Reachable b) (labels : OrdSet String)
    (h : ∀ label ∈ labels, b.hasState label = true) : Reachable (b.withFinals labels) :=
  .addFinals hb (Builder.addFinals_eq_ok_iff.2 ⟨h, rfl⟩)

end Calls

end TemporalCheck
