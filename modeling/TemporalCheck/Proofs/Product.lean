import Mathlib.Data.List.Nodup
import TemporalCheck.Proofs.Labels
import TemporalCheck.Proofs.Search
import TemporalCheck.Proofs.WellFormed

/-!
# The product accepts what both operands accept

A product state stands for a triple, and an edge for a step that both operands can
take with the same symbol. So a run of the product is a sequence of triples, that
is, a run of either operand and the phases that the two determine. The phase goes
round three rounds, and the last one comes back for ever exactly when the final
sets of both operands do.
-/

namespace TemporalCheck

theorem Phase.number_eq_two_iff {p : Phase} : p.number = 2 ↔ p = .both := by
  cases p <;> simp [Phase.number]

/-- From 0 to 1 when the left operand enters a final state, from 1 to 2 when the right one does,
and from 2 to 0 whatever happens. -/
inductive Phase.Moves (leftFinal rightFinal : Prop) : Phase → Phase → Prop
  | leftEnters : leftFinal → Moves leftFinal rightFinal .awaitLeft .awaitRight
  | leftWaits : ¬ leftFinal → Moves leftFinal rightFinal .awaitLeft .awaitLeft
  | rightEnters : rightFinal → Moves leftFinal rightFinal .awaitRight .both
  | rightWaits : ¬ rightFinal → Moves leftFinal rightFinal .awaitRight .awaitRight
  | restarts : Moves leftFinal rightFinal .both .awaitLeft

theorem Phase.next_eq_iff {l r : Bool} {p q : Phase} :
    p.next l r = q ↔ p.Moves (l = true) (r = true) q := by
  constructor
  · intro h
    subst h
    cases p with
    | awaitLeft => cases l with
      | true => exact .leftEnters rfl
      | false => exact .leftWaits Bool.false_ne_true
    | awaitRight => cases r with
      | true => exact .rightEnters rfl
      | false => exact .rightWaits Bool.false_ne_true
    | both => exact .restarts
  · intro h
    cases h with
    | leftEnters hl | leftWaits hl => simp [Phase.next, hl]
    | rightEnters hr | rightWaits hr => simp [Phase.next, hr]
    | restarts => rfl

theorem Phase.Moves.number {l r : Prop} {p q : Phase} (h : p.Moves l r q) :
    ((p.number = 0 → l) ∧ (p.number = 1 → r) → q.number = (p.number + 1) % 3) ∧
      (¬ ((p.number = 0 → l) ∧ (p.number = 1 → r)) → q.number = p.number) := by
  cases h <;> simp_all [Phase.number]

/-- The event that ends a phase: the left operand or the right one is in a final state after
the step, and nothing has to happen in the last phase. -/
def phaseEvent (l r : Nat → Prop) (m i : Nat) : Prop := (m = 0 → l (i + 1)) ∧ (m = 1 → r (i + 1))

section Rounds

variable {l r : Nat → Prop} {phase : Nat → Phase}
  (h : ∀ i, (phase i).Moves (l (i + 1)) (r (i + 1)) (phase (i + 1)))
include h

theorem rotates_phase : Rotates 3 (phaseEvent l r) fun i => (phase i).number := by
  refine ⟨fun i => ?_, fun i => (h i).number.1, fun i => (h i).number.2⟩
  cases phase i <;> simp [Phase.number]

theorem often_both_iff : (Often fun i => phase i = .both) ↔ Often l ∧ Often r := by
  have hiff := (rotates_phase h).often_leave_iff (m := 2) (by omega)
  have hleft : (fun i => (phase i).number = 2 ∧ phaseEvent l r 2 i) = fun i => phase i = .both := by
    funext i
    simp [phaseEvent, Phase.number_eq_two_iff]
  rw [hleft] at hiff
  rw [hiff, ← often_shift (Q := l), ← often_shift (Q := r)]
  constructor
  · intro hall
    exact ⟨(hall 0 (by omega)).mono fun _ hi => hi.1 rfl,
      (hall 1 (by omega)).mono fun _ hi => hi.2 rfl⟩
  · intro hboth m hm
    rcases (by omega : m = 0 ∨ m = 1 ∨ m = 2) with rfl | rfl | rfl
    · exact hboth.1.mono fun _ hi => ⟨fun _ => hi, fun h => by omega⟩
    · exact hboth.2.mono fun _ hi => ⟨fun h => by omega, fun _ => hi⟩
    · intro i
      exact ⟨i, Nat.le_refl i, fun h => by omega, fun h => by omega⟩

end Rounds

namespace Product

variable {σ α β : Type} [Ord σ] {L : Automaton σ α} {R : Automaton σ β} {F G : OrdSet String}
  {t u : Triple} {a : σ}

structure Step (L : Automaton σ α) (R : Automaton σ β) (F G : OrdSet String) (t : Triple) (a : σ)
    (u : Triple) : Prop where
  left : L.Edge t.left a u.left
  right : R.Edge t.right a u.right
  phase : t.phase.Moves (u.left ∈ F) (u.right ∈ G) u.phase

theorem mem_moves {shared : OrdSet σ} :
    (u, shared) ∈ moves L R F G t ↔ ∃ ls rs, L.symbols? t.left u.left = some ls ∧
      R.symbols? t.right u.right = some rs ∧ ls.inter rs = shared ∧ shared.isEmpty = false ∧
        t.phase.Moves (u.left ∈ F) (u.right ∈ G) u.phase := by
  simp only [← OrdSet.contains_iff, ← Phase.next_eq_iff]
  simp only [moves, List.mem_flatMap, List.mem_filterMap]
  constructor
  · intro h
    obtain ⟨⟨p, ls⟩, hl, ⟨q, rs⟩, hr, hm⟩ := h
    split at hm
    · cases hm
    · next hn =>
      cases hm
      exact ⟨ls, rs, Automaton.mem_transitionsFrom.1 hl, Automaton.mem_transitionsFrom.1 hr, rfl,
        Bool.not_eq_true _ ▸ hn, rfl⟩
  · intro h
    obtain ⟨ls, rs, hl, hr, rfl, hn, hp⟩ := h
    refine ⟨(u.left, ls), Automaton.mem_transitionsFrom.2 hl, (u.right, rs),
      Automaton.mem_transitionsFrom.2 hr, ?_⟩
    simp [hn, hp]

theorem mem_initialTriples (hL : L.WellFormed) (hR : R.WellFormed) :
    t ∈ initialTriples L R ↔ L.Initial t.left ∧ R.Initial t.right ∧ t.phase = .awaitLeft := by
  simp only [initialTriples, List.mem_flatMap, List.mem_map, Automaton.initial_iff hL,
    Automaton.initial_iff hR]
  constructor
  · intro h
    obtain ⟨s, hs, s', hs', rfl⟩ := h
    exact ⟨⟨s, hs, rfl⟩, ⟨s', hs', rfl⟩, rfl⟩
  · intro h
    obtain ⟨⟨s, hs, hl⟩, ⟨s', hs', hr⟩, hp⟩ := h
    refine ⟨s, hs, s', hs', ?_⟩
    rw [hl, hr, ← hp]

def allTriples (L : Automaton σ α) (R : Automaton σ β) : List Triple :=
  L.states.keys.toList.flatMap fun p => R.states.keys.toList.flatMap fun q =>
    [⟨p, q, .awaitLeft⟩, ⟨p, q, .awaitRight⟩, ⟨p, q, .both⟩]

theorem mem_allTriples :
    t ∈ allTriples L R ↔ L.hasState t.left = true ∧ R.hasState t.right = true := by
  simp only [allTriples, List.mem_flatMap, Automaton.hasState, OrdMap.contains_iff, OrdSet.mem_def]
  constructor
  · intro h
    obtain ⟨p, hp, q, hq, ht⟩ := h
    simp only [List.mem_cons, List.not_mem_nil, or_false] at ht
    rcases ht with rfl | rfl | rfl <;> exact ⟨hp, hq⟩
  · intro h
    refine ⟨t.left, h.1, t.right, h.2, ?_⟩
    obtain ⟨p, q, phase⟩ := t
    cases phase <;> simp

theorem length_allTriples : (allTriples L R).length = 3 * L.size * R.size := by
  simp only [allTriples, List.length_flatMap, List.length_cons, List.length_nil, List.map_const',
    List.sum_replicate_nat, OrdMap.keys, List.length_map, Automaton.size, OrdMap.size]
  rw [Nat.mul_comm 3, Nat.mul_assoc, Nat.mul_comm 3]

def labelled (L : Automaton σ α) (R : Automaton σ β) (F G : OrdSet String) :
    List (Triple × String) :=
  assignLabels [entryLabel] (reached L R F G)

def label (L : Automaton σ α) (R : Automaton σ β) (F G : OrdSet String) (t : Triple) : String :=
  labelOf (labelled L R F G) t

theorem lookup_of_mem {l : List (Triple × String)} (hn : (l.map Prod.fst).Nodup)
    {e : Triple × String} (he : e ∈ l) : l.lookup e.1 = some e.2 := by
  induction l with
  | nil => cases he
  | cons d l ih =>
    obtain ⟨u, text⟩ := d
    obtain ⟨hd, hl⟩ := List.nodup_cons.1 hn
    rcases List.mem_cons.1 he with rfl | he
    · simp
    · have hne : e.1 ≠ u := fun heq => hd (heq ▸ List.mem_map.2 ⟨e, he, rfl⟩)
      simpa [List.lookup_cons, beq_eq_false_iff_ne.2 hne] using ih hl he

theorem mem_labelled {e : Triple × String} :
    e ∈ labelled L R F G ↔ e.1 ∈ reached L R F G ∧ e.2 = label L R F G e.1 := by
  have hfst : (labelled L R F G).map Prod.fst = reached L R F G := map_fst_assignLabels _ _
  have hlabel {e : Triple × String} (he : e ∈ labelled L R F G) : e.2 = label L R F G e.1 := by
    have hn : ((labelled L R F G).map Prod.fst).Nodup := hfst ▸ Search.nodup_trails
    rw [label, labelOf, lookup_of_mem hn he, Option.getD_some]
  constructor
  · intro he
    exact ⟨hfst ▸ List.mem_map.2 ⟨e, he, rfl⟩, hlabel he⟩
  · intro he
    obtain ⟨ht, hl⟩ := he
    rw [← hfst] at ht
    obtain ⟨d, hd, hde⟩ := List.mem_map.1 ht
    have heq : d = e := Prod.ext hde (by rw [hlabel hd, hde, hl])
    exact heq ▸ hd

theorem mem_labelled_label (ht : t ∈ reached L R F G) :
    (t, label L R F G t) ∈ labelled L R F G :=
  mem_labelled.2 ⟨ht, rfl⟩

theorem label_inj (ht : t ∈ reached L R F G) (hu : u ∈ reached L R F G)
    (h : label L R F G t = label L R F G u) : t = u := by
  have hn := (assignLabels_fresh [entryLabel] (reached L R F G)).2
  have he := List.inj_on_of_nodup_map hn (mem_labelled_label ht) (mem_labelled_label hu) h
  exact congrArg Prod.fst he

theorem label_ne_entry (ht : t ∈ reached L R F G) : label L R F G t ≠ entryLabel := by
  have hf := (assignLabels_fresh [entryLabel] (reached L R F G)).1 _ (mem_labelled_label ht)
  simpa using hf

def graphStates (L : Automaton σ α) (R : Automaton σ β) (F G : OrdSet String) :
    List (State Empty) :=
  (labelled L R F G).map (fun e => ⟨e.2, false, none⟩) ++ [⟨entryLabel, true, none⟩]

theorem mem_graphStates {s : State Empty} : s ∈ graphStates L R F G ↔
    (∃ t ∈ reached L R F G, s = ⟨label L R F G t, false, none⟩) ∨ s = ⟨entryLabel, true, none⟩ := by
  simp only [graphStates, List.mem_append, List.mem_map, List.mem_singleton]
  refine or_congr_left ?_
  constructor
  · intro h
    obtain ⟨e, he, rfl⟩ := h
    obtain ⟨ht, hl⟩ := mem_labelled.1 he
    exact ⟨e.1, ht, by rw [hl]⟩
  · intro h
    obtain ⟨t, ht, rfl⟩ := h
    exact ⟨_, mem_labelled_label ht, rfl⟩

theorem graphStates_inj : ∀ s ∈ graphStates L R F G, ∀ s' ∈ graphStates L R F G,
    s.label = s'.label → s = s' := by
  intro s hs s' hs' h
  rcases mem_graphStates.1 hs with ⟨t, ht, rfl⟩ | rfl <;>
    rcases mem_graphStates.1 hs' with ⟨u, hu, rfl⟩ | rfl
  · simp only at h
    rw [h]
  · exact absurd h (label_ne_entry ht)
  · exact absurd h.symm (label_ne_entry hu)
  · rfl

def graphBase (L : Automaton σ α) (R : Automaton σ β) (F G : OrdSet String) : Builder σ Empty :=
  Builder.buchi.addStates (graphStates L R F G)

theorem hasState_graphBase {p : String} : (graphBase L R F G).hasState p = true ↔
    (∃ t ∈ reached L R F G, p = label L R F G t) ∨ p = entryLabel := by
  rw [graphBase, Builder.hasState_addStates]
  have none : (Builder.buchi : Builder σ Empty).hasState p = false := rfl
  simp only [none, Bool.false_eq_true, false_or, mem_graphStates]
  constructor
  · intro h
    obtain ⟨s, ⟨t, ht, rfl⟩ | rfl, rfl⟩ := h
    · exact Or.inl ⟨t, ht, rfl⟩
    · exact Or.inr rfl
  · intro h
    rcases h with ⟨t, ht, rfl⟩ | rfl
    · exact ⟨_, Or.inl ⟨t, ht, rfl⟩, rfl⟩
    · exact ⟨_, Or.inr rfl, rfl⟩

theorem initial_graphBase {p : String} : (graphBase L R F G).Initial p ↔ p = entryLabel := by
  have stored {s : State Empty} (hs : s ∈ graphStates L R F G) :
      (graphBase L R F G).state? s.label = some s :=
    Builder.state?_addStates_of_mem graphStates_inj hs
  constructor
  · intro h
    obtain ⟨s, hs, hi⟩ := h
    rcases hasState_graphBase.1 (Automaton.hasState_iff.2 ⟨s, hs⟩) with ⟨t, ht, rfl⟩ | rfl
    · rw [stored (mem_graphStates.2 (Or.inl ⟨t, ht, rfl⟩))] at hs
      cases hs
      cases hi
    · rfl
  · intro h
    subst h
    exact ⟨_, stored (mem_graphStates.2 (Or.inr rfl)), rfl⟩

def TripleRun (L : Automaton σ α) (R : Automaton σ β) (F G : OrdSet String) (w : Word σ)
    (τ : Nat → Triple) : Prop :=
  τ 0 ∈ initialTriples L R ∧ (∀ i, Step L R F G (τ i) (w i) (τ (i + 1))) ∧
    Often fun i => (τ i).phase = .both

def phases (F G : OrdSet String) (p q : Nat → String) : Nat → Phase
  | 0 => .awaitLeft
  | i + 1 => (phases F G p q i).next (F.contains (p (i + 1))) (G.contains (q (i + 1)))

/-- Two runs on one word determine the phases of a sequence of triples, and every sequence of
triples is made from two runs. -/
theorem exists_tripleRun_iff (hL : L.WellFormed) (hR : R.WellFormed)
    (hF : L.acceptance = .buchi F) (hG : R.acceptance = .buchi G) {w : Word σ} :
    (∃ τ, TripleRun L R F G w τ) ↔ L.Accepts w ∧ R.Accepts w := by
  rw [Automaton.accepts_buchi_iff hF, Automaton.accepts_buchi_iff hG]
  constructor
  · intro h
    obtain ⟨τ, hinit, hstep, hf⟩ := h
    obtain ⟨hl, hr, -⟩ := (mem_initialTriples hL hR).1 hinit
    obtain ⟨hfl, hfr⟩ := (often_both_iff (l := fun i => (τ i).left ∈ F)
      (r := fun i => (τ i).right ∈ G) fun i => (hstep i).phase).1 hf
    exact ⟨⟨fun i => (τ i).left, ⟨hl, fun i => (hstep i).left⟩, hfl⟩,
      ⟨fun i => (τ i).right, ⟨hr, fun i => (hstep i).right⟩, hfr⟩⟩
  · intro h
    obtain ⟨⟨p, hp, hfp⟩, ⟨q, hq, hfq⟩⟩ := h
    have hmoves (i : Nat) : (phases F G p q i).Moves (p (i + 1) ∈ F) (q (i + 1) ∈ G)
        (phases F G p q (i + 1)) := by
      simpa only [OrdSet.contains_iff] using Phase.next_eq_iff.1 (rfl : phases F G p q (i + 1) = _)
    exact ⟨fun i => ⟨p i, q i, phases F G p q i⟩,
      (mem_initialTriples hL hR).2 ⟨hp.initial, hq.initial, rfl⟩,
      fun i => ⟨hp.edge i, hq.edge i, hmoves i⟩, (often_both_iff hmoves).2 ⟨hfp, hfq⟩⟩

variable [Std.LawfulEqOrd σ]

theorem step_iff : Step L R F G t a u ↔ ∃ shared, (u, shared) ∈ moves L R F G t ∧ a ∈ shared := by
  constructor
  · intro h
    obtain ⟨ls, hl, hal⟩ := h.left
    obtain ⟨rs, hr, har⟩ := h.right
    have ha : a ∈ ls.inter rs := OrdSet.mem_inter.2 ⟨hal, har⟩
    have hn := OrdSet.isEmpty_eq_false_iff.2 ⟨a, ha⟩
    exact ⟨ls.inter rs, mem_moves.2 ⟨ls, rs, hl, hr, rfl, hn, h.phase⟩, ha⟩
  · intro h
    obtain ⟨shared, hm, ha⟩ := h
    obtain ⟨ls, rs, hl, hr, rfl, -, hp⟩ := mem_moves.1 hm
    obtain ⟨hal, har⟩ := OrdSet.mem_inter.1 ha
    exact ⟨⟨ls, hl, hal⟩, ⟨rs, hr, har⟩, hp⟩

theorem exists_step {shared : OrdSet σ} (h : (u, shared) ∈ moves L R F G t) :
    ∃ a, Step L R F G t a u := by
  obtain ⟨-, -, -, -, -, hn, -⟩ := mem_moves.1 h
  obtain ⟨a, ha⟩ := OrdSet.isEmpty_eq_false_iff.1 hn
  exact ⟨a, step_iff.2 ⟨shared, h, ha⟩⟩

theorem reached_closed (hL : L.WellFormed) (hR : R.WellFormed) :
    (∀ t ∈ initialTriples L R, t ∈ reached L R F G) ∧
      ∀ t ∈ reached L R F G, ∀ a u, Step L R F G t a u → u ∈ reached L R F G := by
  have closed : ∀ t ∈ allTriples L R, ∀ u ∈ (moves L R F G t).map Prod.fst,
      u ∈ allTriples L R := by
    intro t _ u hu
    obtain ⟨⟨u, shared⟩, hm, rfl⟩ := List.mem_map.1 hu
    obtain ⟨ls, rs, hl, hr, -, -, -⟩ := mem_moves.1 hm
    obtain ⟨lrow, hlrow, hl⟩ := Option.bind_eq_some_iff.1 hl
    obtain ⟨rrow, hrrow, hr⟩ := Option.bind_eq_some_iff.1 hr
    exact mem_allTriples.2 ⟨hL.target_declared _ lrow _ ls hlrow hl,
      hR.target_declared _ rrow _ rs hrrow hr⟩
  have roots : ∀ t ∈ initialTriples L R, t ∈ allTriples L R := by
    intro t ht
    obtain ⟨hl, hr, -⟩ := (mem_initialTriples hL hR).1 ht
    exact mem_allTriples.2 ⟨hl.hasState, hr.hasState⟩
  obtain ⟨hroots, hnext⟩ := Search.trails_closed closed roots length_allTriples.le
  constructor
  · intro t ht
    obtain ⟨trail, htrail, hlast, -⟩ := hroots t ht
    exact List.mem_map.2 ⟨trail, htrail, hlast⟩
  · intro t ht a u hstep
    obtain ⟨trail, htrail, rfl⟩ := List.mem_map.1 ht
    obtain ⟨shared, hm, -⟩ := step_iff.1 hstep
    obtain ⟨longer, hlonger, hlast, -⟩ := hnext trail htrail u (List.mem_map.2 ⟨_, hm, rfl⟩)
    exact List.mem_map.2 ⟨longer, hlonger, hlast⟩

theorem mem_reached_of_steps (hL : L.WellFormed) (hR : R.WellFormed) {w : Word σ}
    {τ : Nat → Triple} (hinit : τ 0 ∈ initialTriples L R)
    (hstep : ∀ i, Step L R F G (τ i) (w i) (τ (i + 1))) (i : Nat) : τ i ∈ reached L R F G := by
  obtain ⟨hroots, hclosed⟩ := reached_closed (F := F) (G := G) hL hR
  induction i with
  | zero => exact hroots _ hinit
  | succ i ih => exact hclosed _ ih _ _ (hstep i)

variable [Std.TransOrd σ] [DecidableEq σ]

structure IsGraph (L : Automaton σ α) (R : Automaton σ β) (F G : OrdSet String)
    (P : Automaton σ Empty) : Prop where
  built : Built P
  hasState : ∀ p, P.hasState p = true ↔
    (∃ t ∈ reached L R F G, p = label L R F G t) ∨ p = entryLabel
  initial : ∀ p, P.Initial p ↔ p = entryLabel
  edge : ∀ p a q, P.Edge p a q ↔ ∃ t u, Step L R F G t a u ∧ q = label L R F G u ∧
    (t ∈ reached L R F G ∧ p = label L R F G t ∨ t ∈ initialTriples L R ∧ p = entryLabel)
  finals : ∃ H, P.acceptance = .buchi H ∧
    ∀ q, q ∈ H ↔ ∃ t ∈ reached L R F G, t.phase = .both ∧ q = label L R F G t

variable {b c : Builder σ Empty} {source : String} {labels : List (Triple × String)}
  {ms : List (Triple × OrdSet σ)}

theorem extends_addMoves (h : addMoves labels source ms b = .ok c) :
    b.Extends c fun p a q => ∃ m ∈ ms, p = source ∧ q = labelOf labels m.1 ∧ a ∈ m.2 :=
  Builder.extends_foldlM (fun _ _ _ _ => Builder.extends_addTransition) h

theorem exists_addMoves (hs : b.hasState source = true)
    (h : ∀ m ∈ ms, b.hasState (labelOf labels m.1) = true ∧ m.2.isEmpty = false) :
    ∃ c, addMoves labels source ms b = .ok c := by
  obtain ⟨c, hc, -⟩ := Builder.exists_foldlM_extends (b := b)
    (fun _ _ _ _ => Builder.extends_addTransition) fun m hm d hd => by
      have same (p : String) : d.hasState p = b.hasState p := Automaton.hasState_congr hd
      exact Builder.exists_addTransition_eq_ok ((same source).trans hs)
        ((same _).trans (h m hm).1) (h m hm).2
  exact ⟨c, hc⟩

theorem exists_addAllMoves {γ : Type} {l : List γ} (triple : γ → Triple) (origin : γ → String)
    (hsource : ∀ x ∈ l, b.hasState (origin x) = true)
    (htarget : ∀ x ∈ l, ∀ a u, Step L R F G (triple x) a u → b.hasState (label L R F G u) = true) :
    ∃ c, l.foldlM (fun b x => addMoves (labelled L R F G) (origin x)
        (moves L R F G (triple x)) b) b = .ok c ∧
      b.Extends c fun p a q => ∃ x ∈ l, ∃ u, Step L R F G (triple x) a u ∧ p = origin x ∧
        q = label L R F G u := by
  obtain ⟨c, hc, he⟩ := Builder.exists_foldlM_extends (b := b)
    (f := fun b x => addMoves (labelled L R F G) (origin x) (moves L R F G (triple x)) b) (l := l)
    (fun _ _ _ _ => extends_addMoves) fun x hx d hd => by
      have same (p : String) : d.hasState p = b.hasState p := Automaton.hasState_congr hd
      refine exists_addMoves ((same _).trans (hsource x hx)) fun m hm => ?_
      obtain ⟨-, -, -, -, -, hn, -⟩ := mem_moves.1 hm
      obtain ⟨a, hstep⟩ := exists_step hm
      exact ⟨(same _).trans (htarget x hx a m.1 hstep), hn⟩
  refine ⟨c, hc, he.congr fun p a q => ?_⟩
  constructor
  · intro h
    obtain ⟨x, hx, m, hm, hp, hq, ha⟩ := h
    exact ⟨x, hx, m.1, step_iff.2 ⟨m.2, hm, ha⟩, hp, hq⟩
  · intro h
    obtain ⟨x, hx, u, hu, hp, hq⟩ := h
    obtain ⟨shared, hm, ha⟩ := step_iff.1 hu
    exact ⟨x, hx, (u, shared), hm, hp, hq, ha⟩

theorem exists_graphFinals : ∃ b H,
    ((labelled L R F G).filter fun e => e.1.phase = .both).foldlM (fun b e => b.addFinal e.2)
      (graphBase L R F G) = .ok b ∧ b.states = (graphBase L R F G).states ∧ b.optimize = false ∧
        Reachable b ∧ (∀ p a q, ¬ b.Edge p a q) ∧ b.acceptance = .buchi H ∧
          ∀ q, q ∈ H ↔ ∃ t ∈ reached L R F G, t.phase = .both ∧ q = label L R F G t := by
  obtain ⟨hrows, hacc, hopt⟩ :=
    Builder.addStates_fields (Builder.buchi : Builder σ Empty) (graphStates L R F G)
  obtain ⟨b, H, hb, hs, hr, ho, hreach, hH, hmem⟩ := Builder.exists_foldlM_addFinal
    (b := graphBase L R F G) (l := (labelled L R F G).filter fun e => e.1.phase = .both)
    (g := Prod.snd) hacc fun e he => by
      obtain ⟨ht, hl⟩ := mem_labelled.1 (List.mem_filter.1 he).1
      exact hasState_graphBase.2 (Or.inl ⟨e.1, ht, hl⟩)
  refine ⟨b, H, hb, hs, ho.trans hopt, hreach (.addStates _ .buchi), ?_, hH, ?_⟩
  · intro p a q
    exact Automaton.not_edge_of_rows_eq_empty (hr.trans hrows)
  · intro q
    rw [hmem, or_iff_right (OrdSet.not_mem_empty q)]
    constructor
    · intro h
      obtain ⟨e, he, rfl⟩ := h
      obtain ⟨he, hp⟩ := List.mem_filter.1 he
      obtain ⟨ht, hl⟩ := mem_labelled.1 he
      exact ⟨e.1, ht, by simpa using hp, hl⟩
    · intro h
      obtain ⟨t, ht, hp, rfl⟩ := h
      exact ⟨_, List.mem_filter.2 ⟨mem_labelled_label ht, by simpa using hp⟩, rfl⟩

theorem exists_graphMoves (hL : L.WellFormed) (hR : R.WellFormed)
    (hb : b.states = (graphBase L R F G).states) : ∃ c d,
    (labelled L R F G).foldlM (fun b e => addMoves (labelled L R F G) e.2
      (moves L R F G e.1) b) b = .ok c ∧
    (initialTriples L R).foldlM (fun b t => addMoves (labelled L R F G) entryLabel
      (moves L R F G t) b) c = .ok d ∧
    b.Extends d fun p a q => ∃ t u, Step L R F G t a u ∧ q = label L R F G u ∧
      (t ∈ reached L R F G ∧ p = label L R F G t ∨ t ∈ initialTriples L R ∧ p = entryLabel) := by
  obtain ⟨hinit, hclosed⟩ := reached_closed (F := F) (G := G) hL hR
  have declared {p : String} : b.hasState p = true ↔
      (∃ t ∈ reached L R F G, p = label L R F G t) ∨ p = entryLabel := by
    rw [← hasState_graphBase, Automaton.hasState_congr hb]
  obtain ⟨c, hc, hbc⟩ := exists_addAllMoves (b := b) (L := L) (R := R) (F := F) (G := G)
    Prod.fst Prod.snd (fun e he => declared.2 (Or.inl ⟨e.1, mem_labelled.1 he⟩))
    fun e he a u hu => declared.2 (Or.inl ⟨u, hclosed e.1 (mem_labelled.1 he).1 a u hu, rfl⟩)
  obtain ⟨d, hd, hcd⟩ := exists_addAllMoves (b := c) (L := L) (R := R) (F := F) (G := G)
    (l := initialTriples L R) (fun t => t) (fun _ => entryLabel)
    (fun t _ => hbc.hasState.trans (declared.2 (Or.inr rfl)))
    fun t ht a u hu => hbc.hasState.trans
      (declared.2 (Or.inl ⟨u, hclosed t (hinit t ht) a u hu, rfl⟩))
  refine ⟨c, d, hc, hd, (hbc.trans hcd).congr fun p a q => ?_⟩
  constructor
  · intro h
    rcases h with ⟨e, he, u, hu, hp, hq⟩ | ⟨t, ht, u, hu, hp, hq⟩
    · obtain ⟨ht, hl⟩ := mem_labelled.1 he
      exact ⟨e.1, u, hu, hq, Or.inl ⟨ht, hp.trans hl⟩⟩
    · exact ⟨t, u, hu, hq, Or.inr ⟨ht, hp⟩⟩
  · intro h
    obtain ⟨t, u, hu, hq, ⟨ht, hp⟩ | ⟨ht, hp⟩⟩ := h
    · exact Or.inl ⟨_, mem_labelled_label ht, u, hu, hp, hq⟩
    · exact Or.inr ⟨t, ht, u, hu, hp, hq⟩

theorem exists_graph (hL : L.WellFormed) (hR : R.WellFormed) :
    ∃ P, graph L R F G = .ok P ∧ IsGraph L R F G P := by
  have hbase : (Builder.buchi.addStates ((labelled L R F G).map fun e => ⟨e.2, false, none⟩)).addState
      ⟨entryLabel, true, none⟩ = graphBase L R F G := by
    simp only [graphBase, graphStates, Builder.addStates, List.foldl_append, List.foldl_cons,
      List.foldl_nil]
  obtain ⟨b, H, hb, hs, ho, hreach, hnone, hH, hmem⟩ :=
    exists_graphFinals (L := L) (R := R) (F := F) (G := G)
  obtain ⟨c, d, hc, hd, hext⟩ := exists_graphMoves hL hR hs
  have hbuild := hext.build_eq ho
  refine ⟨d.build, ?_, .build (hext.reachable hreach), ?_, ?_, ?_, H, ?_, hmem⟩
  · simp only [graph]
    rw [← labelled, hbase, hb]
    simp only [bind, Except.bind, hc, hd]
    rfl
  · intro p
    rw [hbuild, hext.hasState, Automaton.hasState_congr hs]
    exact hasState_graphBase
  · intro p
    rw [hbuild, ← initial_graphBase (L := L) (R := R) (F := F) (G := G)]
    simp only [Automaton.Initial, Automaton.state?, hext.states, hs]
  · intro p a q
    rw [hbuild, hext.edge, or_iff_right (hnone p a q)]
  · rw [hbuild, hext.acceptance, hH]

theorem IsGraph.exists_triples (hL : L.WellFormed) (hR : R.WellFormed) {P : Automaton σ Empty}
    (h : IsGraph L R F G P) {w : Word σ} {r : Nat → String} (hr : P.Run w r) :
    ∃ τ : Nat → Triple, τ 0 ∈ initialTriples L R ∧ (∀ i, Step L R F G (τ i) (w i) (τ (i + 1))) ∧
      (∀ i, τ i ∈ reached L R F G) ∧ ∀ i, r (i + 1) = label L R F G (τ (i + 1)) := by
  obtain ⟨hinit, hclosed⟩ := reached_closed (F := F) (G := G) hL hR
  have hstart := (h.initial _).1 hr.initial
  obtain ⟨t₀, u₀, hstep₀, hl₀, hs₀⟩ := (h.edge _ _ _).1 (hr.edge 0)
  have ht₀ : t₀ ∈ initialTriples L R := by
    rcases hs₀ with ⟨ht, hp⟩ | ⟨ht, -⟩
    · exact absurd (hp.symm.trans hstart) (label_ne_entry ht)
    · exact ht
  obtain ⟨υ, hυ₀, hυ, hsteps⟩ := exists_sequence
    (P := fun i u => u ∈ reached L R F G ∧ r (i + 1) = label L R F G u)
    (R := fun i u v => Step L R F G u (w (i + 1)) v)
    ⟨hclosed t₀ (hinit t₀ ht₀) _ u₀ hstep₀, hl₀⟩ fun i u hu => by
      obtain ⟨t, v, hstep, hv, ⟨ht, hp⟩ | ⟨-, hp⟩⟩ := (h.edge _ _ _).1 (hr.edge (i + 1))
      · obtain rfl := label_inj hu.1 ht (hu.2.symm.trans hp)
        exact ⟨v, hstep, hclosed u hu.1 _ v hstep, hv⟩
      · exact absurd (hu.2.symm.trans hp) (label_ne_entry hu.1)
  refine ⟨fun i => Nat.casesOn i t₀ υ, ht₀, ?_, ?_, fun i => (hυ i).2⟩
  · intro i
    cases i with
    | zero =>
      change Step L R F G t₀ (w 0) (υ 0)
      rw [hυ₀]
      exact hstep₀
    | succ i => exact hsteps i
  · intro i
    cases i with
    | zero => exact hinit t₀ ht₀
    | succ i => exact (hυ i).1

theorem IsGraph.run_of_triples (hL : L.WellFormed) (hR : R.WellFormed) {P : Automaton σ Empty}
    (h : IsGraph L R F G P) {w : Word σ} {τ : Nat → Triple} (hinit : τ 0 ∈ initialTriples L R)
    (hstep : ∀ i, Step L R F G (τ i) (w i) (τ (i + 1))) :
    P.Run w (enter entryLabel fun i => label L R F G (τ (i + 1))) := by
  have hreached := mem_reached_of_steps hL hR hinit hstep
  refine ⟨(h.initial _).2 rfl, fun i => (h.edge _ _ _).2 ?_⟩
  cases i with
  | zero => exact ⟨τ 0, τ 1, hstep 0, rfl, Or.inr ⟨hinit, rfl⟩⟩
  | succ i => exact ⟨τ (i + 1), τ (i + 2), hstep (i + 1), rfl, Or.inl ⟨hreached (i + 1), rfl⟩⟩

theorem IsGraph.accepts_iff (hL : L.WellFormed) (hR : R.WellFormed) {P : Automaton σ Empty}
    (h : IsGraph L R F G P) {w : Word σ} : P.Accepts w ↔ ∃ τ, TripleRun L R F G w τ := by
  obtain ⟨H, hH, hmem⟩ := h.finals
  rw [Automaton.accepts_buchi_iff hH]
  constructor
  · intro hw
    obtain ⟨r, hr, hf⟩ := hw
    obtain ⟨τ, hinit, hstep, hreached, hlabel⟩ := h.exists_triples hL hR hr
    refine ⟨τ, hinit, hstep, often_shift.1 ((often_shift.2 hf).mono fun i hi => ?_)⟩
    obtain ⟨t, ht, hp, he⟩ := (hmem _).1 hi
    rw [label_inj (hreached (i + 1)) ht ((hlabel i).symm.trans he)]
    exact hp
  · intro hw
    obtain ⟨τ, hinit, hstep, hf⟩ := hw
    have hreached := mem_reached_of_steps hL hR hinit hstep
    refine ⟨_, h.run_of_triples hL hR hinit hstep, ?_⟩
    refine often_shift.1 ((often_shift.2 hf).mono fun i hi => (hmem _).2 ?_)
    exact ⟨τ (i + 1), hreached (i + 1), hi, rfl⟩

end Product

/-- What a product is: nothing at all without a pair of initial states, and the graph of the
triples otherwise. -/
inductive IsProduct {σ α β : Type} [Ord σ] [Std.TransOrd σ] [Std.LawfulEqOrd σ] [DecidableEq σ]
    (L : Automaton σ α) (R : Automaton σ β) (F G : OrdSet String) : Automaton σ Empty → Prop
  | empty : Product.initialTriples L R = [] → IsProduct L R F G Builder.buchi.build
  | graph {P : Automaton σ Empty} : Product.IsGraph L R F G P → IsProduct L R F G P

namespace IsProduct

variable {σ α β : Type} [Ord σ] [Std.TransOrd σ] [Std.LawfulEqOrd σ] [DecidableEq σ]
  {L : Automaton σ α} {R : Automaton σ β} {F G : OrdSet String} {P : Automaton σ Empty}
  {w : Word σ}

theorem built (h : IsProduct L R F G P) : Built P := by
  cases h with
  | empty => exact .build .buchi
  | graph hg => exact hg.built

theorem exists_finals (h : IsProduct L R F G P) : ∃ H, P.acceptance = .buchi H := by
  cases h with
  | empty => exact ⟨.empty, rfl⟩
  | graph hg =>
    obtain ⟨H, hH, -⟩ := hg.finals
    exact ⟨H, hH⟩

theorem accepts_iff (hL : L.WellFormed) (hR : R.WellFormed) (h : IsProduct L R F G P) :
    P.Accepts w ↔ ∃ τ, Product.TripleRun L R F G w τ := by
  cases h with
  | empty hempty =>
    constructor
    · intro hw
      obtain ⟨r, hr, -⟩ := hw
      obtain ⟨s, hs, -⟩ := hr.initial
      cases hs
    · intro hw
      obtain ⟨τ, hinit, -⟩ := hw
      rw [hempty] at hinit
      cases hinit
  | graph hg => exact hg.accepts_iff hL hR

theorem exists_left_run (hL : L.WellFormed) (hR : R.WellFormed) (h : IsProduct L R F G P)
    {r : Nat → String} (hr : P.Run w r) :
    ∃ x, L.Run w x ∧ ∀ i j, r (i + 1) = r (j + 1) → x (i + 1) = x (j + 1) := by
  cases h with
  | empty =>
    obtain ⟨s, hs, -⟩ := hr.initial
    cases hs
  | graph hg =>
    obtain ⟨τ, hinit, hstep, hreached, hlabel⟩ := hg.exists_triples hL hR hr
    obtain ⟨hl, -, -⟩ := (Product.mem_initialTriples hL hR).1 hinit
    refine ⟨fun i => (τ i).left, ⟨hl, fun i => (hstep i).left⟩, fun i j hij => ?_⟩
    rw [hlabel, hlabel] at hij
    exact congrArg Triple.left (Product.label_inj (hreached _) (hreached _) hij)

end IsProduct

namespace Automaton

variable {σ α β : Type} [Ord σ] [Std.TransOrd σ] [Std.LawfulEqOrd σ] [DecidableEq σ]
  {L : Automaton σ α} {R : Automaton σ β} {F G : OrdSet String}

theorem product_eq_empty (hF : L.acceptance = .buchi F) (hG : R.acceptance = .buchi G)
    (h : Product.initialTriples L R = []) : L.product R = .ok Builder.buchi.build := by
  simp only [product, hF, hG, h, List.isEmpty_nil, if_true]

theorem exists_product_graph (hL : L.WellFormed) (hR : R.WellFormed)
    (hF : L.acceptance = .buchi F) (hG : R.acceptance = .buchi G)
    (h : Product.initialTriples L R ≠ []) :
    ∃ P, L.product R = .ok P ∧ Product.IsGraph L R F G P := by
  obtain ⟨P, hP, hg⟩ := Product.exists_graph (F := F) (G := G) hL hR
  refine ⟨P, ?_, hg⟩
  simp only [product, hF, hG]
  rw [if_neg (mt List.isEmpty_iff.1 h), hP]

theorem exists_product_eq_ok (hL : L.WellFormed) (hR : R.WellFormed)
    (hF : L.acceptance = .buchi F) (hG : R.acceptance = .buchi G) :
    ∃ P, L.product R = .ok P ∧ IsProduct L R F G P := by
  by_cases h : Product.initialTriples L R = []
  · exact ⟨_, product_eq_empty hF hG h, .empty h⟩
  · obtain ⟨P, hP, hg⟩ := exists_product_graph hL hR hF hG h
    exact ⟨P, hP, .graph hg⟩

/-- The product of two automata with one final set each is built without error, whatever their
labels, and accepts a word exactly when both operands do. -/
theorem product_accepts_iff_both (hL : Built L) (hR : Built R) (hF : L.acceptance = .buchi F)
    (hG : R.acceptance = .buchi G) :
    ∃ P, L.product R = .ok P ∧ ∀ w, P.Accepts w ↔ L.Accepts w ∧ R.Accepts w := by
  obtain ⟨P, hP, hprod⟩ := exists_product_eq_ok hL.wellFormed hR.wellFormed hF hG
  refine ⟨P, hP, fun w => ?_⟩
  rw [hprod.accepts_iff hL.wellFormed hR.wellFormed,
    Product.exists_tripleRun_iff hL.wellFormed hR.wellFormed hF hG]

def loop (label : String) (symbols : OrdSet Nat) : Builder Nat Unit :=
  ((Builder.buchi.addState ⟨label, true, none⟩).withFinals (.singleton label)).link
    label label symbols

theorem product_accepts_loops : ∃ P,
    (loop "a" (.ofList [0, 1])).build.product (loop "(a, a, 0)" (.ofList [1, 2])).build = .ok P ∧
      P.Accepts (fun _ => 1) ∧ ¬ P.Accepts fun _ => 0 := by
  have built (label : String) (symbols : OrdSet Nat) (h : symbols.isEmpty = false) :
      Built (loop label symbols).build := by
    have hs : (Builder.buchi.addState ⟨label, true, none⟩ : Builder Nat Unit).hasState label =
        true := by
      simp [hasState_iff, Builder.state?_addState]
    have hfinal := Builder.addFinal_eq_ok_iff.2 ⟨hs, rfl⟩
    exact .build (.addTransition (.addFinal (.addState _ .buchi) hfinal)
      (Builder.addTransition_eq_ok_iff.2 ⟨hs, hs, h, rfl⟩))
  obtain ⟨P, hP, hw⟩ := product_accepts_iff_both (built "a" (.ofList [0, 1]) rfl)
    (built "(a, a, 0)" (.ofList [1, 2]) rfl) rfl rfl
  refine ⟨P, hP, (hw _).2 ⟨?_, ?_⟩, fun hP => ?_⟩
  · refine ⟨fun _ => "a", ⟨⟨_, rfl, rfl⟩, fun i => ⟨_, rfl, by decide⟩⟩, fun s hs i => ?_⟩
    exact ⟨i, Nat.le_refl i, List.mem_singleton.1 hs ▸ OrdSet.mem_union.2 (Or.inr (by simp))⟩
  · refine ⟨fun _ => "(a, a, 0)", ⟨⟨_, rfl, rfl⟩, fun i => ⟨_, rfl, by decide⟩⟩, fun s hs i => ?_⟩
    exact ⟨i, Nat.le_refl i, List.mem_singleton.1 hs ▸ OrdSet.mem_union.2 (Or.inr (by simp))⟩
  · obtain ⟨r, hr, -⟩ := ((hw _).1 hP).2
    rcases Builder.edge_link.1 (hr.edge 0) with ⟨_, hnone, -⟩ | ⟨-, -, hmem⟩
    · cases hnone
    · exact absurd hmem (by decide)

end Automaton

end TemporalCheck
