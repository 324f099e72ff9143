import Mathlib.Data.List.Chain
import TemporalCheck.Automaton.Lasso
import TemporalCheck.Proofs.Search
import TemporalCheck.Proofs.WellFormed

/-!
# Lassos decide whether a word is accepted

A lasso is followed by an infinite run that comes back to its final state after
each turn, on the word that its smallest symbols spell. Conversely an accepting
run meets one final state again and again, so a search from the initial state
reaches it, and a search from it comes back.
-/

namespace TemporalCheck

theorem getElem?_rel_of_isChain {α : Type} {R : α → α → Prop} {l : List α} (h : l.IsChain R)
    {i : Nat} {a b : α} (ha : l[i]? = some a) (hb : l[i + 1]? = some b) : R a b := by
  obtain ⟨hi, rfl⟩ := List.getElem?_eq_some_iff.1 ha
  obtain ⟨hj, rfl⟩ := List.getElem?_eq_some_iff.1 hb
  exact List.isChain_iff_getElem.1 h i hj

namespace Automaton

variable {σ δ : Type} [Ord σ] {A : Automaton σ δ} {p q : String}

def leastSymbol? (A : Automaton σ δ) (p q : String) : Option σ := (A.symbols? p q).bind OrdSet.min?

theorem WellFormed.exists_leastSymbol (hA : A.WellFormed) (h : A.hasTransition p q = true) :
    ∃ a, A.leastSymbol? p q = some a ∧ A.Edge p a q := by
  obtain ⟨symbols, hs⟩ := Option.isSome_iff_exists.1 h
  have hn := hA.symbols_nonempty p q symbols hs
  cases hl : symbols.toList with
  | nil => simp [OrdSet.isEmpty, hl] at hn
  | cons a rest =>
    refine ⟨a, ?_, symbols, hs, ?_⟩
    · simp [leastSymbol?, hs, OrdSet.min?, hl]
    · rw [OrdSet.mem_def, hl]
      exact List.mem_cons_self

/-- An edge with the smallest of the symbols that lead from `p` to `q`. -/
def LeastEdge (A : Automaton σ δ) (p : String) (a : σ) (q : String) : Prop :=
  ∃ symbols, A.symbols? p q = some symbols ∧ a ∈ symbols ∧
    ∀ b ∈ symbols, (compare a b).isLE = true

theorem leastEdge_of_leastSymbol? [Std.LawfulEqOrd σ] {a : σ} (h : A.leastSymbol? p q = some a) :
    A.LeastEdge p a q := by
  obtain ⟨symbols, hs, ha⟩ := Option.bind_eq_some_iff.1 h
  exact ⟨symbols, hs, OrdSet.least_of_min? ha⟩

def Linked (A : Automaton σ δ) (l : List String) : Prop :=
  l.IsChain fun p q => A.hasTransition p q = true

theorem symbolsAlong_cons_cons (hA : A.WellFormed) {rest : List String}
    (h : A.hasTransition p q = true) : ∃ a, A.leastSymbol? p q = some a ∧
      A.symbolsAlong (p :: q :: rest) = a :: A.symbolsAlong (q :: rest) := by
  obtain ⟨a, ha, -⟩ := hA.exists_leastSymbol h
  refine ⟨a, ha, ?_⟩
  rw [symbolsAlong, ← leastSymbol?, ha]
  rfl

theorem length_symbolsAlong (hA : A.WellFormed) {l : List String} (h : A.Linked l) :
    (A.symbolsAlong l).length = l.length - 1 := by
  induction l with
  | nil => rfl
  | cons p l ih =>
    cases l with
    | nil => rfl
    | cons q rest =>
      obtain ⟨hpq, hrest⟩ := List.isChain_cons_cons.1 h
      obtain ⟨a, -, he⟩ := symbolsAlong_cons_cons hA hpq
      rw [he, List.length_cons, ih hrest]
      rfl

theorem getElem?_symbolsAlong (hA : A.WellFormed) {l : List String} (h : A.Linked l) {i : Nat}
    (hp : l[i]? = some p) (hq : l[i + 1]? = some q) :
    (A.symbolsAlong l)[i]? = A.leastSymbol? p q := by
  induction l generalizing i with
  | nil => cases hp
  | cons x l ih =>
    cases l with
    | nil => cases hq
    | cons y rest =>
      obtain ⟨hxy, hrest⟩ := List.isChain_cons_cons.1 h
      obtain ⟨a, ha, he⟩ := symbolsAlong_cons_cons hA hxy
      rw [he]
      cases i with
      | zero =>
        cases hp
        cases hq
        exact ha.symm
      | succ i => exact ih hrest hp hq

end Automaton

namespace Lasso

structure Sound {σ δ : Type} [Ord σ] (A : Automaton σ δ) (f : String) (l : Lasso) : Prop where
  initial : ∃ p, l.stem.head? = some p ∧ A.Initial p
  stem : A.Linked l.stem
  last : l.stem.getLast? = some f
  cycle : A.Linked (f :: l.cycle)
  closed : l.cycle.getLast? = some f

/-- The state after `i` steps: along the stem first, then round the cycle. -/
def visit (l : Lasso) (i : Nat) : String :=
  if i < l.stem.length then l.stem.getD i ""
  else l.cycle.getD ((i - l.stem.length) % l.cycle.length) ""

variable {σ δ : Type} [Ord σ] {A : Automaton σ δ} {f : String} {l : Lasso}

theorem getElem?_stem {i : Nat} (h : i < l.stem.length) : l.stem[i]? = some (l.visit i) := by
  rw [visit, if_pos h, List.getD_eq_getElem?_getD, List.getElem?_eq_getElem h,
    Option.getD_some]

theorem getElem?_cycle {i : Nat} (h : i < l.cycle.length) (m : Nat) :
    l.cycle[i]? = some (l.visit (l.stem.length + m * l.cycle.length + i)) := by
  have hi : (l.stem.length + m * l.cycle.length + i - l.stem.length) % l.cycle.length = i := by
    rw [Nat.add_assoc, Nat.add_sub_cancel_left, Nat.add_comm, Nat.add_mul_mod_self_right,
      Nat.mod_eq_of_lt h]
  rw [visit, if_neg (by omega), hi, List.getD_eq_getElem?_getD, List.getElem?_eq_getElem h,
    Option.getD_some]

namespace Sound

theorem length_stem (h : Sound A f l) : l.stem.length = l.stem.length - 1 + 1 := by
  have hn : l.stem ≠ [] := fun he => by
    have hl := h.last
    rw [he] at hl
    cases hl
  have hpos := List.length_pos_iff.2 hn
  omega

theorem length_cycle (h : Sound A f l) : 0 < l.cycle.length := by
  refine List.length_pos_iff.2 fun he => ?_
  have hl := h.closed
  rw [he] at hl
  cases hl

theorem visit_final (h : Sound A f l) (m : Nat) :
    l.visit (l.stem.length - 1 + m * l.cycle.length) = f := by
  have hstem := h.length_stem
  have hcycle := h.length_cycle
  cases m with
  | zero =>
    have hl := h.last
    rw [List.getLast?_eq_getElem?, getElem?_stem (by omega)] at hl
    rw [Nat.zero_mul, Nat.add_zero]
    exact Option.some.inj hl
  | succ m =>
    have hl := h.closed
    rw [List.getLast?_eq_getElem?, getElem?_cycle (by omega) m] at hl
    have he : l.stem.length - 1 + (m + 1) * l.cycle.length =
        l.stem.length + m * l.cycle.length + (l.cycle.length - 1) := by
      rw [Nat.succ_mul]
      omega
    rw [he]
    exact Option.some.inj hl

theorem getElem?_turn (h : Sound A f l) (m : Nat) {j : Nat} (hj : j ≤ l.cycle.length) :
    (f :: l.cycle)[j]? = some (l.visit (l.stem.length - 1 + m * l.cycle.length + j)) := by
  cases j with
  | zero =>
    rw [Nat.add_zero, h.visit_final m]
    rfl
  | succ j =>
    have hstem := h.length_stem
    have he : l.stem.length - 1 + m * l.cycle.length + (j + 1) =
        l.stem.length + m * l.cycle.length + j := by omega
    rw [List.getElem?_cons_succ, getElem?_cycle hj m, he]

theorem exists_turn (h : Sound A f l) {i : Nat} (hi : l.stem.length - 1 ≤ i) :
    ∃ m j, j < l.cycle.length ∧ i = l.stem.length - 1 + m * l.cycle.length + j ∧
      (i - (l.stem.length - 1)) % l.cycle.length = j := by
  refine ⟨(i - (l.stem.length - 1)) / l.cycle.length, (i - (l.stem.length - 1)) % l.cycle.length,
    Nat.mod_lt _ h.length_cycle, ?_, rfl⟩
  have hd := Nat.div_add_mod (i - (l.stem.length - 1)) l.cycle.length
  rw [Nat.mul_comm] at hd
  omega

theorem hasTransition_visit (h : Sound A f l) (i : Nat) :
    A.hasTransition (l.visit i) (l.visit (i + 1)) = true := by
  by_cases hi : i + 1 < l.stem.length
  · exact getElem?_rel_of_isChain h.stem (getElem?_stem (by omega)) (getElem?_stem hi)
  · obtain ⟨m, j, hj, rfl, -⟩ := h.exists_turn (i := i) (by omega)
    exact getElem?_rel_of_isChain h.cycle (h.getElem?_turn m (by omega))
      (h.getElem?_turn m (j := j + 1) hj)

theorem visit_periodic (h : Sound A f l) {i : Nat} (hi : l.stem.length - 1 ≤ i) :
    l.visit (i + l.cycle.length) = l.visit i := by
  obtain ⟨m, j, hj, rfl, -⟩ := h.exists_turn hi
  have hnow := h.getElem?_turn m (by omega : j ≤ l.cycle.length)
  have hnext := h.getElem?_turn (m + 1) (by omega : j ≤ l.cycle.length)
  rw [hnow, Nat.succ_mul] at hnext
  have he : l.stem.length - 1 + m * l.cycle.length + j + l.cycle.length =
      l.stem.length - 1 + (m * l.cycle.length + l.cycle.length) + j := by omega
  rw [he]
  exact (Option.some.inj hnext).symm

theorem often_visit (h : Sound A f l) : Often fun i => l.visit i = f := by
  intro i
  have hle : i ≤ i * l.cycle.length := Nat.le_mul_of_pos_right i h.length_cycle
  exact ⟨l.stem.length - 1 + i * l.cycle.length, by omega, h.visit_final i⟩

theorem word_eq (h : Sound A f l) :
    l.word A = ⟨A.symbolsAlong l.stem, A.symbolsAlong (f :: l.cycle)⟩ := by
  rw [word, h.last]
  rfl

theorem length_word (h : Sound A f l) (hA : A.WellFormed) :
    (l.word A).stem.length = l.stem.length - 1 ∧ (l.word A).cycle.length = l.cycle.length := by
  rw [h.word_eq]
  exact ⟨Automaton.length_symbolsAlong hA h.stem, Automaton.length_symbolsAlong hA h.cycle⟩

theorem at?_word (h : Sound A f l) (hA : A.WellFormed) (i : Nat) :
    (l.word A).at? i = A.leastSymbol? (l.visit i) (l.visit (i + 1)) := by
  obtain ⟨hs, hc⟩ := h.length_word hA
  rw [LassoWord.at?, hs, hc, h.word_eq]
  split
  · exact Automaton.getElem?_symbolsAlong hA h.stem (getElem?_stem (by omega))
      (getElem?_stem (by omega))
  · obtain ⟨m, j, hj, hi, hmod⟩ := h.exists_turn (i := i) (by omega)
    rw [hmod]
    subst hi
    exact Automaton.getElem?_symbolsAlong hA h.cycle (h.getElem?_turn m (by omega))
      (h.getElem?_turn m (j := j + 1) hj)

/-- A lasso carries a periodic run through its final state on the word that it spells. -/
theorem exists_run (h : Sound A f l) (hA : A.WellFormed) :
    ∃ w, (l.word A).Spells w ∧ A.Run w l.visit := by
  have edges (i : Nat) : ∃ a, (l.word A).at? i = some a ∧ A.Edge (l.visit i) a (l.visit (i + 1)) := by
    rw [h.at?_word hA]
    exact hA.exists_leastSymbol (h.hasTransition_visit i)
  obtain ⟨w, hw⟩ := Classical.skolem.1 edges
  refine ⟨w, fun i => (hw i).1, ?_, fun i => (hw i).2⟩
  obtain ⟨p, hp, hinit⟩ := h.initial
  have hstem := h.length_stem
  rw [List.head?_eq_getElem?, getElem?_stem (by omega)] at hp
  rw [Option.some.inj hp]
  exact hinit

theorem leastEdge [Std.LawfulEqOrd σ] (h : Sound A f l) (hA : A.WellFormed) {w : Word σ}
    (hw : (l.word A).Spells w) (i : Nat) : A.LeastEdge (l.visit i) (w i) (l.visit (i + 1)) := by
  apply Automaton.leastEdge_of_leastSymbol?
  rw [← h.at?_word hA]
  exact hw i

theorem accepts (h : Sound A f l) {F : OrdSet String} (hF : A.acceptance = .buchi F) (hf : f ∈ F)
    {w : Word σ} (hr : A.Run w l.visit) : A.Accepts w := by
  rw [Automaton.accepts_buchi_iff hF]
  refine ⟨l.visit, hr, h.often_visit.mono fun i hi => ?_⟩
  rwa [hi]

end Sound

end Lasso

namespace Automaton

variable {σ δ : Type} [Ord σ] {A : Automaton σ δ} {F : OrdSet String} {root f : String}

theorem linked_of_mem_trailsFrom {t : Trail String} (h : t ∈ A.trailsFrom root) :
    A.Linked t.nodes ∧ t.nodes.head? = some root := by
  have hw := Search.isWalk_of_mem_trails h
  obtain ⟨p, hp, hh⟩ := hw.root
  rw [List.mem_singleton.1 hp] at hh
  exact ⟨hw.chain.imp fun _ _ hpq => mem_successors.1 hpq, hh⟩

theorem exists_trailsFrom_le (hA : A.WellFormed) (hroot : A.hasState root = true)
    {w : Trail String} (hw : w.IsWalk A.successors [root]) :
    ∃ t ∈ A.trailsFrom root, t.last = w.last ∧ t.length ≤ w.length := by
  have closed : ∀ p ∈ A.states.keys.toList, ∀ q ∈ A.successors p, q ∈ A.states.keys.toList := by
    intro p _ q hq
    obtain ⟨a, ha⟩ := hA.hasTransition_iff.1 (mem_successors.1 hq)
    exact OrdMap.contains_iff.1 (hA.edge_target ha)
  have roots : ∀ p ∈ [root], p ∈ A.states.keys.toList := by
    intro p hp
    rw [List.mem_singleton.1 hp]
    exact OrdMap.contains_iff.1 hroot
  have bound : A.states.keys.toList.length ≤ A.size := by
    simp [OrdMap.keys, size, OrdMap.size]
  exact Search.exists_trail_le closed roots bound hw

theorem exists_mem_trailsFrom (hA : A.WellFormed) {x : Nat → String}
    (hroot : A.hasState (x 0) = true) (hx : ∀ i, A.hasTransition (x i) (x (i + 1)) = true)
    (n : Nat) : ∃ t ∈ A.trailsFrom (x 0), t.last = x n := by
  have walk : ∃ w : Trail String, w.IsWalk A.successors [x 0] ∧ w.last = x n := by
    induction n with
    | zero => exact ⟨.start (x 0), .start List.mem_cons_self, rfl⟩
    | succ n ih =>
      obtain ⟨w, hw, hlast⟩ := ih
      refine ⟨w.extend (x (n + 1)), Trail.isWalk_extend_iff.2 ⟨hw, mem_successors.2 ?_⟩, rfl⟩
      rw [hlast]
      exact hx n
  obtain ⟨w, hw, hlast⟩ := walk
  obtain ⟨t, ht, he, -⟩ := exists_trailsFrom_le hA hroot hw
  exact ⟨t, ht, he.trans hlast⟩

theorem shortestCycle_cases {c : List String} (h : A.shortestCycle f = some c) :
    A.Linked (f :: c) ∧ c.getLast? = some f := by
  obtain ⟨t, ht, rfl⟩ := Option.map_eq_some_iff.1 h
  obtain ⟨hl, hh⟩ := linked_of_mem_trailsFrom (List.mem_of_find?_eq_some ht)
  have hlast := List.find?_some ht
  have hcons : f :: t.nodes.tail = t.nodes := List.cons_head?_tail hh
  refine ⟨?_, by simp⟩
  rw [← List.cons_append, hcons]
  refine List.IsChain.append hl (List.isChain_singleton f) fun p hp q hq => ?_
  rw [Trail.getLast?_nodes, Option.mem_some_iff] at hp
  rw [List.head?_cons, Option.mem_some_iff] at hq
  rwa [← hp, ← hq]

def stem? (A : Automaton σ δ) (i f : String) : Option (Trail String) :=
  (A.trailsFrom i).find? fun t => t.last = f

def lasso? (A : Automaton σ δ) (i f : String) : Option Lasso := do
  let t ← A.stem? i f
  let cycle ← A.shortestCycle f
  return ⟨t.nodes, cycle⟩

theorem lasso?_eq_some_iff {i : String} {l : Lasso} : A.lasso? i f = some l ↔
    ∃ t c, A.stem? i f = some t ∧ A.shortestCycle f = some c ∧ l = ⟨t.nodes, c⟩ := by
  constructor
  · intro h
    obtain ⟨t, ht, h⟩ := Option.bind_eq_some_iff.1 h
    obtain ⟨c, hc, h⟩ := Option.bind_eq_some_iff.1 h
    exact ⟨t, c, ht, hc, (Option.some.inj h).symm⟩
  · intro h
    obtain ⟨t, c, ht, hc, rfl⟩ := h
    exact Option.bind_eq_some_iff.2 ⟨t, ht, Option.bind_eq_some_iff.2 ⟨c, hc, rfl⟩⟩

theorem lassos_eq (A : Automaton σ δ) (F : OrdSet String) :
    A.lassos F = A.initialStates.flatMap fun s => F.toList.filterMap (A.lasso? s.label) := by
  simp only [lassos, List.filterMap_map]
  rfl

theorem mem_lassos {l : Lasso} : l ∈ A.lassos F ↔
    ∃ s ∈ A.initialStates, ∃ f ∈ F, A.lasso? s.label f = some l := by
  simp only [lassos_eq, List.mem_flatMap, List.mem_filterMap, OrdSet.mem_def]

theorem sound_of_mem_lassos (hA : A.WellFormed) {l : Lasso} (h : l ∈ A.lassos F) :
    ∃ f ∈ F, l.Sound A f := by
  obtain ⟨s, hs, f, hf, hl⟩ := mem_lassos.1 h
  obtain ⟨t, c, ht, hc, rfl⟩ := lasso?_eq_some_iff.1 hl
  obtain ⟨hl, hh⟩ := linked_of_mem_trailsFrom (List.mem_of_find?_eq_some ht)
  obtain ⟨hcycle, hlast⟩ := shortestCycle_cases hc
  have hf' : t.last = f := by simpa using List.find?_some ht
  exact ⟨f, hf, ⟨s.label, hh, (initial_iff hA).2 ⟨s, hs, rfl⟩⟩, hl,
    by rw [Trail.getLast?_nodes, hf'], hcycle, hlast⟩

theorem lassos_ne_nil (hA : A.WellFormed) {w : Word σ} {r : Nat → String} (hr : A.Run w r)
    (hF : Often fun i => r i ∈ F) : A.lassos F ≠ [] := by
  obtain ⟨f, hf, hoften⟩ := exists_mem_often (l := F.toList) hF
  have step (i : Nat) : A.hasTransition (r i) (r (i + 1)) = true :=
    hA.hasTransition_iff.2 ⟨w i, hr.edge i⟩
  obtain ⟨j, -, hj⟩ := hoften 0
  obtain ⟨k, hjk, hk⟩ := hoften (j + 1)
  obtain ⟨s, hs, hlabel⟩ := (initial_iff hA).1 hr.initial
  obtain ⟨t, ht, hlast⟩ := exists_mem_trailsFrom hA (hr.hasState hA 0) step j
  obtain ⟨u, hu, hback⟩ := exists_mem_trailsFrom hA (x := fun i => r (j + i)) (hr.hasState hA j)
    (fun i => step (j + i)) (k - 1 - j)
  have hreach : (A.stem? s.label f).isSome = true := by
    rw [stem?, List.find?_isSome, hlabel]
    exact ⟨t, ht, by simpa using hlast.trans hj⟩
  have hcycle : (A.shortestCycle f).isSome = true := by
    rw [shortestCycle, Option.isSome_map, List.find?_isSome, ← hj]
    refine ⟨u, hu, ?_⟩
    have he : j + (k - 1 - j) + 1 = k := by omega
    have hstep := step (j + (k - 1 - j))
    rw [he, hk] at hstep
    rwa [hback, hj]
  obtain ⟨t, ht⟩ := Option.isSome_iff_exists.1 hreach
  obtain ⟨c, hc⟩ := Option.isSome_iff_exists.1 hcycle
  have hl := lasso?_eq_some_iff.2 ⟨t, c, ht, hc, rfl⟩
  exact List.ne_nil_of_mem (mem_lassos.2 ⟨s, hs, f, hf, hl⟩)

theorem lassos_eq_nil_iff (hA : A.WellFormed) (hF : A.acceptance = .buchi F) :
    A.lassos F = [] ↔ ∀ w, ¬ A.Accepts w := by
  constructor
  · intro h w hw
    obtain ⟨r, hr, hoften⟩ := (accepts_buchi_iff hF).1 hw
    exact lassos_ne_nil hA hr hoften h
  · intro h
    refine List.eq_nil_iff_forall_not_mem.2 fun l hl => ?_
    obtain ⟨f, hf, hs⟩ := sound_of_mem_lassos hA hl
    obtain ⟨w, -, hr⟩ := hs.exists_run hA
    exact h w (hs.accepts hF hf hr)

theorem emptiness_eq_ok (hF : A.acceptance = .buchi F) (text : σ → String) :
    A.emptiness text = .ok ⟨A.lassos F, .ofList ((A.lassos F).map (Lasso.render text A))⟩ := by
  rw [emptiness, hF]

variable [Std.TransOrd σ] [Std.LawfulEqOrd σ] [DecidableEq σ]

/-- The check of an automaton with one final set never fails. It finds no lasso exactly when no
word is accepted, and a lasso that it finds spells an accepted word: the smallest symbol of each
step, along the stem first and then round the cycle for ever. -/
theorem emptiness_decides_acceptance (hA : Built A) (hF : A.acceptance = .buchi F)
    (text : σ → String) : ∃ e, A.emptiness text = .ok e ∧
      (e.isEmpty = true ↔ ∀ w, ¬ A.Accepts w) ∧
        ∀ l ∈ e.lassos, ∃ w, (∀ i, A.LeastEdge (l.visit i) (w i) (l.visit (i + 1))) ∧
          (l.word A).Spells w ∧ A.Accepts w := by
  refine ⟨_, emptiness_eq_ok hF text, ?_, fun l hl => ?_⟩
  · rw [Emptiness.isEmpty, List.isEmpty_iff]
    exact lassos_eq_nil_iff hA.wellFormed hF
  · obtain ⟨f, hf, hs⟩ := sound_of_mem_lassos hA.wellFormed hl
    obtain ⟨w, hw, hr⟩ := hs.exists_run hA.wellFormed
    exact ⟨w, hs.leastEdge hA.wellFormed hw, hw, hs.accepts hF hf hr⟩

def oneWayStates : Builder Nat Unit :=
  Builder.buchi.addStates [⟨"p", true, none⟩, ⟨"q", false, none⟩]

def oneWay : Builder Nat Unit :=
  (oneWayStates.withFinals (.singleton "q")).link "p" "q" (.ofList [2, 0])

def roundTrip : Builder Nat Unit := oneWay.link "q" "p" (.singleton 1)

theorem reachable_oneWay : Reachable oneWay := by
  have hstates : Reachable oneWayStates := .addStates _ .buchi
  exact (hstates.withFinals (.singleton "q") (by decide)).link rfl rfl rfl

theorem emptiness_decides_roundTrip : (∀ w, ¬ oneWay.build.Accepts w) ∧
    roundTrip.build.emptiness toString =
      .ok ⟨[⟨["p", "q"], ["p", "q"]⟩], .singleton "0(10)"⟩ ∧
        ∃ w, LassoWord.Spells ⟨[0], [1, 0]⟩ w ∧ roundTrip.build.Accepts w := by
  have hone : oneWay.build.emptiness toString = .ok ⟨[], .empty⟩ := rfl
  have hround : roundTrip.build.emptiness toString =
      .ok ⟨[⟨["p", "q"], ["p", "q"]⟩], .singleton "0(10)"⟩ := rfl
  have hreach : Reachable roundTrip := reachable_oneWay.link rfl rfl rfl
  refine ⟨?_, hround, ?_⟩
  · obtain ⟨e, he, hempty, -⟩ := emptiness_decides_acceptance (.build reachable_oneWay) rfl toString
    rw [hone] at he
    cases he
    exact hempty.1 rfl
  · obtain ⟨e, he, -, hwords⟩ := emptiness_decides_acceptance (.build hreach) rfl toString
    rw [hround] at he
    cases he
    obtain ⟨w, -, hspells, hw⟩ := hwords _ List.mem_cons_self
    exact ⟨w, hspells, hw⟩

end Automaton

end TemporalCheck
