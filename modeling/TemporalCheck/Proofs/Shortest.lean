import Mathlib.Data.List.Forall2
import Mathlib.Logic.Relation
import TemporalCheck.Proofs.Lasso

/-!
# The lassos that are reported

A pair of an initial and a final state has a lasso exactly when the final state is
reached from the initial one and lies on a cycle. The check reports one lasso for
each of these pairs, in the order of the labels. The searches look at trails in the
order of their length, so the first trail that ends where it should is as short as
any path, for the stem as well as for the cycle.
-/

namespace TemporalCheck

namespace Automaton

variable {σ δ : Type} [Ord σ] {A : Automaton σ δ} {F : OrdSet String} {p q f : String}
  {l : List String}

def Leads (A : Automaton σ δ) (p q : String) : Prop := A.hasTransition p q = true

structure IsPath (A : Automaton σ δ) (p q : String) (l : List String) : Prop where
  first : l.head? = some p
  last : l.getLast? = some q
  linked : A.Linked l

theorem isPath_nodes_iff {t : Trail String} :
    A.IsPath p q t.nodes ↔ t.IsWalk A.successors [p] ∧ t.last = q := by
  have chain : A.Linked t.nodes ↔ t.nodes.IsChain fun a b => b ∈ A.successors a := by
    simp only [Linked, mem_successors]
  constructor
  · intro h
    refine ⟨⟨chain.1 h.linked, p, List.mem_cons_self, h.first⟩, ?_⟩
    simpa using h.last
  · intro h
    obtain ⟨hw, rfl⟩ := h
    obtain ⟨r, hr, hh⟩ := hw.root
    rw [List.mem_singleton.1 hr] at hh
    exact ⟨hh, t.getLast?_nodes, chain.2 hw.chain⟩

theorem IsPath.exists_walk (h : A.IsPath p q l) :
    ∃ t : Trail String, t.nodes = l ∧ t.IsWalk A.successors [p] ∧ t.last = q := by
  have hne : l ≠ [] := fun he => by
    have hf := h.first
    rw [he] at hf
    cases hf
  obtain ⟨t, rfl⟩ := Trail.exists_nodes_eq hne
  exact ⟨t, rfl, isPath_nodes_iff.1 h⟩

theorem reflTransGen_of_isWalk {t : Trail String} (h : t.IsWalk A.successors [p]) :
    Relation.ReflTransGen A.Leads p t.last := by
  refine h.last_of_step (fun r hr => ?_) fun r hr s hs => hr.tail (mem_successors.1 hs)
  rw [List.mem_singleton.1 hr]

theorem exists_isWalk (h : Relation.ReflTransGen A.Leads p q) :
    ∃ t : Trail String, t.IsWalk A.successors [p] ∧ t.last = q := by
  induction h with
  | refl => exact ⟨.start p, .start List.mem_cons_self, rfl⟩
  | tail _ hstep ih =>
    obtain ⟨t, hw, rfl⟩ := ih
    exact ⟨t.extend _, Trail.isWalk_extend_iff.2 ⟨hw, mem_successors.2 hstep⟩, rfl⟩

theorem isSome_stem?_iff (hA : A.WellFormed) (hp : A.hasState p = true) :
    (A.stem? p f).isSome = true ↔ Relation.ReflTransGen A.Leads p f := by
  rw [stem?, List.find?_isSome]
  constructor
  · intro h
    obtain ⟨t, ht, he⟩ := h
    rw [← of_decide_eq_true he]
    exact reflTransGen_of_isWalk (Search.isWalk_of_mem_trails ht)
  · intro h
    obtain ⟨w, hw, hlast⟩ := exists_isWalk h
    obtain ⟨t, ht, he, -⟩ := exists_trailsFrom_le hA hp hw
    exact ⟨t, ht, decide_eq_true (he.trans hlast)⟩

theorem isPath_stem? {t : Trail String} (h : A.stem? p f = some t) : A.IsPath p f t.nodes := by
  have hlast : t.last = f := by simpa using List.find?_some h
  exact isPath_nodes_iff.2 ⟨Search.isWalk_of_mem_trails (List.mem_of_find?_eq_some h), hlast⟩

theorem length_stem?_le (hA : A.WellFormed) (hp : A.hasState p = true) {t : Trail String}
    (h : A.stem? p f = some t) (hl : A.IsPath p f l) : t.nodes.length ≤ l.length := by
  obtain ⟨w, rfl, hw, hlast⟩ := hl.exists_walk
  obtain ⟨u, hu, he, hle⟩ := exists_trailsFrom_le hA hp hw
  have hfirst := Search.length_le_of_find? h hu (decide_eq_true (he.trans hlast))
  rw [Trail.length_nodes, Trail.length_nodes]
  omega

theorem IsPath.exists_closing (h : A.IsPath f f (f :: l)) (hl : l ≠ []) :
    ∃ t : Trail String, t.IsWalk A.successors [f] ∧ A.hasTransition t.last f = true ∧
      t.length + 1 = l.length := by
  obtain ⟨⟨q, before⟩, hnodes, hw, rfl⟩ := h.exists_walk
  have hlen := congrArg List.length hnodes
  rw [Trail.length_nodes, List.length_cons] at hlen
  cases before with
  | nil => exact absurd (List.eq_nil_of_length_eq_zero (Nat.succ.inj hlen).symm) hl
  | cons r before =>
    obtain ⟨hw, hq⟩ := Trail.isWalk_extend_iff (t := ⟨r, before⟩).1 hw
    exact ⟨⟨r, before⟩, hw, mem_successors.1 hq, Nat.succ.inj hlen⟩

theorem isSome_shortestCycle_iff (hA : A.WellFormed) (hf : A.hasState f = true) :
    (A.shortestCycle f).isSome = true ↔ Relation.TransGen A.Leads f f := by
  rw [shortestCycle, Option.isSome_map, List.find?_isSome, Relation.TransGen.tail'_iff]
  constructor
  · intro h
    obtain ⟨t, ht, hback⟩ := h
    exact ⟨t.last, reflTransGen_of_isWalk (Search.isWalk_of_mem_trails ht), hback⟩
  · intro h
    obtain ⟨q, hq, hback⟩ := h
    obtain ⟨w, hw, rfl⟩ := exists_isWalk hq
    obtain ⟨t, ht, he, -⟩ := exists_trailsFrom_le hA hf hw
    exact ⟨t, ht, he ▸ hback⟩

theorem isPath_shortestCycle (h : A.shortestCycle f = some l) :
    A.IsPath f f (f :: l) ∧ l ≠ [] := by
  obtain ⟨hlinked, hlast⟩ := shortestCycle_cases h
  have hne : l ≠ [] := fun he => by
    rw [he] at hlast
    cases hlast
  refine ⟨⟨rfl, ?_, hlinked⟩, hne⟩
  rw [List.getLast?_cons, hlast]
  rfl

theorem length_shortestCycle_le (hA : A.WellFormed) (hf : A.hasState f = true) {c : List String}
    (h : A.shortestCycle f = some c) (hl : A.IsPath f f (f :: l)) (hne : l ≠ []) :
    c.length ≤ l.length := by
  obtain ⟨t, ht, rfl⟩ := Option.map_eq_some_iff.1 h
  obtain ⟨w, hw, hback, hlen⟩ := hl.exists_closing hne
  obtain ⟨u, hu, he, hle⟩ := exists_trailsFrom_le hA hf hw
  have hfirst := Search.length_le_of_find? ht hu (he ▸ hback)
  rw [List.length_append, List.length_tail, Trail.length_nodes, List.length_singleton]
  omega

end Automaton

/-- The stem is a path from `i` to `f`, the cycle leads from `f` back to it by one transition at
least, and no such path is shorter than either of them. -/
structure Lasso.Shortest {σ δ : Type} [Ord σ] (A : Automaton σ δ) (i f : String) (l : Lasso) :
    Prop where
  stem : A.IsPath i f l.stem
  stem_le : ∀ m, A.IsPath i f m → l.stem.length ≤ m.length
  cycle : A.IsPath f f (f :: l.cycle)
  cycle_ne_nil : l.cycle ≠ []
  cycle_le : ∀ c, c ≠ [] → A.IsPath f f (f :: c) → l.cycle.length ≤ c.length

def Lasso.ends (l : Lasso) : String × String := (l.stem.headD "", l.stem.getLastD "")

namespace Automaton

variable {σ δ : Type} [Ord σ] {A : Automaton σ δ} {F : OrdSet String} {i f : String} {l : Lasso}

theorem WellFormed.final_declared (hA : A.WellFormed) (hF : A.acceptance = .buchi F)
    (hf : f ∈ F) : A.hasState f = true := by
  refine hA.finals_declared F ?_ f hf
  rw [finalSets, hF]
  exact List.mem_singleton.2 rfl

theorem exists_lasso?_iff (hA : A.WellFormed) (hi : A.hasState i = true)
    (hf : A.hasState f = true) : (∃ l, A.lasso? i f = some l) ↔
      Relation.ReflTransGen A.Leads i f ∧ Relation.TransGen A.Leads f f := by
  rw [← isSome_stem?_iff hA hi, ← isSome_shortestCycle_iff hA hf, Option.isSome_iff_exists,
    Option.isSome_iff_exists]
  constructor
  · intro h
    obtain ⟨l, hl⟩ := h
    obtain ⟨t, c, ht, hc, -⟩ := lasso?_eq_some_iff.1 hl
    exact ⟨⟨t, ht⟩, ⟨c, hc⟩⟩
  · intro h
    obtain ⟨⟨t, ht⟩, ⟨c, hc⟩⟩ := h
    exact ⟨_, lasso?_eq_some_iff.2 ⟨t, c, ht, hc, rfl⟩⟩

theorem shortest_lasso? (hA : A.WellFormed) (hi : A.hasState i = true) (hf : A.hasState f = true)
    (h : A.lasso? i f = some l) : l.Shortest A i f := by
  obtain ⟨t, c, ht, hc, rfl⟩ := lasso?_eq_some_iff.1 h
  obtain ⟨hpath, hne⟩ := isPath_shortestCycle hc
  exact ⟨isPath_stem? ht, fun m hm => length_stem?_le hA hi ht hm, hpath, hne,
    fun m hm hpath => length_shortestCycle_le hA hf hc hpath hm⟩

theorem ends_lasso? (h : A.lasso? i f = some l) : l.ends = (i, f) := by
  obtain ⟨t, c, ht, -, rfl⟩ := lasso?_eq_some_iff.1 h
  have hpath := isPath_stem? ht
  simp [Lasso.ends, List.headD_eq_head?_getD, List.getLastD_eq_getLast?, hpath.first, hpath.last]

theorem pairwise_initialStates (hA : A.WellFormed) :
    A.initialStates.Pairwise fun s t => compare s.label t.label = .lt := by
  have hlabels : Ascending (A.states.values.map State.label) := by
    rw [hA.map_label_values]
    exact A.states.keys.ascending
  exact (List.pairwise_map.1 hlabels).filter _

def PairLt (a b : String × String) : Prop :=
  compare a.1 b.1 = .lt ∨ a.1 = b.1 ∧ compare a.2 b.2 = .lt

theorem pairwise_ends_lassos (hA : A.WellFormed) :
    ((A.lassos F).map Lasso.ends).Pairwise PairLt := by
  rw [List.pairwise_map, lassos_eq, List.pairwise_flatMap]
  constructor
  · intro s _
    refine List.pairwise_filterMap.2 (F.ascending.imp fun {f g} hfg l hl m hm => ?_)
    rw [ends_lasso? hl, ends_lasso? hm]
    exact Or.inr ⟨rfl, hfg⟩
  · refine (pairwise_initialStates hA).imp fun {s t} hst l hl m hm => ?_
    obtain ⟨f, -, hl⟩ := List.mem_filterMap.1 hl
    obtain ⟨g, -, hm⟩ := List.mem_filterMap.1 hm
    rw [ends_lasso? hl, ends_lasso? hm]
    exact Or.inl hst

theorem mem_ends_lassos_iff (hA : A.WellFormed) (hF : A.acceptance = .buchi F) :
    (i, f) ∈ (A.lassos F).map Lasso.ends ↔ A.Initial i ∧ f ∈ F ∧
      Relation.ReflTransGen A.Leads i f ∧ Relation.TransGen A.Leads f f := by
  rw [List.mem_map, initial_iff hA]
  constructor
  · intro h
    obtain ⟨l, hl, he⟩ := h
    obtain ⟨s, hs, g, hg, hl⟩ := mem_lassos.1 hl
    rw [ends_lasso? hl] at he
    cases he
    have hstate := ((initial_iff hA).2 ⟨s, hs, rfl⟩).hasState
    exact ⟨⟨s, hs, rfl⟩, hg, (exists_lasso?_iff hA hstate (hA.final_declared hF hg)).1 ⟨l, hl⟩⟩
  · intro h
    obtain ⟨⟨s, hs, rfl⟩, hf, hreach⟩ := h
    have hstate := ((initial_iff hA).2 ⟨s, hs, rfl⟩).hasState
    obtain ⟨l, hl⟩ := (exists_lasso?_iff hA hstate (hA.final_declared hF hf)).2 hreach
    exact ⟨l, mem_lassos.2 ⟨s, hs, f, hf, hl⟩, ends_lasso? hl⟩

variable [Std.TransOrd σ] [Std.LawfulEqOrd σ] [DecidableEq σ]

/-- The check of an automaton with one final set reports one lasso for each pair of an initial
state and a final state that it reaches and that lies on a cycle, for no other pair, and in the
order of the labels. The stem of a lasso and its cycle are as short as they can be. -/
theorem emptiness_reports_shortest_lassos (hA : Built A) (hF : A.acceptance = .buchi F)
    (text : σ → String) : ∃ e pairs, A.emptiness text = .ok e ∧ pairs.Pairwise PairLt ∧
      (∀ i f, (i, f) ∈ pairs ↔ A.Initial i ∧ f ∈ F ∧ Relation.ReflTransGen A.Leads i f ∧
        Relation.TransGen A.Leads f f) ∧
      List.Forall₂ (fun pair l => l.Shortest A pair.1 pair.2) pairs e.lassos := by
  have hwell := hA.wellFormed
  refine ⟨_, (A.lassos F).map Lasso.ends, emptiness_eq_ok hF text, pairwise_ends_lassos hwell,
    fun i f => mem_ends_lassos_iff hwell hF, ?_⟩
  apply List.forall₂_map_left_iff.2
  apply List.forall₂_same.2
  intro l hl
  obtain ⟨s, hs, f, hf, hl⟩ := mem_lassos.1 hl
  have hstate := ((initial_iff hwell).2 ⟨s, hs, rfl⟩).hasState
  rw [ends_lasso? hl]
  exact shortest_lasso? hwell hstate (hwell.final_declared hF hf) hl

def detourStates : Builder Nat Unit :=
  Builder.buchi.addStates [⟨"a", true, none⟩, ⟨"b", true, none⟩, ⟨"c", false, none⟩]

/-- From `a` to `c` there is a way by `b` and a shorter one. -/
def detour : Builder Nat Unit :=
  ((((detourStates.withFinals (.ofList ["a", "c"])).link "a" "b" (.singleton 0)).link
    "b" "c" (.singleton 1)).link "a" "c" (.singleton 2)).link "c" "a" (.singleton 3)

theorem reachable_detour : Reachable detour := by
  have hstates : Reachable detourStates := .addStates _ .buchi
  have hfinals := hstates.withFinals (.ofList ["a", "c"]) (by decide)
  exact (((hfinals.link rfl rfl rfl).link rfl rfl rfl).link rfl rfl rfl).link rfl rfl rfl

theorem emptiness_reports_shortest_detour :
    (detour.build.emptiness toString).map Emptiness.lassos =
      .ok [⟨["a"], ["c", "a"]⟩, ⟨["a", "c"], ["a", "c"]⟩, ⟨["b", "c", "a"], ["c", "a"]⟩,
        ⟨["b", "c"], ["a", "c"]⟩] ∧
      (∀ m, detour.build.IsPath "b" "a" m → 3 ≤ m.length) ∧
      ∀ c, c ≠ [] → detour.build.IsPath "a" "a" ("a" :: c) → 2 ≤ c.length := by
  obtain ⟨e, pairs, he, -, -, hall⟩ :=
    emptiness_reports_shortest_lassos (.build reachable_detour) rfl toString
  have hlassos : (detour.build.emptiness toString).map Emptiness.lassos =
      .ok [⟨["a"], ["c", "a"]⟩, ⟨["a", "c"], ["a", "c"]⟩, ⟨["b", "c", "a"], ["c", "a"]⟩,
        ⟨["b", "c"], ["a", "c"]⟩] := by
    decide +kernel
  refine ⟨hlassos, ?_⟩
  rw [he] at hlassos
  rw [Except.ok.inj hlassos] at hall
  obtain ⟨⟨i, f⟩, rest, -, hall, -⟩ := List.forall₂_cons_right_iff.1 hall
  obtain ⟨-, rest, -, hall, -⟩ := List.forall₂_cons_right_iff.1 hall
  obtain ⟨⟨i, f⟩, rest, hthird, -, -⟩ := List.forall₂_cons_right_iff.1 hall
  obtain rfl : "b" = i := Option.some.inj hthird.stem.first
  obtain rfl : "a" = f := Option.some.inj hthird.stem.last
  exact ⟨hthird.stem_le, hthird.cycle_le⟩

end Automaton

end TemporalCheck
