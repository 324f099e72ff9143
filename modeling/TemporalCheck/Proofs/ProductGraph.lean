import Mathlib.Data.Set.Function
import TemporalCheck.Proofs.Product

/-!
# The states of a product are the triples that are reached

Two triples may have the same text, and the label of a triple depends on the labels
that are taken when the search meets it. The labels are one for each triple all the
same, so the product is the graph of the triples that synchronized steps lead to,
with an entry in front of it.
-/

namespace TemporalCheck

namespace Product

variable {σ α β : Type} [Ord σ] {L : Automaton σ α} {R : Automaton σ β} {F G : OrdSet String}
  {P : Automaton σ Empty} {t u : Triple} {a : σ}

def Starts (L : Automaton σ α) (R : Automaton σ β) (t : Triple) : Prop :=
  L.Initial t.left ∧ R.Initial t.right ∧ t.phase = .awaitLeft

inductive Reaches (L : Automaton σ α) (R : Automaton σ β) (F G : OrdSet String) : Triple → Prop
  | start {t : Triple} : Starts L R t → Reaches L R F G t
  | step {t u : Triple} {a : σ} : Reaches L R F G t → Step L R F G t a u → Reaches L R F G u

theorem mem_initialTriples_iff (hL : L.WellFormed) (hR : R.WellFormed) :
    t ∈ initialTriples L R ↔ Starts L R t := mem_initialTriples hL hR

variable [Std.LawfulEqOrd σ]

theorem mem_reached_iff (hL : L.WellFormed) (hR : R.WellFormed) :
    t ∈ reached L R F G ↔ Reaches L R F G t := by
  constructor
  · intro h
    obtain ⟨trail, htrail, rfl⟩ := List.mem_map.1 h
    refine (Search.isWalk_of_mem_trails htrail).last_of_step (fun t ht => ?_) fun t ht u hu => ?_
    · exact .start ((mem_initialTriples_iff hL hR).1 ht)
    · obtain ⟨⟨u, shared⟩, hm, rfl⟩ := List.mem_map.1 hu
      obtain ⟨a, hstep⟩ := exists_step hm
      exact ht.step hstep
  · intro h
    obtain ⟨hinit, hclosed⟩ := reached_closed (F := F) (G := G) hL hR
    induction h with
    | start ht => exact hinit _ ((mem_initialTriples_iff hL hR).2 ht)
    | step _ hstep ih => exact hclosed _ ih _ _ hstep

variable [Std.TransOrd σ] [DecidableEq σ]

/-- A graph with an entry whose other states are named one for each triple that is reached. -/
structure Presents (L : Automaton σ α) (R : Automaton σ β) (F G : OrdSet String)
    (P : Automaton σ Empty) (name : Triple → String) : Prop where
  bijOn : Set.BijOn name {t | Reaches L R F G t} {p | P.hasState p = true ∧ p ≠ "init"}
  edge : ∀ t u, Reaches L R F G t → Reaches L R F G u →
    ∀ a, P.Edge (name t) a (name u) ↔ Step L R F G t a u
  final : ∃ H, P.acceptance = .buchi H ∧ "init" ∉ H ∧
    ∀ t, Reaches L R F G t → (name t ∈ H ↔ t.phase.number = 2)
  initial : ∀ p, P.Initial p ↔ p = "init"
  not_edge_entry : ∀ p a, ¬ P.Edge p a "init"
  edge_entry : ∀ u, Reaches L R F G u →
    ∀ a, P.Edge "init" a (name u) ↔ ∃ t, Starts L R t ∧ Step L R F G t a u

theorem bijOn_label (hL : L.WellFormed) (hR : R.WellFormed) (h : IsGraph L R F G P) :
    Set.BijOn (label L R F G) {t | Reaches L R F G t}
      {p | P.hasState p = true ∧ p ≠ entryLabel} := by
  simp only [← mem_reached_iff hL hR]
  refine ⟨?_, ?_, ?_⟩
  · intro t ht
    exact ⟨(h.hasState _).2 (Or.inl ⟨t, ht, rfl⟩), label_ne_entry ht⟩
  · intro t ht u hu he
    exact label_inj ht hu he
  · intro p hp
    rcases (h.hasState p).1 hp.1 with ⟨t, ht, he⟩ | he
    · exact ⟨t, ht, he.symm⟩
    · exact absurd he hp.2

theorem IsGraph.edge_cases (hL : L.WellFormed) (hR : R.WellFormed) (h : IsGraph L R F G P)
    {p q : String} : P.Edge p a q ↔ ∃ t u, Step L R F G t a u ∧ Reaches L R F G u ∧
      q = label L R F G u ∧
        (Reaches L R F G t ∧ p = label L R F G t ∨ Starts L R t ∧ p = entryLabel) := by
  rw [h.edge]
  simp only [mem_reached_iff hL hR, mem_initialTriples_iff hL hR]
  constructor
  · intro he
    obtain ⟨t, u, hstep, hq, hp⟩ := he
    have ht : Reaches L R F G t := hp.elim And.left fun hs => .start hs.1
    exact ⟨t, u, hstep, ht.step hstep, hq, hp⟩
  · intro he
    obtain ⟨t, u, hstep, -, hq, hp⟩ := he
    exact ⟨t, u, hstep, hq, hp⟩

theorem IsGraph.presents (hL : L.WellFormed) (hR : R.WellFormed) (h : IsGraph L R F G P) :
    Presents L R F G P (label L R F G) := by
  have hbij := bijOn_label hL hR h
  have neEntry {t : Triple} (ht : Reaches L R F G t) : label L R F G t ≠ entryLabel :=
    (hbij.mapsTo ht).2
  refine ⟨hbij, fun t u ht hu a => ?_, ?_, h.initial, fun p a he => ?_, fun u hu a => ?_⟩
  · rw [h.edge_cases hL hR]
    constructor
    · intro he
      obtain ⟨t', u', hstep, hu', hq, ⟨ht', hp⟩ | ⟨-, hp⟩⟩ := he
      · obtain rfl := hbij.injOn ht ht' hp
        obtain rfl := hbij.injOn hu hu' hq
        exact hstep
      · exact absurd hp (neEntry ht)
    · intro hstep
      exact ⟨t, u, hstep, hu, rfl, Or.inl ⟨ht, rfl⟩⟩
  · obtain ⟨H, hH, hmem⟩ := h.finals
    simp only [mem_reached_iff hL hR] at hmem
    refine ⟨H, hH, fun he => ?_, fun t ht => ?_⟩
    · obtain ⟨t, ht, -, hl⟩ := (hmem _).1 he
      exact neEntry ht hl.symm
    · rw [hmem, Phase.number_eq_two_iff]
      constructor
      · intro he
        obtain ⟨u, hu, hboth, hl⟩ := he
        rwa [hbij.injOn ht hu hl]
      · intro hboth
        exact ⟨t, ht, hboth, rfl⟩
  · obtain ⟨-, u, -, hu, hq, -⟩ := (h.edge_cases hL hR).1 he
    exact neEntry hu hq.symm
  · rw [h.edge_cases hL hR]
    constructor
    · intro he
      obtain ⟨t, u', hstep, hu', hq, ⟨ht, hp⟩ | ⟨ht, -⟩⟩ := he
      · exact absurd hp.symm (neEntry ht)
      · obtain rfl := hbij.injOn hu hu' hq
        exact ⟨t, ht, hstep⟩
    · intro he
      obtain ⟨t, ht, hstep⟩ := he
      exact ⟨t, u, hstep, hu, rfl, Or.inr ⟨ht, rfl⟩⟩

end Product

namespace Automaton

variable {σ α β : Type} [Ord σ] [Std.TransOrd σ] [Std.LawfulEqOrd σ] [DecidableEq σ]
  {L : Automaton σ α} {R : Automaton σ β} {F G : OrdSet String}

/-- Whatever the labels of the operands, the product is the graph of the triples that synchronized
steps lead to from the initial pairs, with an entry that takes the steps of all of them. Without a
pair of initial states there are no states at all. -/
theorem product_presents_reached_triples (hL : Built L) (hR : Built R)
    (hF : L.acceptance = .buchi F) (hG : R.acceptance = .buchi G) :
    ∃ P, L.product R = .ok P ∧
      ((∃ l r, L.Initial l ∧ R.Initial r) → ∃ name, Product.Presents L R F G P name) ∧
      ((¬ ∃ l r, L.Initial l ∧ R.Initial r) → ∀ p, P.hasState p = false) := by
  have starts {t : Triple} : t ∈ Product.initialTriples L R ↔ Product.Starts L R t :=
    Product.mem_initialTriples_iff hL.wellFormed hR.wellFormed
  by_cases h : Product.initialTriples L R = []
  · refine ⟨_, product_eq_empty hF hG h, fun hex => ?_, fun _ p => rfl⟩
    obtain ⟨l, r, hl, hr⟩ := hex
    have hmem := starts.2 (⟨hl, hr, rfl⟩ : Product.Starts L R ⟨l, r, .awaitLeft⟩)
    rw [h] at hmem
    cases hmem
  · obtain ⟨P, hP, hg⟩ := exists_product_graph hL.wellFormed hR.wellFormed hF hG h
    refine ⟨P, hP, fun _ => ⟨_, hg.presents hL.wellFormed hR.wellFormed⟩, fun hnone => ?_⟩
    obtain ⟨t, ht⟩ := List.exists_mem_of_ne_nil _ h
    obtain ⟨hl, hr, -⟩ := starts.1 ht
    exact absurd ⟨_, _, hl, hr⟩ hnone

def branchingStates (entry first second : String) : Builder Nat Unit :=
  Builder.buchi.addStates [⟨entry, true, none⟩, ⟨first, false, none⟩, ⟨second, false, none⟩]

/-- The symbols `0` and `1` lead to two final states that read on what led to them. -/
def branching (entry first second : String) : Builder Nat Unit :=
  (((((branchingStates entry first second).withFinals (.ofList [first, second])).link
    entry first (.singleton 0)).link entry second (.singleton 1)).link
    first first (.singleton 0)).link second second (.singleton 1)

theorem reachable_branching (entry first second : String) :
    Reachable (branching entry first second) := by
  have hstates : Reachable (branchingStates entry first second) := .addStates _ .buchi
  have declared {p : String} (hp : p = entry ∨ p = first ∨ p = second) :
      (branchingStates entry first second).hasState p = true := by
    simp only [branchingStates, Builder.hasState_addStates, List.mem_cons, List.not_mem_nil,
      or_false, exists_eq_or_imp, exists_eq_left]
    exact Or.inr (by simpa [eq_comm] using hp)
  have hentry := declared (Or.inl rfl)
  have hfirst := declared (Or.inr (Or.inl rfl))
  have hsecond := declared (Or.inr (Or.inr rfl))
  have hfinals := hstates.withFinals (.ofList [first, second]) fun p hp => by
    have hp : p = first ∨ p = second := by simpa using hp
    exact declared (Or.inr hp)
  exact (((hfinals.link hentry hfirst rfl).link hentry hsecond rfl).link hfirst hfirst rfl).link
    hsecond hsecond rfl

theorem edges_branching (entry first second : String) :
    (branching entry first second).Edge entry 0 first ∧
      (branching entry first second).Edge entry 1 second ∧
      (branching entry first second).Edge first 0 first ∧
      (branching entry first second).Edge second 1 second := by
  simp [branching, Builder.edge_link]

def leftCommas : Automaton Nat Unit := (branching "i" "x,y" "x").build

def rightCommas : Automaton Nat Unit := (branching "j" "z" "y,z").build

theorem product_presents_commas : ∃ (P : Automaton Nat Empty) (name : Triple → String)
    (H : OrdSet String),
    leftCommas.product rightCommas = .ok P ∧ P.acceptance = .buchi H ∧
      Triple.text ⟨"x,y", "z", .both⟩ = Triple.text ⟨"x", "y,z", .both⟩ ∧
      name ⟨"x,y", "z", .both⟩ ≠ name ⟨"x", "y,z", .both⟩ ∧
      P.Edge "init" 0 (name ⟨"x,y", "z", .awaitRight⟩) ∧
      P.Edge "init" 1 (name ⟨"x", "y,z", .awaitRight⟩) ∧
      P.Edge (name ⟨"x,y", "z", .awaitRight⟩) 0 (name ⟨"x,y", "z", .both⟩) ∧
      P.Edge (name ⟨"x,y", "z", .both⟩) 0 (name ⟨"x,y", "z", .awaitLeft⟩) ∧
      name ⟨"x,y", "z", .both⟩ ∈ H ∧ name ⟨"x,y", "z", .awaitRight⟩ ∉ H := by
  let F : OrdSet String := .ofList ["x,y", "x"]
  let G : OrdSet String := .ofList ["z", "y,z"]
  have hbuilt₁ : Built leftCommas := .build (reachable_branching "i" "x,y" "x")
  have hbuilt₂ : Built rightCommas := .build (reachable_branching "j" "z" "y,z")
  obtain ⟨P, hP, hgraph, -⟩ :=
    product_presents_reached_triples hbuilt₁ hbuilt₂ (F := F) (G := G) rfl rfl
  have hstart : Product.Starts leftCommas rightCommas ⟨"i", "j", .awaitLeft⟩ :=
    ⟨⟨_, rfl, rfl⟩, ⟨_, rfl, rfl⟩, rfl⟩
  obtain ⟨name, hname⟩ := hgraph ⟨"i", "j", hstart.1, hstart.2.1⟩
  obtain ⟨left₁, left₂, leftStays₁, leftStays₂⟩ := edges_branching "i" "x,y" "x"
  obtain ⟨right₁, right₂, rightStays₁, rightStays₂⟩ := edges_branching "j" "z" "y,z"
  have hfirst : Product.Step leftCommas rightCommas F G ⟨"i", "j", .awaitLeft⟩ 0
      ⟨"x,y", "z", .awaitRight⟩ := ⟨left₁, right₁, .leftEnters (by decide)⟩
  have hsecond : Product.Step leftCommas rightCommas F G ⟨"i", "j", .awaitLeft⟩ 1
      ⟨"x", "y,z", .awaitRight⟩ := ⟨left₂, right₂, .leftEnters (by decide)⟩
  have hlast₁ : Product.Step leftCommas rightCommas F G ⟨"x,y", "z", .awaitRight⟩ 0
      ⟨"x,y", "z", .both⟩ := ⟨leftStays₁, rightStays₁, .rightEnters (by decide)⟩
  have hlast₂ : Product.Step leftCommas rightCommas F G ⟨"x", "y,z", .awaitRight⟩ 1
      ⟨"x", "y,z", .both⟩ := ⟨leftStays₂, rightStays₂, .rightEnters (by decide)⟩
  have hagain : Product.Step leftCommas rightCommas F G ⟨"x,y", "z", .both⟩ 0
      ⟨"x,y", "z", .awaitLeft⟩ := ⟨leftStays₁, rightStays₁, .restarts⟩
  have reached₁ := (Product.Reaches.start hstart).step hfirst
  have reached₂ := (Product.Reaches.start hstart).step hsecond
  have both₁ := reached₁.step hlast₁
  have both₂ := reached₂.step hlast₂
  obtain ⟨H, hH, -, hfinal⟩ := hname.final
  refine ⟨P, name, H, hP, hH, by decide, fun he => ?_,
    (hname.edge_entry _ reached₁ 0).2 ⟨_, hstart, hfirst⟩,
    (hname.edge_entry _ reached₂ 1).2 ⟨_, hstart, hsecond⟩,
    (hname.edge _ _ reached₁ both₁ 0).2 hlast₁,
    (hname.edge _ _ both₁ (both₁.step hagain) 0).2 hagain,
    (hfinal _ both₁).2 rfl, fun h => absurd ((hfinal _ reached₁).1 h) (by decide)⟩
  exact absurd (hname.bijOn.injOn both₁ both₂ he) (by decide)

end Automaton

end TemporalCheck
