import TemporalCheck.Proofs.Degeneralize
import TemporalCheck.Proofs.Lasso
import TemporalCheck.Proofs.Lift
import TemporalCheck.Proofs.Product
import TemporalCheck.Proofs.Tableau.Language
import TemporalCheck.Verification

/-!
# The verdict and the counterexamples

The product accepts the words of the paths that violate the formula, as far as the names of
the formula show them. A lasso of the product projects to a path of the structure that
repeats where the lasso does.
-/

namespace TemporalCheck

variable {k : Kripke} {f : Formula} {config : Config} {v : Verification}

section Specification

variable {options : TableauOptions} {A : Automaton Letter (List Formula)} {w : Word Letter}

theorem accepts_negated (h : f.negated.toAutomaton options = .ok A) :
    A.Accepts w ↔ (∀ i, (w i).Subset f.names) ∧ ¬ f.Satisfies w := by
  rw [Formula.accepts_toAutomaton h, Formula.names_normalized, Formula.names_negated]
  exact and_congr_right fun _ => Formula.holds_normalized.trans Formula.holds_negated

/-- The automaton with one final set accepts what the automaton of the tableau accepts, also
when that one has no final set at all. -/
theorem exists_single (h : f.toAutomaton options = .ok A) (optimize : Bool) :
    ∃ D, A.degeneralize = .ok D ∧ Built (if optimize then D.optimized else D) ∧
      (∃ G, (if optimize then D.optimized else D).acceptance = .buchi G) ∧
        ∀ w, (if optimize then D.optimized else D).Accepts w ↔ A.Accepts w := by
  obtain ⟨D, hD, hu⟩ := Automaton.exists_degeneralize (Formula.built_toAutomaton h).wellFormed
  obtain ⟨G, hG, -⟩ := hu.finals
  have hacc (w : Word Letter) : D.Accepts w ↔ A.Accepts w := by
    by_cases hsets : A.finalSets = []
    · exact iff_of_false (hu.not_accepts hsets) (Formula.not_accepts_toAutomaton h hsets w)
    · exact hu.accepts_iff hsets
  have hreach : Reachable ((Builder.ofAutomaton D).withOptimize true) :=
    .withOptimize true (.ofAutomaton hu.built)
  refine ⟨D, hD, ?_⟩
  cases optimize with
  | false => exact ⟨hu.built, ⟨G, hG⟩, hacc⟩
  | true =>
    refine ⟨.build hreach, Automaton.exists_buchi_mergeUpTo _ hG, fun w => ?_⟩
    rw [← hacc]
    exact Builder.accepts_build hreach.wellFormed

end Specification

structure Checks (k : Kripke) (f : Formula) (P : Automaton Letter Empty) : Prop where
  wellFormed : P.WellFormed
  accepts : ∀ w, P.Accepts w ↔
    (∃ p, k.Path p ∧ ∀ i, w i = (p i).atoms.project f.names) ∧ ¬ f.Satisfies w
  path : ∀ w r, P.Run w r → ∃ p, k.Path p ∧ (∀ i, w i = (p i).atoms.project f.names) ∧
    ∀ i j, r (i + 1) = r (j + 1) → p i = p j

theorem checks_product {S : Automaton Letter String} {R : Automaton Letter (List Formula)}
    {P : Automaton Letter Empty} {F G : OrdSet String} (hk : (k.states.map KripkeState.name).Nodup)
    (hS : Kripke.Lifts k (fun s => s.atoms.project f.names) S) (hR : Built R)
    (hF : S.acceptance = .buchi F) (hG : R.acceptance = .buchi G) (hP : IsProduct S R F G P)
    (hspec : ∀ w, R.Accepts w ↔ (∀ i, (w i).Subset f.names) ∧ ¬ f.Satisfies w) :
    Checks k f P := by
  have hSw := hS.built.wellFormed
  refine ⟨hP.built.wellFormed, fun w => ?_, fun w r hr => ?_⟩
  · rw [hP.accepts_iff hSw hR.wellFormed, Product.exists_tripleRun_iff hSw hR.wellFormed hF hG,
      hS.accepts_iff hk, hspec]
    refine and_congr_right fun hw => and_iff_right fun i a ha => ?_
    obtain ⟨p, -, hp⟩ := hw
    rw [hp i] at ha
    exact (Letter.mem_project.1 ha).2
  · obtain ⟨x, hx, hrepeat⟩ := hP.exists_left_run hSw hR.wellFormed hr
    obtain ⟨p, hp, hlabel, hw⟩ := hS.exists_path hk hx
    refine ⟨p, hp, hw, fun i j hij => ?_⟩
    have he := hrepeat i j hij
    rw [hlabel, hlabel] at he
    exact Kripke.labelOf_inj hk (hp.mem_states i) (hp.mem_states j) he

structure Verifies (k : Kripke) (f : Formula) (config : Config) (v : Verification) : Prop where
  checks : Checks k f v.product
  result : ∃ H, v.product.acceptance = .buchi H ∧ v.confirmed = (v.product.lassos H).isEmpty ∧
    v.counterexamples = config.limit
      (.ofList ((v.product.lassos H).map (Lasso.render Letter.render v.product)))

theorem exists_verify (config : Config) (hk : k.Built) {A : Automaton Letter (List Formula)}
    (hA : f.negated.toAutomaton ⟨config.maxFree, config.optimize⟩ = .ok A) :
    ∃ v, k.verify f config = .ok v ∧ Verifies k f config v := by
  obtain ⟨S, hS, hlift⟩ := Kripke.exists_liftWith k fun s => s.atoms.project f.names
  obtain ⟨F, hF, -⟩ := hlift.finals
  obtain ⟨D, hD, hbuilt, ⟨G, hG⟩, hacc⟩ := exists_single hA config.optimize
  obtain ⟨P, hP, hprod⟩ :=
    Automaton.exists_product_eq_ok hlift.built.wellFormed hbuilt.wellFormed hF hG
  obtain ⟨H, hH⟩ := hprod.exists_finals
  have hE := Automaton.emptiness_eq_ok hH Letter.render
  have hv : k.verify f config = .ok ⟨f, f.negated, k, S, A,
      if config.optimize then D.optimized else D, P, (P.lassos H).isEmpty,
      config.limit (.ofList ((P.lassos H).map (Lasso.render Letter.render P)))⟩ := by
    unfold Kripke.verify
    refine bind_eq_ok_iff.2 ⟨S, mapError_eq_ok_iff.2 hS, ?_⟩
    refine bind_eq_ok_iff.2 ⟨A, mapError_eq_ok_iff.2 hA, ?_⟩
    refine bind_eq_ok_iff.2 ⟨D, mapError_eq_ok_iff.2 hD, ?_⟩
    refine bind_eq_ok_iff.2 ⟨P, mapError_eq_ok_iff.2 hP, ?_⟩
    exact bind_eq_ok_iff.2 ⟨_, mapError_eq_ok_iff.2 hE, rfl⟩
  refine ⟨_, hv, checks_product hk.nodup hlift hbuilt hF hG hprod fun w => ?_, H, hH, rfl, rfl⟩
  rw [hacc, accepts_negated hA]

structure Stages (k : Kripke) (f : Formula) (config : Config) (v : Verification) : Prop where
  specification : v.specification = f
  negated : v.negatedSpecification = f.negated
  system : k.liftProjected f.names = .ok v.system
  automaton : v.negatedSpecification.toAutomaton ⟨config.maxFree, config.optimize⟩ =
    .ok v.specificationAutomaton
  single : ∃ D, v.specificationAutomaton.degeneralize = .ok D ∧
    v.degeneralizedSpecification = if config.optimize then D.optimized else D
  product : v.system.product v.degeneralizedSpecification = .ok v.product

theorem stages_of_verify (h : k.verify f config = .ok v) : Stages k f config v := by
  unfold Kripke.verify at h
  obtain ⟨S, hS, h⟩ := bind_eq_ok_iff.1 h
  obtain ⟨A, hA, h⟩ := bind_eq_ok_iff.1 h
  obtain ⟨D, hD, h⟩ := bind_eq_ok_iff.1 h
  obtain ⟨P, hP, h⟩ := bind_eq_ok_iff.1 h
  obtain ⟨E, -, h⟩ := bind_eq_ok_iff.1 h
  cases h
  exact ⟨rfl, rfl, mapError_eq_ok_iff.1 hS, mapError_eq_ok_iff.1 hA,
    ⟨D, mapError_eq_ok_iff.1 hD, rfl⟩, mapError_eq_ok_iff.1 hP⟩

theorem exists_specification (h : k.verify f config = .ok v) :
    ∃ A, f.negated.toAutomaton ⟨config.maxFree, config.optimize⟩ = .ok A := by
  have hstages := stages_of_verify h
  exact ⟨v.specificationAutomaton, hstages.negated ▸ hstages.automaton⟩

theorem verifies_of_verify (hk : k.Built) (h : k.verify f config = .ok v) :
    Verifies k f config v := by
  obtain ⟨A, hA⟩ := exists_specification h
  obtain ⟨v', hv', hV⟩ := exists_verify config hk hA
  rw [h] at hv'
  cases hv'
  exact hV

theorem satisfies_trace {p : Nat → KripkeState} :
    f.Satisfies (fun i => (p i).atoms.project f.names) ↔ f.Satisfies (Kripke.trace p) :=
  Formula.holds_project f (Kripke.trace p) 0

theorem Checks.exists_accepts_iff {P : Automaton Letter Empty} (h : Checks k f P) :
    (∃ w, P.Accepts w) ↔ ∃ p, k.Path p ∧ ¬ f.Satisfies (Kripke.trace p) := by
  simp only [h.accepts]
  constructor
  · intro hw
    obtain ⟨w, ⟨p, hp, hw⟩, hn⟩ := hw
    obtain rfl : w = fun i => (p i).atoms.project f.names := funext hw
    exact ⟨p, hp, fun hs => hn (satisfies_trace.2 hs)⟩
  · intro hp
    obtain ⟨p, hp, hn⟩ := hp
    exact ⟨_, ⟨p, hp, fun _ => rfl⟩, fun hs => hn (satisfies_trace.1 hs)⟩

theorem Verifies.confirmed_iff (h : Verifies k f config v) :
    v.confirmed = true ↔ ¬ ∃ p, k.Path p ∧ ¬ f.Satisfies (Kripke.trace p) := by
  obtain ⟨H, hH, hc, -⟩ := h.result
  rw [hc, List.isEmpty_iff, Automaton.lassos_eq_nil_iff h.checks.wellFormed hH, ← not_exists,
    h.checks.exists_accepts_iff]

/-- The verdict is positive exactly when every infinite path from an initial state satisfies the
formula. -/
theorem verify_confirmed_iff_paths_satisfy (hk : k.Built) (h : k.verify f config = .ok v) :
    v.confirmed = true ↔ ∀ p, k.Path p → f.Satisfies (Kripke.trace p) := by
  rw [(verifies_of_verify hk h).confirmed_iff]
  constructor
  · intro hnone p hp
    by_contra hs
    exact hnone ⟨p, hp, hs⟩
  · intro hall hsome
    obtain ⟨p, hp, hs⟩ := hsome
    exact hs (hall p hp)

def lostDraft : KripkeDraft :=
  (((KripkeDraft.empty.addState ⟨"a", true, .singleton "p"⟩).addState
    ⟨"b", false, .singleton "q"⟩).addTransition "a" "b").addTransition "b" "b"

def lost : Kripke :=
  ⟨lostDraft.toStateTable, .ofList [("a", .singleton "b"), ("b", .singleton "b")]⟩

def lostPath : Nat → KripkeState
  | 0 => ⟨"a", true, .singleton "p"⟩
  | _ + 1 => ⟨"b", false, .singleton "q"⟩

theorem built_lost : lost.Built :=
  ⟨lostDraft, .addTransition _ _ (.addTransition _ _ (.addState _ (.addState _ .empty))), rfl⟩

theorem exists_lostPath_violates :
    ∃ p, lost.Path p ∧ ¬ (Formula.unary .always (.var "p")).Satisfies (Kripke.trace p) := by
  refine ⟨lostPath, ⟨by decide, fun i => ?_⟩, fun h => ?_⟩
  · cases i with
    | zero => decide
    | succ i =>
      change lostPath 1 ∈ lost.successors (lostPath 1).name
      decide
  · have hp : "p" ∈ OrdSet.singleton "q" := h 1 (Nat.zero_le 1)
    exact absurd hp (by decide)

theorem exists_verify_lost (limit : Option Nat) : ∃ v,
    lost.verify (.unary .always (.var "p")) ⟨freeLimit, true, limit⟩ = .ok v := by
  have hok : ((Formula.unary .always (.var "p")).negated.toAutomaton
      ⟨freeLimit, true⟩).isOk = true := by
    decide +kernel
  obtain ⟨A, hA⟩ := exists_eq_ok_of_isOk hok
  obtain ⟨v, hv, -⟩ := exists_verify ⟨freeLimit, true, limit⟩ built_lost hA
  exact ⟨v, hv⟩

theorem verify_rejects_lost : ∃ v,
    lost.verify (.unary .always (.var "p")) .standard = .ok v ∧ v.confirmed = false := by
  obtain ⟨v, hv⟩ := exists_verify_lost none
  refine ⟨v, hv, ?_⟩
  rw [← Bool.not_eq_true, verify_confirmed_iff_paths_satisfy built_lost hv]
  intro hall
  obtain ⟨p, hp, hs⟩ := exists_lostPath_violates
  exact hs (hall p hp)

/-- The lasso word `u` is what the names of the formula show of the path `p`, the path repeats
where the word does, and it violates the formula. -/
structure Refutes (k : Kripke) (f : Formula) (u : LassoWord Letter) (p : Nat → KripkeState) :
    Prop where
  path : k.Path p
  cycle_ne_nil : u.cycle ≠ []
  periodic : ∀ i, u.stem.length ≤ i → p (i + u.cycle.length) = p i
  spells : u.Spells fun i => (p i).atoms.inter f.names
  violates : ¬ f.Satisfies (Kripke.trace p)

theorem Checks.exists_refutes {P : Automaton Letter Empty} (h : Checks k f P) {H : OrdSet String}
    (hH : P.acceptance = .buchi H) {l : Lasso} (hl : l ∈ P.lassos H) :
    ∃ p, Refutes k f (l.word P) p := by
  obtain ⟨q, hq, hs⟩ := Automaton.sound_of_mem_lassos h.wellFormed hl
  obtain ⟨w, hspells, hr⟩ := hs.exists_run h.wellFormed
  obtain ⟨p, hp, hw, hrepeat⟩ := h.path w l.visit hr
  obtain rfl : w = fun i => (p i).atoms.project f.names := funext hw
  obtain ⟨hstem, hcycle⟩ := hs.length_word h.wellFormed
  refine ⟨p, hp, ?_, fun i hi => ?_, hspells, fun hsat => ?_⟩
  · apply List.ne_nil_of_length_pos
    rw [hcycle]
    exact hs.length_cycle
  · rw [hstem] at hi
    rw [hcycle]
    apply hrepeat
    have he : i + l.cycle.length + 1 = i + 1 + l.cycle.length := by omega
    rw [he]
    exact hs.visit_periodic (by omega)
  · have haccepts := hs.accepts hH hq hr
    exact ((h.accepts _).1 haccepts).2 (satisfies_trace.2 hsat)

theorem limit_subset (config : Config) (words : OrdSet String) :
    (config.limit words).Subset words := by
  intro text ht
  unfold Config.limit at ht
  split at ht
  · exact List.mem_of_mem_take ht
  · exact ht

theorem limit_spec {n : Nat} (hn : config.maxCounterexamples = some n) (words : OrdSet String) :
    (config.limit words).size = min n words.size ∧
      ∀ a ∈ config.limit words, ∀ b ∈ words, b ∉ config.limit words → compare a b = .lt := by
  have hlist : (config.limit words).toList = words.toList.take n := by rw [Config.limit, hn]
  refine ⟨by rw [OrdSet.size, hlist, List.length_take, OrdSet.size], fun a ha b hb hab => ?_⟩
  rw [OrdSet.mem_def, hlist] at ha hab
  have hsplit := words.ascending
  rw [← List.take_append_drop n words.toList] at hsplit
  rw [OrdSet.mem_def, ← List.take_append_drop n words.toList, List.mem_append] at hb
  exact (List.pairwise_append.1 hsplit).2.2 a ha b (hb.resolve_left hab)

theorem exists_verify_unlimited (h : k.verify f config = .ok v) : ∃ v',
    k.verify f ⟨config.maxFree, config.optimize, none⟩ = .ok v' ∧ v'.confirmed = v.confirmed ∧
      v.counterexamples = config.limit v'.counterexamples := by
  unfold Kripke.verify at h
  obtain ⟨S, hS, h⟩ := bind_eq_ok_iff.1 h
  obtain ⟨A, hA, h⟩ := bind_eq_ok_iff.1 h
  obtain ⟨D, hD, h⟩ := bind_eq_ok_iff.1 h
  obtain ⟨P, hP, h⟩ := bind_eq_ok_iff.1 h
  obtain ⟨e, he, h⟩ := bind_eq_ok_iff.1 h
  cases h
  refine ⟨⟨f, f.negated, k, S, A, if config.optimize then D.optimized else D, P, e.isEmpty,
    e.counterexamples⟩, ?_, rfl, rfl⟩
  unfold Kripke.verify
  refine bind_eq_ok_iff.2 ⟨S, hS, bind_eq_ok_iff.2 ⟨A, hA, bind_eq_ok_iff.2 ⟨D, hD, ?_⟩⟩⟩
  exact bind_eq_ok_iff.2 ⟨P, hP, bind_eq_ok_iff.2 ⟨e, he, rfl⟩⟩

theorem Verifies.refutes (h : Verifies k f config v) :
    ∀ text ∈ v.counterexamples, ∃ u p, text = u.render Letter.render ∧ Refutes k f u p := by
  intro text ht
  obtain ⟨H, hH, -, hwords⟩ := h.result
  rw [hwords] at ht
  have ht := limit_subset _ _ text ht
  rw [OrdSet.mem_ofList] at ht
  obtain ⟨l, hl, rfl⟩ := List.mem_map.1 ht
  obtain ⟨p, hp⟩ := h.checks.exists_refutes hH hl
  exact ⟨l.word v.product, p, rfl, hp⟩

theorem Verifies.exists_counterexample_iff (h : Verifies k f config v)
    (hn : config.maxCounterexamples = none) :
    (∃ text, text ∈ v.counterexamples) ↔ v.confirmed = false := by
  obtain ⟨H, -, hc, hwords⟩ := h.result
  rw [hwords, Config.limit, hn, hc]
  cases hl : v.product.lassos H with
  | nil => simp
  | cons l rest => simp

/-- Every counterexample is a lasso of the structure that violates the formula. Without a limit
there is one exactly when the verdict is negative; a limit keeps the smallest ones and does not
touch the verdict. -/
theorem verify_counterexamples_refute (hk : k.Built) (h : k.verify f config = .ok v) :
    (∀ text ∈ v.counterexamples, ∃ u p, text = u.render Letter.render ∧ Refutes k f u p) ∧
      (config.maxCounterexamples = none →
        ((∃ text, text ∈ v.counterexamples) ↔ v.confirmed = false)) ∧
      ∀ n, config.maxCounterexamples = some n → ∃ v',
        k.verify f ⟨config.maxFree, config.optimize, none⟩ = .ok v' ∧ v'.confirmed = v.confirmed ∧
          v.counterexamples.Subset v'.counterexamples ∧
          v.counterexamples.size = min n v'.counterexamples.size ∧
          ∀ a ∈ v.counterexamples, ∀ b ∈ v'.counterexamples, b ∉ v.counterexamples →
            compare a b = .lt := by
  have hV := verifies_of_verify hk h
  refine ⟨hV.refutes, hV.exists_counterexample_iff, fun n hn => ?_⟩
  obtain ⟨v', hv', hc, hwords⟩ := exists_verify_unlimited h
  rw [hwords]
  exact ⟨v', hv', hc, limit_subset config _, limit_spec hn _⟩

def lostText : String := "\x7bp\x7d\x7b\x7d(\x7b\x7d\x7b\x7d\x7b\x7d)"

theorem verify_counterexamples_lost : ∃ v v',
    lost.verify (.unary .always (.var "p")) ⟨freeLimit, true, some 1⟩ = .ok v ∧
      v.counterexamples = .singleton lostText ∧
      (∃ u p, lostText = u.render Letter.render ∧ Refutes lost (.unary .always (.var "p")) u p) ∧
      lost.verify (.unary .always (.var "p")) ⟨freeLimit, true, none⟩ = .ok v' ∧
      v'.confirmed = false ∧ v.counterexamples.Subset v'.counterexamples := by
  have hprinted : (lost.verify (.unary .always (.var "p")) ⟨freeLimit, true, some 1⟩).map
      Verification.counterexamples = .ok (.singleton lostText) := by
    decide +kernel
  obtain ⟨v, hv⟩ := exists_verify_lost (some 1)
  rw [hv] at hprinted
  have hsingle : v.counterexamples = .singleton lostText := Except.ok.inj hprinted
  have hmem : lostText ∈ v.counterexamples := by
    rw [hsingle]
    exact OrdSet.mem_singleton.2 rfl
  obtain ⟨hrefutes, -, hlimit⟩ := verify_counterexamples_refute built_lost hv
  obtain ⟨v', hv', -, hsubset, -⟩ := hlimit 1 rfl
  obtain ⟨-, hsome, -⟩ := verify_counterexamples_refute built_lost hv'
  exact ⟨v, v', hv, hsingle, hrefutes lostText hmem, hv',
    (hsome rfl).1 ⟨lostText, hsubset lostText hmem⟩, hsubset⟩

end TemporalCheck
