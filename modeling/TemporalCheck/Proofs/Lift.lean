import Mathlib.Data.List.Nodup
import TemporalCheck.Kripke.Lift
import TemporalCheck.Proofs.Draft
import TemporalCheck.Proofs.Labels
import TemporalCheck.Proofs.Recurrence
import TemporalCheck.Proofs.WellFormed

/-!
# The automaton of a Kripke structure

A structure that comes from a draft has no name twice, so its states have different
numbers. The automaton is built without error, and its runs are the infinite paths of the
structure, read one step ahead: a step carries the letter of the state that it enters.
-/

namespace TemporalCheck

namespace Kripke

variable {k : Kripke} {s t : KripkeState}

theorem mem_states_of_initial (h : s ∈ k.initialStates) : s ∈ k.states :=
  (List.mem_filter.1 h).1

theorem mem_states_of_successor {name : String} (h : s ∈ k.successors name) : s ∈ k.states := by
  obtain ⟨target, -, hs⟩ := List.mem_filterMap.1 h
  rw [k.state?_eq] at hs
  exact List.mem_of_find?_eq_some hs

theorem Path.mem_states {p : Nat → KripkeState} (h : k.Path p) (i : Nat) : p i ∈ k.states := by
  cases i with
  | zero => exact h.start.1
  | succ i => exact mem_states_of_successor (h.step i)

def labelOf (k : Kripke) (s : KripkeState) : String := (k.label? s.name).getD entryLabel

theorem exists_index (hs : s ∈ k.states) : ∃ i, ∃ h : i < k.states.length,
    k.states[i].name = s.name ∧ k.label? s.name = some (toString (i + 1)) := by
  cases hi : k.states.findIdx? fun t => t.name = s.name with
  | none =>
    have hne := List.findIdx?_eq_none_iff.1 hi s hs
    simp at hne
  | some i =>
    obtain ⟨h, he, -⟩ := List.findIdx?_eq_some_iff_getElem.1 hi
    exact ⟨i, h, by simpa using he, by rw [label?, hi]; rfl⟩

theorem requireLabel_eq (hs : s ∈ k.states) : k.requireLabel s.name = .ok (k.labelOf s) := by
  obtain ⟨i, -, -, hl⟩ := exists_index hs
  rw [requireLabel, labelOf, hl]
  rfl

theorem labelOf_ne_entry (hs : s ∈ k.states) : k.labelOf s ≠ entryLabel := by
  obtain ⟨i, -, -, hl⟩ := exists_index hs
  rw [labelOf, hl]
  intro he
  have hzero : i + 1 = 0 := toString_nat_inj he
  omega

theorem labelOf_inj (hk : (k.states.map KripkeState.name).Nodup) (hs : s ∈ k.states)
    (ht : t ∈ k.states) (h : k.labelOf s = k.labelOf t) : s = t := by
  obtain ⟨i, hi, hni, hli⟩ := exists_index hs
  obtain ⟨j, hj, hnj, hlj⟩ := exists_index ht
  rw [labelOf, labelOf, hli, hlj] at h
  have hij : i = j := Nat.succ.inj (toString_nat_inj h)
  subst hij
  exact List.inj_on_of_nodup_map hk hs ht (hni.symm.trans hnj)

section Construction

variable {b : Builder Letter String} {letter : KripkeState → Letter} {l : List KripkeState}

theorem exists_addImage (hl : ∀ s ∈ l, s ∈ k.states) {F : OrdSet String}
    (hb : b.acceptance = .buchi F) : ∃ c H, l.foldlM k.addImage b = .ok c ∧ c.rows = b.rows ∧
      c.optimize = b.optimize ∧ (Reachable b → Reachable c) ∧ c.acceptance = .buchi H ∧
        (∀ q, c.hasState q = true ↔ b.hasState q = true ∨ ∃ s ∈ l, q = k.labelOf s) ∧
          (∀ q, c.Initial q ↔ b.Initial q ∧ ∀ s ∈ l, q ≠ k.labelOf s) ∧
            ∀ q, q ∈ H ↔ q ∈ F ∨ ∃ s ∈ l, q = k.labelOf s := by
  induction l generalizing b F with
  | nil => exact ⟨b, F, rfl, rfl, rfl, id, hb, by simp, by simp, by simp⟩
  | cons s l ih =>
    let d := b.addState ⟨k.labelOf s, false, some s.name⟩
    have hstate (q : String) : d.state? q =
        if q = k.labelOf s then some ⟨k.labelOf s, false, some s.name⟩ else b.state? q :=
      Builder.state?_addState b _ q
    have hself : d.hasState (k.labelOf s) = true :=
      Automaton.hasState_iff.2 ⟨_, by rw [hstate, if_pos rfl]⟩
    have hfinal := Builder.addFinal_eq_ok_iff.2 ⟨hself, rfl⟩
    have hstep : k.addImage b s = .ok (d.withFinals (.singleton (k.labelOf s))) := by
      rw [addImage, requireLabel_eq (hl s List.mem_cons_self)]
      exact hfinal
    have hacc : (d.withFinals (.singleton (k.labelOf s))).acceptance =
        .buchi (F.union (.singleton (k.labelOf s))) := by
      change Builder.extendFinals _ b.acceptance = _
      rw [hb]
      rfl
    obtain ⟨c, H, hc, hrows, hopt, hreach, hH, hhas, hinit, hmem⟩ :=
      ih (fun t ht => hl t (List.mem_cons_of_mem s ht)) hacc
    refine ⟨c, H, foldlM_cons_eq_ok_iff.2 ⟨_, hstep, hc⟩, hrows, hopt,
      fun hb => hreach (.addFinal (.addState _ hb) hfinal), hH, fun q => ?_, fun q => ?_, fun q => ?_⟩
    · have hone : d.hasState q = true ↔ b.hasState q = true ∨ q = k.labelOf s := by
        rw [Automaton.hasState_iff, hstate, Automaton.hasState_iff]
        by_cases hq : q = k.labelOf s <;> simp [hq]
      rw [hhas, show (d.withFinals _).hasState q = d.hasState q from rfl, hone, or_assoc]
      simp only [List.mem_cons, exists_eq_or_imp]
    · have hone : d.Initial q ↔ b.Initial q ∧ q ≠ k.labelOf s := by
        simp only [Automaton.Initial, hstate]
        by_cases hq : q = k.labelOf s <;> simp [hq]
      rw [hinit, show (d.withFinals _).Initial q ↔ d.Initial q from Iff.rfl, hone, and_assoc,
        List.forall_mem_cons]
    · rw [hmem, OrdSet.mem_union, OrdSet.mem_singleton, or_assoc]
      simp only [List.mem_cons, exists_eq_or_imp]

theorem extends_addSteps (hl : ∀ t ∈ l, t ∈ k.states) {source : String} {c : Builder Letter String}
    (h : k.addSteps letter source l b = .ok c) : b.Extends c fun p a q =>
      ∃ t ∈ l, p = source ∧ q = k.labelOf t ∧ a = letter t := by
  have hext := Builder.extends_foldlM (G := fun t p a q =>
    p = source ∧ q = k.labelOf t ∧ a ∈ OrdSet.singleton (letter t)) (fun t ht _ _ hstep => by
      rw [requireLabel_eq (hl t ht)] at hstep
      exact Builder.extends_addTransition hstep) h
  simpa only [OrdSet.mem_singleton] using hext

theorem exists_addSteps (letter : KripkeState → Letter) (hl : ∀ t ∈ l, t ∈ k.states)
    {source : String} (hs : b.hasState source = true) (ht : ∀ t ∈ k.states, b.hasState (k.labelOf t) = true) :
    ∃ c, k.addSteps letter source l b = .ok c := by
  apply exists_foldlM_eq_ok (fun d : Builder Letter String => d.states = b.states) ?_ rfl
  intro t hmem d hd
  have declared {q : String} (hq : b.hasState q = true) : d.hasState q = true := by
    rwa [Automaton.hasState_congr hd]
  have hok : d.addTransition source (k.labelOf t) (.singleton (letter t)) =
      .ok (d.link source (k.labelOf t) (.singleton (letter t))) :=
    Builder.addTransition_eq_ok_iff.2 ⟨declared hs, declared (ht t (hl t hmem)), rfl, rfl⟩
  refine ⟨d.link source (k.labelOf t) (.singleton (letter t)), ?_, hd⟩
  rw [requireLabel_eq (hl t hmem)]
  exact hok

end Construction

structure Lifts (k : Kripke) (letter : KripkeState → Letter) (A : Automaton Letter String) :
    Prop where
  built : TemporalCheck.Built A
  initial : ∀ p, A.Initial p ↔ p = entryLabel
  edge : ∀ p a q, A.Edge p a q ↔
    (∃ t ∈ k.initialStates, p = entryLabel ∧ q = k.labelOf t ∧ a = letter t) ∨
      ∃ s ∈ k.states, ∃ t ∈ k.successors s.name, p = k.labelOf s ∧ q = k.labelOf t ∧ a = letter t
  finals : ∃ F, A.acceptance = .buchi F ∧
    ∀ q, q ∈ F ↔ q = entryLabel ∨ ∃ s ∈ k.states, q = k.labelOf s

theorem exists_images (k : Kripke) : ∃ (b : Builder Letter String) (H : OrdSet String),
    ((Builder.buchi.addState ⟨entryLabel, true, none⟩).addFinal entryLabel >>= fun b =>
      k.states.foldlM k.addImage b) = .ok b ∧ b.rows = .empty ∧ b.optimize = false ∧
      Reachable b ∧ b.acceptance = .buchi H ∧ b.hasState entryLabel = true ∧
        (∀ s ∈ k.states, b.hasState (k.labelOf s) = true) ∧
          (∀ p, b.Initial p ↔ p = entryLabel) ∧
            ∀ q, q ∈ H ↔ q = entryLabel ∨ ∃ s ∈ k.states, q = k.labelOf s := by
  let entry : Builder Letter String := Builder.buchi.addState ⟨entryLabel, true, none⟩
  have hentry : entry.addFinal entryLabel = .ok (entry.withFinals (.singleton entryLabel)) := rfl
  obtain ⟨b, H, hb, hrows, hopt, hreach, hH, hhas, hinit, hmem⟩ := exists_addImage (k := k)
    (l := k.states) (b := entry.withFinals (.singleton entryLabel)) (fun _ hs => hs) rfl
  refine ⟨b, H, bind_eq_ok_iff.2 ⟨_, hentry, hb⟩, hrows, hopt,
    hreach (.addFinal (.addState _ .buchi) hentry), hH, (hhas _).2 (Or.inl rfl),
    fun s hs => (hhas _).2 (Or.inr ⟨s, hs, rfl⟩), fun p => ?_, fun q => ?_⟩
  · rw [hinit]
    constructor
    · intro hp
      obtain ⟨⟨s, hs, -⟩, -⟩ := hp
      have hs : entry.state? p = some s := hs
      by_contra hne
      rw [Builder.state?_addState, if_neg hne] at hs
      cases hs
    · intro hp
      subst hp
      exact ⟨⟨_, rfl, rfl⟩, fun s hs => (labelOf_ne_entry hs).symm⟩
  · rw [hmem, OrdSet.mem_union, or_iff_right (OrdSet.not_mem_empty q), OrdSet.mem_singleton]

theorem exists_addAllSteps (letter : KripkeState → Letter) {b : Builder Letter String}
    (hb : ∀ s ∈ k.states, b.hasState (k.labelOf s) = true) : ∃ c,
    k.states.foldlM (fun b s => do
      let label ← k.requireLabel s.name
      k.addSteps letter label (k.successors s.name) b) b = .ok c ∧
    b.Extends c fun p a q => ∃ s ∈ k.states, ∃ t ∈ k.successors s.name,
      p = k.labelOf s ∧ q = k.labelOf t ∧ a = letter t := by
  apply Builder.exists_foldlM_extends (G := fun s p a q => ∃ t ∈ k.successors s.name,
    p = k.labelOf s ∧ q = k.labelOf t ∧ a = letter t)
  · intro s hs c d hcd
    rw [requireLabel_eq hs] at hcd
    exact extends_addSteps (fun t ht => mem_states_of_successor ht) hcd
  · intro s hs c hc
    have declared (t : KripkeState) (ht : t ∈ k.states) : c.hasState (k.labelOf t) = true := by
      rw [Automaton.hasState_congr hc]
      exact hb t ht
    rw [requireLabel_eq hs]
    exact exists_addSteps letter (fun t ht => mem_states_of_successor ht) (declared s hs) declared

theorem exists_liftWith (k : Kripke) (letter : KripkeState → Letter) :
    ∃ A, k.liftWith letter = .ok A ∧ Lifts k letter A := by
  obtain ⟨b, H, hb, hrows, hopt, hreach, hH, hentry, hstates, hinit, hmem⟩ := exists_images k
  obtain ⟨x, hx, hb⟩ := bind_eq_ok_iff.1 hb
  obtain ⟨c, hc⟩ := exists_addSteps letter (fun t ht => mem_states_of_initial ht) hentry hstates
  have hbc := extends_addSteps (fun t ht => mem_states_of_initial ht) hc
  obtain ⟨d, hd, hcd⟩ := exists_addAllSteps letter fun s hs => by
    rw [hbc.hasState]
    exact hstates s hs
  have hbuild := hcd.build_eq (hbc.optimize.trans hopt)
  refine ⟨d.build, ?_, .build (hcd.reachable (hbc.reachable hreach)), fun p => ?_,
    fun p a q => ?_, H, ?_, hmem⟩
  · unfold liftWith
    refine bind_eq_ok_iff.2 ⟨x, hx, bind_eq_ok_iff.2 ⟨b, hb, ?_⟩⟩
    exact bind_eq_ok_iff.2 ⟨c, hc, bind_eq_ok_iff.2 ⟨d, hd, rfl⟩⟩
  · rw [hbuild, ← hinit]
    simp only [Automaton.Initial, Automaton.state?, hcd.states, hbc.states]
  · rw [hbuild, hcd.edge, hbc.edge, or_iff_right (Automaton.not_edge_of_rows_eq_empty hrows)]
  · rw [hbuild, hcd.acceptance, hbc.acceptance, hH]

def visited (k : Kripke) (p : Nat → KripkeState) : Nat → String :=
  enter entryLabel fun i => k.labelOf (p i)

namespace Lifts

variable {letter : KripkeState → Letter} {A : Automaton Letter String} {w : Word Letter}

theorem run_visited (h : Lifts k letter A) {p : Nat → KripkeState} (hp : k.Path p) :
    A.Run (fun i => letter (p i)) (k.visited p) := by
  refine ⟨(h.initial _).2 rfl, fun i => (h.edge _ _ _).2 ?_⟩
  cases i with
  | zero => exact Or.inl ⟨p 0, List.mem_filter.2 hp.start, rfl, rfl, rfl⟩
  | succ i => exact Or.inr ⟨p i, hp.mem_states i, p (i + 1), hp.step i, rfl, rfl, rfl⟩

theorem exists_path (h : Lifts k letter A) (hk : (k.states.map KripkeState.name).Nodup)
    {r : Nat → String} (hr : A.Run w r) : ∃ p, k.Path p ∧ (∀ i, r (i + 1) = k.labelOf (p i)) ∧
      ∀ i, w i = letter (p i) := by
  have hentry := (h.initial _).1 hr.initial
  obtain ⟨t, ht, -, htarget, hletter⟩ : ∃ t ∈ k.initialStates,
      r 0 = entryLabel ∧ r 1 = k.labelOf t ∧ w 0 = letter t := by
    rcases (h.edge _ _ _).1 (hr.edge 0) with hinit | ⟨s, hs, t, -, hsource, -⟩
    · exact hinit
    · exact absurd (hsource.symm.trans hentry) (labelOf_ne_entry hs)
  -- A later step starts in the state that the step before it has entered.
  obtain ⟨p, hp0, hp, hstep⟩ := exists_sequence
    (P := fun i s => s ∈ k.states ∧ r (i + 1) = k.labelOf s ∧ w i = letter s)
    (R := fun _ s t => t ∈ k.successors s.name) (a := t)
    ⟨mem_states_of_initial ht, htarget, hletter⟩ fun i s hs => by
      rcases (h.edge _ _ _).1 (hr.edge (i + 1)) with ⟨t, -, hsource, -⟩ | ⟨s', hs', t, ht, hsource, hq⟩
      · exact absurd (hs.2.1.symm.trans hsource) (labelOf_ne_entry hs.1)
      · obtain rfl := labelOf_inj hk hs.1 hs' (hs.2.1.symm.trans hsource)
        exact ⟨t, ht, mem_states_of_successor ht, hq⟩
  refine ⟨p, ⟨?_, hstep⟩, fun i => (hp i).2.1, fun i => (hp i).2.2⟩
  rw [hp0]
  exact List.mem_filter.1 ht

theorem accepts_iff (h : Lifts k letter A) (hk : (k.states.map KripkeState.name).Nodup) :
    A.Accepts w ↔ ∃ p, k.Path p ∧ ∀ i, w i = letter (p i) := by
  obtain ⟨F, hF, hmem⟩ := h.finals
  rw [Automaton.accepts_buchi_iff hF]
  constructor
  · intro hw
    obtain ⟨r, hr, -⟩ := hw
    obtain ⟨p, hp, -, hw⟩ := h.exists_path hk hr
    exact ⟨p, hp, hw⟩
  · intro hw
    obtain ⟨p, hp, hw⟩ := hw
    obtain rfl : w = fun i => letter (p i) := funext hw
    refine ⟨k.visited p, h.run_visited hp, often_shift.1 fun i => ⟨i, Nat.le_refl i, ?_⟩⟩
    exact (hmem _).2 (Or.inr ⟨p i, hp.mem_states i, rfl⟩)

end Lifts

/-- Lifting never fails. The words of the automaton are what can be read along the infinite paths
from an initial state, with all propositions or with the observed ones only. -/
theorem lift_accepts_iff_path (hk : k.Built) :
    (∃ A, k.lift = .ok A ∧ ∀ w, A.Accepts w ↔ ∃ p, k.Path p ∧ ∀ i, w i = (p i).atoms) ∧
      ∀ names, ∃ A, k.liftProjected names = .ok A ∧
        ∀ w, A.Accepts w ↔ ∃ p, k.Path p ∧ ∀ i, w i = (p i).atoms.inter names := by
  have lifted (letter : KripkeState → Letter) : ∃ A, k.liftWith letter = .ok A ∧
      ∀ w, A.Accepts w ↔ ∃ p, k.Path p ∧ ∀ i, w i = letter (p i) := by
    obtain ⟨A, hA, hl⟩ := exists_liftWith k letter
    exact ⟨A, hA, fun w => hl.accepts_iff hk.nodup⟩
  exact ⟨lifted KripkeState.atoms, fun names => lifted fun s => s.atoms.project names⟩

/-- Two initial states show `p`, and only `b` leads to `q`. The state `a` is declared anew when
the transitions are there. -/
def twinsDraft : KripkeDraft :=
  ((((((KripkeDraft.empty.addState ⟨"a", false, .singleton "q"⟩).addState
    ⟨"b", true, .singleton "p"⟩).addState ⟨"c", false, .singleton "q"⟩).addTransition
    "a" "a").addTransition "b" "c").addTransition "c" "c").addState ⟨"a", true, .singleton "p"⟩

def twins : Kripke :=
  ⟨((StateTable.empty.declare ⟨"a", true, .singleton "p"⟩).declare
    ⟨"b", true, .singleton "p"⟩).declare ⟨"c", false, .singleton "q"⟩,
    .ofList [("a", .singleton "a"), ("b", .singleton "c"), ("c", .singleton "c")]⟩

theorem built_twins : twins.Built :=
  ⟨twinsDraft, .addState _ (.addTransition _ _ (.addTransition _ _ (.addTransition _ _
    (.addState _ (.addState _ (.addState _ .empty)))))), rfl⟩

theorem lift_accepts_twins :
    (∃ A, twins.lift = .ok A ∧ A.Accepts (fun _ => .singleton "p") ∧
      A.Accepts (enter (.singleton "p") fun _ => .singleton "q") ∧
        ¬ A.Accepts fun _ => .singleton "q") ∧
      ∃ A, twins.liftProjected (.singleton "q") = .ok A ∧ A.Accepts fun _ => .empty := by
  have stay : twins.Path fun _ => ⟨"a", true, .singleton "p"⟩ := ⟨by decide, fun i => by decide⟩
  have leave : twins.Path
      (enter ⟨"b", true, .singleton "p"⟩ fun _ => ⟨"c", false, .singleton "q"⟩) := by
    refine ⟨by decide, fun i => ?_⟩
    cases i with
    | zero => decide
    | succ i =>
      change ⟨"c", false, .singleton "q"⟩ ∈ twins.successors "c"
      decide
  obtain ⟨⟨A, hA, hwords⟩, hprojected⟩ := lift_accepts_iff_path built_twins
  obtain ⟨B, hB, hobserved⟩ := hprojected (.singleton "q")
  refine ⟨⟨A, hA, (hwords _).2 ⟨_, stay, fun i => rfl⟩, (hwords _).2 ⟨_, leave, fun i => ?_⟩,
    fun hw => ?_⟩, B, hB, (hobserved _).2 ⟨_, stay, fun i => ?_⟩⟩
  · cases i with
    | zero => rfl
    | succ i => rfl
  · obtain ⟨p, hp, hq⟩ := (hwords _).1 hw
    have shows : ∀ s ∈ twins.states, s.initial = true → s.atoms = .singleton "p" := by decide
    exact absurd ((hq 0).trans (shows _ hp.start.1 hp.start.2)) (by decide)
  · decide

end Kripke

end TemporalCheck
