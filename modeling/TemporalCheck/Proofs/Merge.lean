import TemporalCheck.Proofs.Builder
import TemporalCheck.Proofs.Recurrence

/-!
# Merging keeps the language

One merge folds a state onto a smaller one with the same flag, row and final
sets, and leads every edge to the representative of its target. Such quotients
compose, so the whole pass is a quotient of the automaton it started from; runs
map to runs of the quotient, and every run of the quotient comes from one.
-/

namespace TemporalCheck

theorem firstPair_sublist {α : Type} {r : α → α → Bool} {l : List α} {a b : α}
    (h : firstPair r l = some (a, b)) : r a b = true ∧ [a, b].Sublist l := by
  induction l with
  | nil => cases h
  | cons c l ih =>
    rw [firstPair] at h
    split at h
    · next d hd =>
      cases h
      have hm := List.mem_of_find?_eq_some hd
      exact ⟨List.find?_some hd, (List.singleton_sublist.2 hm).cons_cons _⟩
    · obtain ⟨hr, hs⟩ := ih h
      exact ⟨hr, hs.cons c⟩

theorem firstPair_eq_none_iff {α : Type} {r : α → α → Bool} {l : List α} :
    firstPair r l = none ↔ l.Pairwise fun a b => r a b = false := by
  induction l with
  | nil => simp [firstPair]
  | cons a l ih =>
    rw [firstPair, List.pairwise_cons, ← ih]
    cases hf : l.find? (r a) with
    | none =>
      have hall : ∀ b ∈ l, r a b = false := by simpa using List.find?_eq_none.1 hf
      simp only [and_iff_right hall]
    | some b =>
      have hr := List.find?_some hf
      have hb := List.mem_of_find?_eq_some hf
      simp only [reduceCtorEq, false_iff, not_and]
      intro hall
      rw [hall b hb] at hr
      cases hr

namespace Automaton

variable {σ δ : Type} [Ord σ] {A M N : Automaton σ δ} {keep remove p q : String}

structure Alike (A : Automaton σ δ) (p q : String) : Prop where
  initial : A.isInitial p = A.isInitial q
  final : ∀ s ∈ A.finalSets, p ∈ s ↔ q ∈ s
  row : A.rows.get? p = A.rows.get? q

structure Joinable (A : Automaton σ δ) (keep remove : String) : Prop
    extends Alike A keep remove where
  lt : compare keep remove = .lt
  declared : A.hasState keep = true
  removed : A.hasState remove = true

theorem Joinable.ne (h : A.Joinable keep remove) : keep ≠ remove := by
  intro he
  have hlt := h.lt
  rw [he, Std.ReflOrd.compare_self] at hlt
  cases hlt

theorem WellFormed.map_label_values (hA : A.WellFormed) :
    A.states.values.map State.label = A.states.keys.toList := by
  simp only [OrdMap.values, OrdMap.keys, List.map_map]
  refine List.map_congr_left fun e he => ?_
  exact hA.label_eq e.1 e.2 (OrdMap.get?_eq_some_iff.2 he)

theorem WellFormed.state?_of_mem_values (hA : A.WellFormed) {s : State δ}
    (hs : s ∈ A.states.values) : A.state? s.label = some s := by
  obtain ⟨k, hk⟩ := OrdMap.mem_values.1 hs
  rw [hA.label_eq k s hk]
  exact hk

theorem WellFormed.alike_iff (hA : A.WellFormed) {s t : State δ} (hs : s ∈ A.states.values)
    (ht : t ∈ A.states.values) : A.Alike s.label t.label ↔ A.profile s = A.profile t := by
  have initial_eq {u : State δ} (hu : u ∈ A.states.values) :
      A.isInitial u.label = u.initial := by
    rw [isInitial, hA.state?_of_mem_values hu, Option.any_some]
  have final_iff (finals : OrdSet String) : (s.label ∈ finals ↔ t.label ∈ finals) ↔
      finals.contains s.label = finals.contains t.label := by
    rw [Bool.eq_iff_iff, OrdSet.contains_iff, OrdSet.contains_iff]
  simp only [profile, Profile.mk.injEq, List.map_inj_left, ← final_iff, ← initial_eq hs,
    ← initial_eq ht]
  exact ⟨fun h => ⟨h.initial, h.final, h.row⟩, fun h => ⟨h.1, h.2.1, h.2.2⟩⟩

theorem edge_iff {a : σ} :
    A.Edge p a q ↔ ∃ row, A.rows.get? p = some row ∧ a ∈ (row.get? q).getD .empty := by
  rw [Edge, symbols?]
  cases A.rows.get? p with
  | none => simp
  | some row =>
    simp only [Option.bind_some, Option.some.injEq, exists_eq_left']
    cases row.get? q <;> simp

/-- `M` is what is left of `A` when each state stands for those that `rep` leads to it. -/
structure Quotient (A M : Automaton σ δ) (rep : String → String) : Prop where
  le : ∀ p, (compare (rep p) p).isLE = true
  kept : ∀ p, A.hasState p = true → A.hasState (rep p) = true ∧ rep (rep p) = rep p
  state? : ∀ p, M.state? p = if rep p = p then A.state? p else none
  initial : ∀ p, A.hasState p = true → A.isInitial (rep p) = A.isInitial p
  final : ∀ s ∈ A.finalSets, ∀ p, A.hasState p = true → (rep p ∈ s ↔ p ∈ s)
  finalSets : M.finalSets = A.finalSets.map fun s => s.filter fun p => rep p = p
  edge : ∀ p a t, A.hasState p = true →
    (M.Edge (rep p) a t ↔ ∃ u, A.Edge p a u ∧ rep u = t)

theorem Quotient.refl (A : Automaton σ δ) : Quotient A A id := by
  refine ⟨?_, fun p hp => ⟨hp, rfl⟩, fun p => (if_pos rfl).symm, fun p _ => rfl,
    fun s _ p _ => Iff.rfl, ?_, ?_⟩
  · intro p
    rw [id, Std.ReflOrd.compare_self]
    rfl
  · have same (s : OrdSet String) : (s.filter fun p => id p = p) = s := by
      ext p
      simp
    simp only [same, List.map_id']
  · intro p a t _
    simp

theorem Quotient.hasState_iff {rep : String → String} (h : Quotient A M rep) :
    M.hasState p = true ↔ rep p = p ∧ A.hasState p = true := by
  rw [Automaton.hasState_iff, h.state?, Automaton.hasState_iff]
  by_cases hp : rep p = p <;> simp [hp]

theorem Quotient.comp_eq_self_iff {f g : String → String} (h : Quotient A M f)
    (k : Quotient M N g) : g (f p) = p ↔ f p = p ∧ g p = p := by
  constructor
  · intro he
    have hf := h.le p
    have hg := k.le (f p)
    rw [he] at hg
    have hfp : f p = p := Std.LawfulEqOrd.eq_of_compare (Std.OrientedCmp.isLE_antisymm hf hg)
    exact ⟨hfp, by rwa [hfp] at he⟩
  · intro he
    rw [he.1, he.2]

theorem Quotient.trans {f g : String → String} (h : Quotient A M f) (k : Quotient M N g) :
    Quotient A N fun p => g (f p) := by
  have image (p : String) (hp : A.hasState p = true) : M.hasState (f p) = true :=
    h.hasState_iff.2 ⟨(h.kept p hp).2, (h.kept p hp).1⟩
  have keptBoth (p : String) (hp : A.hasState p = true) : f (g (f p)) = g (f p) :=
    (h.hasState_iff.1 (k.kept (f p) (image p hp)).1).1
  refine ⟨?_, ?_, ?_, ?_, ?_, ?_, ?_⟩
  · intro p
    exact Std.TransCmp.isLE_trans (k.le (f p)) (h.le p)
  · intro p hp
    have hm := (k.kept (f p) (image p hp))
    refine ⟨(h.hasState_iff.1 hm.1).2, ?_⟩
    rw [keptBoth p hp, hm.2]
  · intro p
    rw [k.state?, h.state?]
    simp only [h.comp_eq_self_iff k]
    by_cases hf : f p = p <;> by_cases hg : g p = p <;> simp [hf, hg]
  · intro p hp
    have hi := k.initial (f p) (image p hp)
    have hfix := (h.kept p hp).2
    simp only [isInitial, h.state?, hfix, keptBoth p hp, if_pos] at hi
    exact hi.trans (h.initial p hp)
  · intro s hs p hp
    have hm : (s.filter fun p => f p = p) ∈ M.finalSets := by
      rw [h.finalSets]
      exact List.mem_map.2 ⟨s, hs, rfl⟩
    have hf := k.final _ hm (f p) (image p hp)
    simp only [OrdSet.mem_filter, decide_eq_true_eq, keptBoth p hp, (h.kept p hp).2,
      and_true] at hf
    exact hf.trans (h.final s hs p hp)
  · rw [k.finalSets, h.finalSets, List.map_map]
    refine List.map_congr_left fun s _ => ?_
    ext p
    simp only [Function.comp, OrdSet.mem_filter, decide_eq_true_eq, h.comp_eq_self_iff k,
      and_assoc]
  · intro p a t hp
    rw [k.edge (f p) a t (image p hp)]
    constructor
    · intro he
      obtain ⟨u, hu, rfl⟩ := he
      obtain ⟨v, hv, rfl⟩ := (h.edge p a u hp).1 hu
      exact ⟨v, hv, rfl⟩
    · intro he
      obtain ⟨v, hv, rfl⟩ := he
      exact ⟨f v, (h.edge p a (f v) hp).2 ⟨v, hv, rfl⟩, rfl⟩

variable {rep : String → String} {w : Word σ} {r : Nat → String}

theorem Quotient.initial_iff (h : Quotient A M rep) (hp : A.hasState p = true) :
    M.Initial (rep p) ↔ A.Initial p := by
  have flag (B : Automaton σ δ) (q : String) : B.Initial q ↔ B.isInitial q = true := by
    simp [Initial, isInitial, Option.any_eq_true]
  rw [flag, flag, ← h.initial p hp]
  simp only [isInitial, h.state?, (h.kept p hp).2, if_pos]

theorem Quotient.recurs_iff (h : Quotient A M rep) (hA : ∀ i, A.hasState (r i) = true) :
    (∀ s ∈ M.finalSets, Recurs (fun i => rep (r i)) s) ↔ ∀ s ∈ A.finalSets, Recurs r s := by
  rw [h.finalSets, List.forall_mem_map]
  refine forall₂_congr fun s hs => ?_
  simp only [Recurs, OrdSet.mem_filter, decide_eq_true_eq, (h.kept _ (hA _)).2, and_true,
    h.final s hs _ (hA _)]

/-- A run of the automaton maps to a run of its quotient; a run of the quotient is followed
by choosing, step by step, a target with the right representative. -/
theorem Quotient.accepts_iff (h : Quotient A M rep) (hA : A.WellFormed) :
    M.Accepts w ↔ A.Accepts w := by
  constructor
  · intro hM
    obtain ⟨r, hr, hf⟩ := hM
    have hstart := h.hasState_iff.1 hr.initial.hasState
    obtain ⟨u, hu0, hu, hedge⟩ := exists_sequence
      (P := fun i p => A.hasState p = true ∧ rep p = r i) (R := fun i p q => A.Edge p (w i) q)
      ⟨hstart.2, hstart.1⟩ fun i p hp => by
        have he := hr.edge i
        rw [← hp.2] at he
        obtain ⟨q, hq, hrep⟩ := (h.edge p (w i) _ hp.1).1 he
        exact ⟨q, hq, hA.edge_target hq, hrep⟩
    have hinit : A.Initial (u 0) := by
      rw [← h.initial_iff (hu 0).1, (hu 0).2]
      exact hr.initial
    have hru : r = fun i => rep (u i) := funext fun i => (hu i).2.symm
    rw [hru] at hf
    exact ⟨u, ⟨hinit, hedge⟩, (h.recurs_iff fun i => (hu i).1).1 hf⟩
  · intro hw
    obtain ⟨r, hr, hf⟩ := hw
    have declared := hr.hasState hA
    refine ⟨fun i => rep (r i), ⟨(h.initial_iff (declared 0)).2 hr.initial, fun i => ?_⟩,
      (h.recurs_iff declared).2 hf⟩
    exact (h.edge (r i) (w i) _ (declared i)).2 ⟨r (i + 1), hr.edge i, rfl⟩

theorem joinable_of_joinablePair [DecidableEq σ] (hA : A.WellFormed)
    (h : A.joinablePair = some (keep, remove)) : A.Joinable keep remove := by
  obtain ⟨⟨a, b⟩, hp, he⟩ := Option.map_eq_some_iff.1 h
  cases he
  obtain ⟨hr, hs⟩ := firstPair_sublist hp
  obtain ⟨l, hl, hmap⟩ := List.sublist_map_iff.1 hs
  match l, hmap with
  | [s, t], hmap =>
    obtain ⟨rfl, rfl⟩ : (s.label, A.profile s) = a ∧ (t.label, A.profile t) = b := by
      simpa using hmap.symm
    have hmem : s ∈ A.states.values ∧ t ∈ A.states.values := by simpa using hl.subset
    have hpair := (hA.map_label_values ▸ hl.map State.label : [s.label, t.label].Sublist _)
    exact {
      toAlike := (hA.alike_iff hmem.1 hmem.2).2 (by simpa using hr)
      lt := List.rel_of_pairwise_cons (A.states.keys.ascending.sublist hpair) (by simp)
      declared := hasState_iff.2 ⟨s, hA.state?_of_mem_values hmem.1⟩
      removed := hasState_iff.2 ⟨t, hA.state?_of_mem_values hmem.2⟩ }

def foldLabel (keep remove label : String) : String := if label = remove then keep else label

theorem foldLabel_eq_self_iff (hne : keep ≠ remove) : foldLabel keep remove p = p ↔ p ≠ remove := by
  unfold foldLabel
  split
  · next h => simp [h, hne]
  · next h => simp [h]

theorem foldLabel_ne (hne : keep ≠ remove) : foldLabel keep remove p ≠ remove := by
  unfold foldLabel
  split
  · exact hne
  · next h => exact h

theorem exists_foldLabel_eq (P : String → Prop) :
    (∃ u, P u ∧ foldLabel keep remove u = q) ↔ (q ≠ remove ∧ P q) ∨ (q = keep ∧ P remove) := by
  constructor
  · intro h
    obtain ⟨u, hu, rfl⟩ := h
    unfold foldLabel
    split
    · next he => exact Or.inr ⟨rfl, he ▸ hu⟩
    · next he => exact Or.inl ⟨he, hu⟩
  · intro h
    rcases h with ⟨hq, hp⟩ | ⟨rfl, hp⟩
    · exact ⟨q, hp, if_neg hq⟩
    · exact ⟨remove, hp, if_pos rfl⟩

variable [Std.TransOrd σ] [Std.LawfulEqOrd σ]

theorem get?_redirect (hne : keep ≠ remove) {row : Row σ} {moved : OrdSet σ}
    (hr : row.get? remove = some moved) (q : String) :
    (redirect keep remove row).get? q =
      if q = keep then some (((row.get? keep).getD .empty).union moved)
      else if q = remove then none else row.get? q := by
  simp only [redirect, hr, OrdMap.get?_insert, OrdMap.get?_erase, if_neg hne]

theorem redirect_eq_self {row : Row σ} (hr : row.get? remove = none) :
    redirect keep remove row = row := by
  simp only [redirect, hr]

theorem mem_redirect (hne : keep ≠ remove) (row : Row σ) (q : String) (a : σ) :
    a ∈ ((redirect keep remove row).get? q).getD .empty ↔
      (q ≠ remove ∧ a ∈ (row.get? q).getD .empty) ∨
        (q = keep ∧ a ∈ (row.get? remove).getD .empty) := by
  cases hr : row.get? remove with
  | none =>
    rw [redirect_eq_self hr]
    by_cases hq : q = remove
    · simp [hq, hr]
    · simp [hq]
  | some moved =>
    rw [get?_redirect hne hr]
    by_cases hk : q = keep
    · simp [hk, hne]
    · by_cases hq : q = remove
      · simp [hq, hne.symm]
      · simp [hk, hq]

theorem get?_rows_mergePair (p : String) :
    (A.mergePair keep remove).rows.get? p =
      if p = remove then none else (A.rows.get? p).map (redirect keep remove) := by
  rw [mergePair, OrdMap.get?_mapValues, OrdMap.get?_erase]
  split <;> rfl

theorem state?_mergePair (p : String) :
    (A.mergePair keep remove).state? p = if p = remove then none else A.state? p :=
  OrdMap.get?_erase A.states remove p

theorem finalSets_mergePair :
    (A.mergePair keep remove).finalSets = A.finalSets.map fun s => s.erase remove := by
  simp only [finalSets, mergePair]
  cases A.acceptance <;> rfl

theorem edge_mergePair (hne : keep ≠ remove) {a : σ} :
    (A.mergePair keep remove).Edge p a q ↔
      p ≠ remove ∧ ∃ u, A.Edge p a u ∧ foldLabel keep remove u = q := by
  rw [edge_iff, exists_foldLabel_eq, get?_rows_mergePair]
  by_cases hp : p = remove
  · simp [hp]
  · simp only [if_neg hp, Option.map_eq_some_iff, edge_iff]
    cases A.rows.get? p with
    | none => simp
    | some row => simp [mem_redirect hne, hp]

theorem redirect_cases (hne : keep ≠ remove) {row : Row σ} {symbols : OrdSet σ}
    (h : (redirect keep remove row).get? q = some symbols) :
    (q ≠ remove ∧ row.get? q = some symbols) ∨
      (q = keep ∧ ∃ moved, row.get? remove = some moved ∧ ∀ a ∈ moved, a ∈ symbols) := by
  cases hr : row.get? remove with
  | none =>
    rw [redirect_eq_self hr] at h
    refine Or.inl ⟨fun hq => ?_, h⟩
    rw [hq, hr] at h
    cases h
  | some moved =>
    rw [get?_redirect hne hr] at h
    split at h
    · next hk =>
      cases h
      exact Or.inr ⟨hk, moved, rfl, fun a ha => OrdSet.mem_union.2 (Or.inr ha)⟩
    · split at h
      · cases h
      · next hq => exact Or.inl ⟨hq, h⟩

theorem isEmpty_redirect (hne : keep ≠ remove) {row : Row σ} (h : row.isEmpty = false) :
    (redirect keep remove row).isEmpty = false := by
  cases hr : row.get? remove with
  | none => rwa [redirect_eq_self hr]
  | some moved =>
    have hk := get?_redirect hne hr keep
    rw [if_pos rfl] at hk
    simpa [OrdMap.isEmpty] using List.ne_nil_of_mem (OrdMap.get?_eq_some_iff.1 hk)

theorem rows_mergePair_eq_some {row : Row σ}
    (h : (A.mergePair keep remove).rows.get? p = some row) :
    p ≠ remove ∧ ∃ old, A.rows.get? p = some old ∧ redirect keep remove old = row := by
  rw [get?_rows_mergePair] at h
  split at h
  · cases h
  · next hr => exact ⟨hr, Option.map_eq_some_iff.1 h⟩

theorem hasState_mergePair :
    (A.mergePair keep remove).hasState p = true ↔ p ≠ remove ∧ A.hasState p = true := by
  rw [hasState_iff, state?_mergePair, hasState_iff]
  by_cases hp : p = remove <;> simp [hp]

theorem symbols?_mergePair_cases (hA : A.WellFormed) (h : A.Joinable keep remove)
    {symbols : OrdSet σ} (hs : (A.mergePair keep remove).symbols? p q = some symbols) :
    symbols.isEmpty = false ∧ (A.mergePair keep remove).hasState q = true := by
  obtain ⟨row, hp, hq⟩ := Option.bind_eq_some_iff.1 hs
  obtain ⟨-, old, hold, rfl⟩ := rows_mergePair_eq_some hp
  have stored {q : String} {symbols : OrdSet σ} (hq : old.get? q = some symbols) :
      A.symbols? p q = some symbols := Option.bind_eq_some_iff.2 ⟨old, hold, hq⟩
  rcases redirect_cases h.ne hq with ⟨hqr, hq⟩ | ⟨rfl, moved, hm, hsub⟩
  · exact ⟨hA.symbols_nonempty p q symbols (stored hq),
      hasState_mergePair.2 ⟨hqr, hA.target_declared p old q symbols hold hq⟩⟩
  · refine ⟨?_, hasState_mergePair.2 ⟨h.ne, h.declared⟩⟩
    have hn := hA.symbols_nonempty p remove moved (stored hm)
    obtain ⟨a, ha⟩ := OrdSet.isEmpty_eq_false_iff.1 hn
    exact OrdSet.isEmpty_eq_false_iff.2 ⟨a, hsub a ha⟩

theorem nodup_finalSets_mergePair (hA : A.WellFormed) (h : A.Joinable keep remove) :
    (A.mergePair keep remove).finalSets.Nodup := by
  rw [finalSets_mergePair]
  refine List.pairwise_map.2 (hA.sets_nodup.imp_of_mem fun {s t} hs ht hst he => hst ?_)
  have agree (q : String) (hq : q ≠ remove) : q ∈ s ↔ q ∈ t := by
    have hm : q ∈ s.erase remove ↔ q ∈ t.erase remove := by rw [he]
    simpa [hq] using hm
  ext q
  by_cases hq : q = remove
  · -- A set cannot differ from another at `remove` alone: it would differ at `keep` too.
    rw [hq, ← h.final s hs, ← h.final t ht]
    exact agree keep h.ne
  · exact agree q hq

theorem wellFormed_mergePair (hA : A.WellFormed) (h : A.Joinable keep remove) :
    (A.mergePair keep remove).WellFormed := by
  refine ⟨?_, ?_, ?_, ?_, ?_, ?_, nodup_finalSets_mergePair hA h⟩
  · intro k s hs
    change (A.mergePair keep remove).state? k = some s at hs
    rw [state?_mergePair] at hs
    split at hs
    · cases hs
    · exact hA.label_eq k s hs
  · intro p row hp
    obtain ⟨hr, old, hold, -⟩ := rows_mergePair_eq_some hp
    exact hasState_mergePair.2 ⟨hr, hA.source_declared p old hold⟩
  · intro p row q symbols hp hq
    exact (symbols?_mergePair_cases hA h (Option.bind_eq_some_iff.2 ⟨row, hp, hq⟩)).2
  · intro p row hp
    obtain ⟨-, old, hold, rfl⟩ := rows_mergePair_eq_some hp
    exact isEmpty_redirect h.ne (hA.row_nonempty p old hold)
  · intro p q symbols hs
    exact (symbols?_mergePair_cases hA h hs).1
  · intro s hs q hq
    rw [finalSets_mergePair] at hs
    obtain ⟨t, ht, rfl⟩ := List.mem_map.1 hs
    obtain ⟨hqt, hqr⟩ := OrdSet.mem_erase.1 hq
    exact hasState_mergePair.2 ⟨hqr, hA.finals_declared t ht q hqt⟩

theorem quotient_mergePair (h : A.Joinable keep remove) :
    Quotient A (A.mergePair keep remove) (foldLabel keep remove) := by
  have hne := h.ne
  refine ⟨?_, ?_, ?_, ?_, ?_, ?_, ?_⟩
  · intro p
    unfold foldLabel
    split
    · next hp => rw [hp, h.lt]; rfl
    · rw [Std.ReflOrd.compare_self]; rfl
  · intro p hp
    refine ⟨?_, (foldLabel_eq_self_iff hne).2 (foldLabel_ne hne)⟩
    unfold foldLabel
    split
    · exact h.declared
    · exact hp
  · intro p
    simp only [state?_mergePair, foldLabel_eq_self_iff hne, ite_not]
  · intro p _
    unfold foldLabel
    split
    · next hp => rw [hp, h.initial]
    · rfl
  · intro s hs p _
    unfold foldLabel
    split
    · next hp => rw [hp, h.final s hs]
    · exact Iff.rfl
  · rw [finalSets_mergePair]
    refine List.map_congr_left fun s _ => ?_
    ext p
    simp [foldLabel_eq_self_iff hne]
  · intro p a t _
    rw [edge_mergePair hne]
    have same : ∀ u, A.Edge (foldLabel keep remove p) a u ↔ A.Edge p a u := by
      intro u
      unfold foldLabel
      split
      · next hp => rw [edge_iff, edge_iff, hp, h.row]
      · exact Iff.rfl
    simp only [same, foldLabel_ne hne, ne_eq, not_false_eq_true, true_and]

variable [DecidableEq σ]

theorem exists_quotient_mergeUpTo (n : Nat) (hA : A.WellFormed) :
    (A.mergeUpTo n).WellFormed ∧ ∃ rep, Quotient A (A.mergeUpTo n) rep := by
  induction n generalizing A with
  | zero => exact ⟨hA, id, Quotient.refl A⟩
  | succ n ih =>
    rw [mergeUpTo]
    split
    · next keep remove hp =>
      have hj := joinable_of_joinablePair hA hp
      obtain ⟨hw, rep, hq⟩ := ih (wellFormed_mergePair hA hj)
      exact ⟨hw, _, (quotient_mergePair hj).trans hq⟩
    · exact ⟨hA, id, Quotient.refl A⟩

theorem isGeneralized_mergeUpTo (n : Nat) (A : Automaton σ δ) :
    (A.mergeUpTo n).acceptance.isGeneralized = A.acceptance.isGeneralized := by
  induction n generalizing A with
  | zero => rfl
  | succ n ih =>
    rw [mergeUpTo]
    split
    · rw [ih, mergePair]
      cases A.acceptance <;> rfl
    · rfl

theorem exists_buchi_mergeUpTo (n : Nat) {F : OrdSet String} (hA : A.acceptance = .buchi F) :
    ∃ G, (A.mergeUpTo n).acceptance = .buchi G := by
  have hkind := isGeneralized_mergeUpTo n A
  rw [hA] at hkind
  cases hG : (A.mergeUpTo n).acceptance with
  | buchi G => exact ⟨G, rfl⟩
  | generalized family =>
    rw [hG] at hkind
    cases hkind

theorem wellFormed_merged (hA : A.WellFormed) : A.merged.WellFormed :=
  (exists_quotient_mergeUpTo A.size hA).1

theorem accepts_merged (hA : A.WellFormed) : A.merged.Accepts w ↔ A.Accepts w := by
  obtain ⟨rep, h⟩ := (exists_quotient_mergeUpTo A.size hA).2
  exact h.accepts_iff hA

end Automaton

end TemporalCheck
