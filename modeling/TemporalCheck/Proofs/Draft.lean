import Mathlib.Data.List.Nodup
import TemporalCheck.Kripke.Basic
import TemporalCheck.Proofs.Fold

/-!
# Drafts and what is built from them

A draft keeps one state for each name, however often the name is declared. It is built exactly when
the ends of its transitions are declared, and the structure then leads from a name to the targets
of its transitions. A name without transition has no entry, so the transitions determine the table
of successors.
-/

namespace TemporalCheck

inductive KripkeDraft.Reachable : KripkeDraft → Prop
  | empty : Reachable .empty
  | addState {d : KripkeDraft} (s : KripkeState) : Reachable d → Reachable (d.addState s)
  | addTransition {d : KripkeDraft} (source target : String) :
      Reachable d → Reachable (d.addTransition source target)

/-- The structures that a sequence of declarations and transitions leads to. -/
def Kripke.Built (k : Kripke) : Prop := ∃ d : KripkeDraft, d.Reachable ∧ d.build = .ok k

namespace StateTable

variable {t u : StateTable} {s x : KripkeState} {name : String}

theorem ext_states (h : t.states = u.states) : t = u := by
  obtain ⟨states, index, hindex⟩ := t
  obtain ⟨states', index', hindex'⟩ := u
  cases h
  obtain rfl : index = index' := OrdMap.ext_get? fun name => (hindex name).trans (hindex' name).symm
  rfl

theorem state?_eq (t : StateTable) (name : String) :
    t.state? name = t.states.find? fun s => s.name = name := by
  rw [state?, t.indexed, List.find?_eq_bind_findIdx?_getElem?]

theorem contains_index_iff :
    t.index.contains name = true ↔ ∃ s ∈ t.states, s.name = name := by
  rw [OrdMap.contains, t.indexed, List.findIdx?_isSome, List.any_eq_true]
  simp only [decide_eq_true_eq]

/-- A declaration replaces the state at the place of its name, or goes behind the others. -/
theorem declare_cases (t : StateTable) (s : KripkeState) :
    (∃ front u back, t.states = front ++ u :: back ∧ u.name = s.name ∧
      (t.declare s).states = front ++ s :: back) ∨
    (s.name ∉ t.states.map KripkeState.name ∧ (t.declare s).states = t.states ++ [s]) := by
  unfold declare
  split
  · next i h =>
    rw [t.indexed] at h
    obtain ⟨hi, hname, -⟩ := List.findIdx?_eq_some_iff_getElem.1 h
    refine Or.inl ⟨t.states.take i, t.states[i], t.states.drop (i + 1), by simp,
      by simpa using hname, ?_⟩
    exact List.set_eq_take_append_cons_drop.trans (if_pos hi)
  · next h =>
    rw [t.indexed, List.findIdx?_eq_none_iff] at h
    exact Or.inr ⟨by simpa using h, rfl⟩

theorem map_name_declare (t : StateTable) (s : KripkeState) :
    (t.declare s).states.map KripkeState.name =
      if s.name ∈ t.states.map KripkeState.name then t.states.map KripkeState.name
      else t.states.map KripkeState.name ++ [s.name] := by
  rcases t.declare_cases s with ⟨front, u, back, ht, hu, hd⟩ | ⟨hs, hd⟩
  · simp [hd, ht, hu]
  · rw [hd, if_neg hs, List.map_append, List.map_singleton]

theorem nodup_map_name_declare (h : (t.states.map KripkeState.name).Nodup) :
    ((t.declare s).states.map KripkeState.name).Nodup := by
  rw [map_name_declare]
  split
  · exact h
  · next hs => exact List.nodup_append.2 ⟨h, List.nodup_singleton _, by simpa using hs⟩

theorem states_declare_of_not_mem (h : s.name ∉ t.states.map KripkeState.name) :
    (t.declare s).states = t.states ++ [s] := by
  rcases t.declare_cases s with ⟨front, u, back, ht, hu, -⟩ | ⟨-, hd⟩
  · exact absurd (by simp [ht, hu]) h
  · exact hd

theorem mem_states_declare_iff (h : (t.states.map KripkeState.name).Nodup) :
    x ∈ (t.declare s).states ↔ x = s ∨ x ∈ t.states ∧ x.name ≠ s.name := by
  rcases t.declare_cases s with ⟨front, u, back, ht, hu, hd⟩ | ⟨hs, hd⟩
  · rw [ht, List.map_append, List.map_cons, List.nodup_middle, List.nodup_cons] at h
    have apart (hx : x ∈ front ++ back) : x.name ≠ u.name := fun he =>
      h.1 (by rw [← he, ← List.map_append]; exact List.mem_map_of_mem hx)
    rw [hd, ht, ← hu]
    grind
  · have apart (hx : x ∈ t.states) : x.name ≠ s.name := fun he =>
      hs (he ▸ List.mem_map_of_mem hx)
    rw [hd]
    grind

end StateTable

namespace KripkeDraft

variable {d : KripkeDraft} {k : Kripke} {source target a b : String}
  {transitions : List (String × String)}

theorem Reachable.nodup {d : KripkeDraft} (h : Reachable d) :
    (d.states.map KripkeState.name).Nodup := by
  induction h with
  | empty => exact List.nodup_nil
  | addState s _ ih => exact StateTable.nodup_map_name_declare ih
  | addTransition source target _ ih => exact ih

def Populated (next : OrdMap String (OrdSet String)) : Prop :=
  ∀ source targets, next.get? source = some targets → ∃ target, target ∈ targets

theorem mem_link {next : OrdMap String (OrdSet String)} :
    b ∈ ((link next source target).get? a).getD .empty ↔
      b ∈ (next.get? a).getD .empty ∨ a = source ∧ b = target := by
  rw [link, OrdMap.get?_insert]
  by_cases ha : a = source
  · subst ha
    simp [or_comm]
  · simp [ha]

theorem Populated.link {next : OrdMap String (OrdSet String)} (h : Populated next) :
    Populated (KripkeDraft.link next source target) := by
  intro a targets ha
  rw [KripkeDraft.link, OrdMap.get?_insert] at ha
  split at ha
  · cases ha
    exact ⟨target, OrdSet.mem_insert.2 (Or.inl rfl)⟩
  · exact h a targets ha

theorem Populated.ext {m n : OrdMap String (OrdSet String)} (hm : Populated m) (hn : Populated n)
    (h : ∀ a b, b ∈ (m.get? a).getD .empty ↔ b ∈ (n.get? a).getD .empty) : m = n := by
  refine OrdMap.ext_get? fun a => option_ext_mem (R := fun targets b => b ∈ targets)
    (fun _ _ => OrdSet.ext_mem) (hm a) (hn a) fun b => ?_
  have view (o : Option (OrdSet String)) :
      (∃ targets, o = some targets ∧ b ∈ targets) ↔ b ∈ o.getD .empty := by
    cases o <;> simp
  rw [view, view]
  exact h a b

def links (transitions : List (String × String)) : OrdMap String (OrdSet String) :=
  transitions.foldl (fun next t => link next t.1 t.2) .empty

theorem populated_links (transitions : List (String × String)) : Populated (links transitions) := by
  have hempty : Populated .empty := fun _ _ h => nomatch h
  exact List.foldlRecOn _ _ hempty fun _ h _ _ => h.link

theorem mem_links : b ∈ ((links transitions).get? a).getD .empty ↔ (a, b) ∈ transitions := by
  have key (next : OrdMap String (OrdSet String)) :
      b ∈ ((transitions.foldl (fun next t => link next t.1 t.2) next).get? a).getD .empty ↔
        b ∈ (next.get? a).getD .empty ∨ (a, b) ∈ transitions := by
    induction transitions generalizing next with
    | nil => simp
    | cons t transitions ih =>
      rw [List.foldl_cons, ih, mem_link, or_assoc, List.mem_cons, Prod.ext_iff]
  exact (key .empty).trans (or_iff_right (OrdSet.not_mem_empty b))

def Declares (d : KripkeDraft) (name : String) : Prop := ∃ s ∈ d.states, s.name = name

theorem requireState_eq_ok_iff : d.requireState a = .ok () ↔ d.Declares a := by
  rw [requireState, Declares, ← StateTable.contains_index_iff]
  split
  · next h => simp [h]
  · next h => simp [h]

theorem checkedLink_eq_ok_iff {m n : OrdMap String (OrdSet String)} {t : String × String} :
    (do
      d.requireState t.1
      d.requireState t.2
      return link m t.1 t.2) = .ok n ↔ (d.Declares t.1 ∧ d.Declares t.2) ∧ link m t.1 t.2 = n := by
  rw [← requireState_eq_ok_iff, ← requireState_eq_ok_iff]
  cases d.requireState t.1 with
  | error e => simp [bind, Except.bind]
  | ok _ =>
    cases d.requireState t.2 with
    | error e => simp [bind, Except.bind]
    | ok _ => simp [bind, Except.bind, pure, Except.pure]

theorem foldlM_link_eq_ok_iff {m n : OrdMap String (OrdSet String)} :
    transitions.foldlM (fun next t => do
      d.requireState t.1
      d.requireState t.2
      return link next t.1 t.2) m = .ok n ↔
    (∀ t ∈ transitions, d.Declares t.1 ∧ d.Declares t.2) ∧
      transitions.foldl (fun next t => link next t.1 t.2) m = n := by
  induction transitions generalizing m with
  | nil => simp [pure, Except.pure]
  | cons t transitions ih =>
    simp only [foldlM_cons_eq_ok_iff, checkedLink_eq_ok_iff, ih, List.forall_mem_cons,
      List.foldl_cons]
    constructor
    · rintro ⟨_, ⟨ht, rfl⟩, hrest, hn⟩
      exact ⟨⟨ht, hrest⟩, hn⟩
    · rintro ⟨⟨ht, hrest⟩, hn⟩
      exact ⟨_, ⟨ht, rfl⟩, hrest, hn⟩

theorem build_eq_ok_iff : d.build = .ok k ↔
    (∀ t ∈ d.transitions, d.Declares t.1 ∧ d.Declares t.2) ∧
      ⟨d.toStateTable, links d.transitions⟩ = k := by
  rw [build, bind_eq_ok_iff]
  simp only [foldlM_link_eq_ok_iff]
  constructor
  · rintro ⟨_, ⟨hdeclared, rfl⟩, hk⟩
    exact ⟨hdeclared, Except.ok.inj hk⟩
  · rintro ⟨hdeclared, rfl⟩
    exact ⟨_, ⟨hdeclared, rfl⟩, rfl⟩

end KripkeDraft

namespace Kripke

variable {k : Kripke}

structure WellFormed (k : Kripke) : Prop where
  nodup : (k.states.map KripkeState.name).Nodup
  populated : KripkeDraft.Populated k.next
  declared : ∀ a b, b ∈ k.nextNames a →
    (∃ s ∈ k.states, s.name = a) ∧ ∃ s ∈ k.states, s.name = b

theorem Built.wellFormed (h : k.Built) : k.WellFormed := by
  obtain ⟨d, hd, hk⟩ := h
  obtain ⟨hdeclared, rfl⟩ := KripkeDraft.build_eq_ok_iff.1 hk
  refine ⟨hd.nodup, KripkeDraft.populated_links d.transitions, fun a b hb => ?_⟩
  exact hdeclared (a, b) (KripkeDraft.mem_links.1 hb)

theorem Built.nodup (h : k.Built) : (k.states.map KripkeState.name).Nodup := h.wellFormed.nodup

end Kripke

end TemporalCheck
