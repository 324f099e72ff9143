import TemporalCheck.Proofs.Draft

/-!
# What a sequence of declarations and transitions leads to

A draft keeps the place of a name at its first declaration and the flag and atoms of its last one,
and collects the transitions. The structure that is built from it can be read off the sequence of
calls, and so can the first name that is missing when it is not built. Where a call stands among
the others matters for the order of states and for redeclarations only.
-/

namespace TemporalCheck

inductive DraftCall
  | state (s : KripkeState)
  | transition (source target : String)
deriving DecidableEq

namespace DraftCall

def state? : DraftCall → Option KripkeState
  | state s => some s
  | transition _ _ => none

def ends : DraftCall → List String
  | state _ => []
  | transition source target => [source, target]

def declared (calls : List DraftCall) : List KripkeState := calls.filterMap state?

def names (calls : List DraftCall) : List String := (declared calls).map KripkeState.name

def last? (calls : List DraftCall) (name : String) : Option KripkeState :=
  (declared calls).reverse.find? fun s => s.name = name

end DraftCall

open DraftCall

namespace KripkeDraft

variable {d : KripkeDraft} {k : Kripke} {s t : KripkeState} {l : List KripkeState}
  {calls : List DraftCall} {a b name : String}

def perform (d : KripkeDraft) : DraftCall → KripkeDraft
  | .state s => d.addState s
  | .transition source target => d.addTransition source target

def ofCalls (calls : List DraftCall) : KripkeDraft := calls.foldl perform .empty

theorem eraseDups_concat (names : List String) (name : String) : (names ++ [name]).eraseDups =
    if name ∈ names then names.eraseDups else names.eraseDups ++ [name] := by
  rw [List.eraseDups_append]
  split
  · next h => simp [List.removeAll, h]
  · next h => simp [List.removeAll, h, List.eraseDups_cons]

structure Records (d : KripkeDraft) (calls : List DraftCall) : Prop where
  reachable : d.Reachable
  names : d.states.map KripkeState.name = (DraftCall.names calls).eraseDups
  last : ∀ s ∈ d.states, last? calls s.name = some s
  transitions : ∀ a b, (a, b) ∈ d.transitions ↔ .transition a b ∈ calls
  ends : d.transitions.flatMap (fun t => [t.1, t.2]) = calls.flatMap DraftCall.ends

theorem Records.perform (h : d.Records calls) (call : DraftCall) :
    (d.perform call).Records (calls ++ [call]) := by
  cases call with
  | state s =>
    have hdeclared : declared (calls ++ [.state s]) = declared calls ++ [s] := by
      simp [declared, state?]
    refine ⟨.addState s h.reachable, ?_, ?_, ?_, ?_⟩
    · have hmem : s.name ∈ d.states.map KripkeState.name ↔
          s.name ∈ DraftCall.names calls := by rw [h.names, List.mem_eraseDups]
      rw [DraftCall.names, hdeclared, List.map_append, List.map_singleton, ← DraftCall.names,
        eraseDups_concat, ← h.names]
      have hstep := d.map_name_declare s
      simp only [hmem] at hstep
      exact hstep
    · intro t ht
      rw [last?, hdeclared, List.reverse_append, List.reverse_singleton, List.singleton_append]
      rcases (StateTable.mem_states_declare_iff h.reachable.nodup).1 ht with rfl | ⟨ht, hne⟩
      · exact List.find?_cons_of_pos (by simp)
      · rw [List.find?_cons_of_neg (by simpa using Ne.symm hne)]
        exact h.last t ht
    · intro a b
      simp [KripkeDraft.perform, addState, h.transitions]
    · simp [KripkeDraft.perform, addState, h.ends, DraftCall.ends]
  | transition source target =>
    have hdeclared : declared (calls ++ [.transition source target]) = declared calls := by
      simp [declared, state?]
    refine ⟨.addTransition source target h.reachable, ?_, ?_, ?_, ?_⟩
    · rw [DraftCall.names, hdeclared]
      exact h.names
    · intro t ht
      rw [last?, hdeclared]
      exact h.last t ht
    · intro a b
      simp [KripkeDraft.perform, addTransition, h.transitions]
    · simp [KripkeDraft.perform, addTransition, h.ends, DraftCall.ends]

theorem Records.foldl (h : d.Records calls) (more : List DraftCall) :
    (more.foldl KripkeDraft.perform d).Records (calls ++ more) := by
  induction more generalizing d calls with
  | nil => simpa using h
  | cons call more ih => simpa using ih (h.perform call)

theorem records_ofCalls (calls : List DraftCall) : (ofCalls calls).Records calls := by
  have hempty : empty.Records [] :=
    ⟨.empty, rfl, by simp [empty, StateTable.empty], by simp [empty], rfl⟩
  exact hempty.foldl calls

theorem Records.declares_iff (h : d.Records calls) :
    d.Declares name ↔ name ∈ DraftCall.names calls := by
  rw [← List.mem_eraseDups, ← h.names, List.mem_map, Declares]

instance (d : KripkeDraft) (name : String) : Decidable (d.Declares name) :=
  inferInstanceAs (Decidable (∃ s ∈ d.states, s.name = name))

theorem requireState_eq : d.requireState name =
    if d.Declares name then .ok () else .error (.unknownState name) := by
  by_cases h : d.Declares name
  · rw [if_pos h, requireState_eq_ok_iff.2 h]
  · rw [if_neg h, requireState, if_neg]
    rwa [StateTable.contains_index_iff]

theorem foldlM_link_eq_error_iff {transitions : List (String × String)}
    {m : OrdMap String (OrdSet String)} {e : KripkeError} :
    transitions.foldlM (fun next t => do
      d.requireState t.1
      d.requireState t.2
      return link next t.1 t.2) m = .error e ↔
    ∃ name, e = .unknownState name ∧ (transitions.flatMap fun t => [t.1, t.2]).find?
      (fun name => ¬ d.Declares name) = some name := by
  induction transitions generalizing m with
  | nil => simp [pure, Except.pure]
  | cons t transitions ih =>
    rw [List.foldlM_cons, requireState_eq, requireState_eq, List.flatMap_cons]
    by_cases hsource : d.Declares t.1
    · by_cases htarget : d.Declares t.2
      · simpa [hsource, htarget, bind, Except.bind, pure, Except.pure] using ih
      · simpa [hsource, htarget, bind, Except.bind] using eq_comm
    · simpa [hsource, bind, Except.bind] using eq_comm

theorem build_eq_error_iff {e : KripkeError} : d.build = .error e ↔
    ∃ name, e = .unknownState name ∧ (d.transitions.flatMap fun t => [t.1, t.2]).find?
      (fun name => ¬ d.Declares name) = some name := by
  rw [build, bind_eq_error_iff, foldlM_link_eq_error_iff]
  apply or_iff_left
  rintro ⟨_, -, h⟩
  cases h

theorem Records.isOk_build_iff (h : d.Records calls) : (∃ k, d.build = .ok k) ↔
    ∀ name ∈ calls.flatMap DraftCall.ends, name ∈ DraftCall.names calls := by
  simp only [build_eq_ok_iff, ← h.ends, ← h.declares_iff, List.mem_flatMap, List.mem_cons,
    List.not_mem_nil, or_false]
  constructor
  · rintro ⟨k, hdeclared, -⟩ name ⟨t, ht, rfl | rfl⟩
    · exact (hdeclared t ht).1
    · exact (hdeclared t ht).2
  · intro hdeclared
    exact ⟨_, fun t ht => ⟨hdeclared t.1 ⟨t, ht, Or.inl rfl⟩, hdeclared t.2 ⟨t, ht, Or.inr rfl⟩⟩,
      rfl⟩

theorem Records.build_eq_error_iff (h : d.Records calls) {e : KripkeError} : d.build = .error e ↔
    ∃ name, e = .unknownState name ∧ (calls.flatMap DraftCall.ends).find?
      (fun name => name ∉ DraftCall.names calls) = some name := by
  simp only [KripkeDraft.build_eq_error_iff, h.ends, h.declares_iff]

end KripkeDraft

namespace Kripke

variable {k : Kripke} {s : KripkeState} {calls : List DraftCall} {a name : String}

namespace WellFormed

theorem state?_eq_some_iff (hk : k.WellFormed) :
    k.state? name = some s ↔ s ∈ k.states ∧ s.name = name := by
  rw [k.state?_eq]
  constructor
  · intro h
    exact ⟨List.mem_of_find?_eq_some h, by simpa using List.find?_some h⟩
  · rintro ⟨hs, rfl⟩
    obtain ⟨t, ht⟩ : ∃ t, (k.states.find? fun t => t.name = s.name) = some t :=
      Option.isSome_iff_exists.1 (List.find?_isSome.2 ⟨s, hs, by simp⟩)
    have hname : t.name = s.name := by simpa using List.find?_some ht
    rw [ht, List.inj_on_of_nodup_map hk.nodup (List.mem_of_find?_eq_some ht) hs hname]

theorem map_name_successors (hk : k.WellFormed) (a : String) :
    (k.successors a).map KripkeState.name = (k.nextNames a).toList := by
  have hfound : ∀ b ∈ (k.nextNames a).toList, (k.state? b).map KripkeState.name = some b := by
    intro b hb
    obtain ⟨-, s, hs, rfl⟩ := hk.declared a b hb
    rw [hk.state?_eq_some_iff.2 ⟨hs, rfl⟩, Option.map_some]
  rw [successors, List.map_filterMap, List.filterMap_congr hfound, List.filterMap_some]

theorem mem_successors_iff (hk : k.WellFormed) :
    s ∈ k.successors a ↔ s ∈ k.states ∧ k.hasTransition a s.name = true := by
  rw [hasTransition, OrdSet.contains_iff, OrdSet.mem_def, ← hk.map_name_successors]
  constructor
  · intro hs
    obtain ⟨b, -, hb⟩ := List.mem_filterMap.1 hs
    exact ⟨(hk.state?_eq_some_iff.1 hb).1, List.mem_map_of_mem hs⟩
  · rintro ⟨hs, hname⟩
    obtain ⟨t, ht, he⟩ := List.mem_map.1 hname
    obtain ⟨b, -, hb⟩ := List.mem_filterMap.1 ht
    rwa [← List.inj_on_of_nodup_map hk.nodup (hk.state?_eq_some_iff.1 hb).1 hs he]

end WellFormed

/-- What the structure has of the calls: the names in the order in which they were declared first,
each with its last declaration, and the transitions. Look-ups and successors agree with them. -/
structure Reflects (k : Kripke) (calls : List DraftCall) : Prop where
  names : k.states.map KripkeState.name = (DraftCall.names calls).eraseDups
  last : ∀ s ∈ k.states, last? calls s.name = some s
  index : ∀ name, k.index.get? name = k.states.findIdx? fun s => s.name = name
  state?_iff : ∀ name s, k.state? name = some s ↔ s ∈ k.states ∧ s.name = name
  hasTransition_iff : ∀ a b, k.hasTransition a b = true ↔ .transition a b ∈ calls
  mem_successors : ∀ a s, s ∈ k.successors a ↔ s ∈ k.states ∧ k.hasTransition a s.name = true
  ascending : ∀ a, Ascending ((k.successors a).map KripkeState.name)

theorem reflects_of_build {d : KripkeDraft} (h : d.Records calls) (hk : d.build = .ok k) :
    k.Reflects calls := by
  have hwell := Built.wellFormed ⟨d, h.reachable, hk⟩
  obtain ⟨-, rfl⟩ := KripkeDraft.build_eq_ok_iff.1 hk
  refine ⟨h.names, h.last, d.indexed, fun _ _ => hwell.state?_eq_some_iff, fun a b => ?_,
    fun _ _ => hwell.mem_successors_iff, fun a => ?_⟩
  · rw [← h.transitions, ← KripkeDraft.mem_links]
    exact OrdSet.contains_iff
  · rw [hwell.map_name_successors]
    exact OrdSet.ascending _

end Kripke

/-- A sequence of calls is built exactly when every end of a transition is declared somewhere in
it, before or after. What is built reflects the calls. Otherwise the first name that is missing is
reported, in the order of the calls and the source of a transition before its target. -/
theorem build_ofCalls_reflects (calls : List DraftCall) :
    ((∃ k, (KripkeDraft.ofCalls calls).build = .ok k) ↔
      ∀ name ∈ calls.flatMap DraftCall.ends, name ∈ DraftCall.names calls) ∧
    (∀ k, (KripkeDraft.ofCalls calls).build = .ok k → k.Reflects calls) ∧
    ∀ e, (KripkeDraft.ofCalls calls).build = .error e ↔ ∃ name, e = .unknownState name ∧
      (calls.flatMap DraftCall.ends).find? (fun name => name ∉ DraftCall.names calls) =
        some name := by
  have h := KripkeDraft.records_ofCalls calls
  exact ⟨h.isOk_build_iff, fun k => Kripke.reflects_of_build h, fun e => h.build_eq_error_iff⟩

def overwriting : List DraftCall :=
  [.transition "b" "a", .state ⟨"b", false, .empty⟩, .state ⟨"a", true, .singleton "p"⟩,
    .transition "b" "b", .state ⟨"b", true, .singleton "q"⟩]

theorem build_ofCalls_overwriting : ∃ k, (KripkeDraft.ofCalls overwriting).build = .ok k ∧
    k.states.map KripkeState.name = ["b", "a"] ∧
    (∀ s ∈ k.states, s.name = "b" → s = ⟨"b", true, .singleton "q"⟩) ∧
    k.hasTransition "b" "a" = true ∧ k.hasTransition "a" "b" = false ∧
    (KripkeDraft.ofCalls (.transition "a" "d" :: .transition "c" "a" :: overwriting)).build =
      .error (.unknownState "d") := by
  obtain ⟨hok, hreflects, -⟩ := build_ofCalls_reflects overwriting
  obtain ⟨k, hk⟩ := hok.2 (by decide)
  have hr := hreflects k hk
  refine ⟨k, hk, hr.names, fun s hs hname => ?_, (hr.hasTransition_iff "b" "a").2 (by decide), ?_,
    ((build_ofCalls_reflects _).2.2 _).2 ⟨"d", rfl, by decide⟩⟩
  · have hlast := hr.last s hs
    rw [hname] at hlast
    exact (Option.some.inj hlast).symm
  · rw [← Bool.not_eq_true, hr.hasTransition_iff]
    decide

end TemporalCheck
