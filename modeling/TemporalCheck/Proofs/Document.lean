import TemporalCheck.Kripke.Document
import TemporalCheck.Proofs.Draft
import TemporalCheck.Proofs.Json

/-!
# Structures and their documents

The record of a state, of a transition or of a whole structure is read back field by field, and the
structure is built again from the records: its states are declared in their order, and its
successors come back from one record for each source.
-/

namespace TemporalCheck

variable {k : Kripke} {d : KripkeDocument}

theorem mapM_eq_some_map {α β : Type} {f : α → Option β} {g : α → β} {l : List α}
    (h : ∀ a ∈ l, f a = some (g a)) : l.mapM f = some (l.map g) := by
  induction l with
  | nil => rfl
  | cons a l ih =>
    obtain ⟨ha, hl⟩ := List.forall_mem_cons.1 h
    rw [List.mapM_cons, ha, ih hl]
    rfl

theorem mapM_map_eq_some {α β : Type} {read : β → Option α} {write : α → β}
    (h : ∀ a, read (write a) = some a) (l : List α) : (l.map write).mapM read = some l := by
  rw [List.mapM_map]
  have hmap := mapM_eq_some_map (g := id) fun a (_ : a ∈ l) => h a
  rwa [List.map_id] at hmap

namespace JsonValue

theorem filter_key_eq_singleton {entries : List (String × JsonValue)} {e : String × JsonValue}
    (hn : (entries.map Prod.fst).Nodup) (he : e ∈ entries) :
    (entries.filter fun m => m.1 = e.1) = [e] := by
  induction entries with
  | nil => cases he
  | cons m entries ih =>
    obtain ⟨hm, hn⟩ := List.nodup_cons.1 hn
    rcases List.mem_cons.1 he with rfl | he
    · have hnone : (entries.filter fun m => m.1 = e.1) = [] := by
        rw [List.filter_eq_nil_iff]
        intro x hx hxe
        exact hm (of_decide_eq_true hxe ▸ List.mem_map_of_mem hx)
      rw [List.filter_cons_of_pos (by simp), hnone]
    · have hne : m.1 ≠ e.1 := fun h => hm (h ▸ List.mem_map_of_mem he)
      rw [List.filter_cons_of_neg (by simpa using hne), ih hn he]

theorem fields?_object (entries : List (String × JsonValue)) (hn : (entries.map Prod.fst).Nodup) :
    fields? (entries.map Prod.fst) (.object (entries.map fun e => member e.1 e.2)) =
      some (entries.map fun e => some e.2) := by
  have hkeyed : (entries.map fun e => member e.1 e.2).mapM
      (fun m => m.1.string?.map fun key => (key, m.2)) = some entries := by
    apply mapM_map_eq_some
    intro e
    simp [member, JsonText.string?_ofString]
  rw [fields?, hkeyed, Option.bind_eq_bind, Option.bind_some, List.mapM_map]
  apply mapM_eq_some_map
  intro e he
  simp only [Function.comp, filter_key_eq_singleton hn he]

theorem string?_ofString (s : String) : (ofString s).string? = some s :=
  JsonText.string?_ofString s

theorem strings?_ofStrings (l : List String) : (ofStrings l).strings? = some l :=
  mapM_map_eq_some string?_ofString l

theorem readsBack_ofStrings (l : List String) : ReadsBack (ofStrings l) := by
  apply readsBack_array
  intro v hv
  obtain ⟨s, -, rfl⟩ := List.mem_map.1 hv
  exact readsBack_string s

theorem memberReadsBack_member {v : JsonValue} (name : String) (h : ReadsBack v) :
    MemberReadsBack (member name v) :=
  ⟨⟨name, rfl⟩, h⟩

end JsonValue

open JsonValue

theorem OrdSet.ofList_toList {α : Type} [Ord α] [Std.TransOrd α] [Std.LawfulEqOrd α]
    (s : OrdSet α) : OrdSet.ofList s.toList = s :=
  OrdSet.ext_mem fun _ => OrdSet.mem_ofList

namespace KripkeState

theorem ofJson?_toJson (s : KripkeState) : ofJson? s.toJson = some s := by
  have hfields : s.toJson.fields? ["name", "initial", "atoms"] =
      some [some (ofString s.name), some (.bool s.initial), some (ofStrings s.atoms.toList)] :=
    fields?_object [("name", ofString s.name), ("initial", .bool s.initial),
      ("atoms", ofStrings s.atoms.toList)] (by simp)
  simp [ofJson?, hfields, string?_ofString, strings?_ofStrings, JsonValue.optional, bool?,
    OrdSet.ofList_toList]

theorem readsBack_toJson (s : KripkeState) : ReadsBack s.toJson := by
  apply readsBack_object
  simp only [List.forall_mem_cons, List.not_mem_nil, false_implies, implies_true, and_true]
  exact ⟨memberReadsBack_member _ (readsBack_string s.name),
    memberReadsBack_member _ (readsBack_bool s.initial),
    memberReadsBack_member _ (readsBack_ofStrings s.atoms.toList)⟩

end KripkeState

namespace TransitionRecord

theorem ofJson?_toJson (r : TransitionRecord) : ofJson? r.toJson = some r := by
  have hfields : r.toJson.fields? ["source", "destinations"] =
      some [some (ofString r.source), some (ofStrings r.destinations)] :=
    fields?_object [("source", ofString r.source),
      ("destinations", ofStrings r.destinations)] (by simp)
  simp [ofJson?, hfields, string?_ofString, strings?_ofStrings, JsonValue.optional]

theorem readsBack_toJson (r : TransitionRecord) : ReadsBack r.toJson := by
  apply readsBack_object
  simp only [List.forall_mem_cons, List.not_mem_nil, false_implies, implies_true, and_true]
  exact ⟨memberReadsBack_member _ (readsBack_string r.source),
    memberReadsBack_member _ (readsBack_ofStrings r.destinations)⟩

end TransitionRecord

namespace KripkeDocument

theorem ofJson?_toJson (d : KripkeDocument) : ofJson? d.toJson = some d := by
  have hfields : d.toJson.fields? ["states", "transitions"] =
      some [some (.array (d.states.map KripkeState.toJson)),
        some (.array (d.transitions.map TransitionRecord.toJson))] :=
    fields?_object [("states", .array (d.states.map KripkeState.toJson)),
      ("transitions", .array (d.transitions.map TransitionRecord.toJson))] (by simp)
  simp only [ofJson?, hfields, array?, JsonValue.optional, Option.bind_eq_bind, Option.bind_some,
    mapM_map_eq_some KripkeState.ofJson?_toJson, mapM_map_eq_some TransitionRecord.ofJson?_toJson,
    Option.pure_def]

theorem readsBack_toJson (d : KripkeDocument) : ReadsBack d.toJson := by
  apply readsBack_object
  simp only [List.forall_mem_cons, List.not_mem_nil, false_implies, implies_true, and_true]
  refine ⟨memberReadsBack_member _ (readsBack_array ?_),
    memberReadsBack_member _ (readsBack_array ?_)⟩
  · simpa using fun s _ => KripkeState.readsBack_toJson s
  · simpa using fun r _ => TransitionRecord.readsBack_toJson r

theorem transitions_foldl_addState (states : List KripkeState) (b : KripkeDraft) :
    (states.foldl KripkeDraft.addState b).transitions = b.transitions := by
  induction states generalizing b with
  | nil => rfl
  | cons s states ih => exact ih (b.addState s)

theorem foldl_addTransition (source : String) (targets : List String) (b : KripkeDraft) :
    targets.foldl (fun b target => b.addTransition source target) b =
      ⟨b.toStateTable, b.transitions ++ targets.map fun target => (source, target)⟩ := by
  induction targets generalizing b with
  | nil => simp
  | cons target targets ih =>
    rw [List.foldl_cons, ih]
    simp [KripkeDraft.addTransition]

theorem draft_eq (d : KripkeDocument) : d.draft =
    ⟨(d.states.foldl KripkeDraft.addState .empty).toStateTable,
      d.transitions.flatMap fun r => r.destinations.map fun target => (r.source, target)⟩ := by
  have key (records : List TransitionRecord) (b : KripkeDraft) : records.foldl (fun b r =>
      r.destinations.foldl (fun b target => b.addTransition r.source target) b) b =
        ⟨b.toStateTable, b.transitions ++ records.flatMap fun r =>
          r.destinations.map fun target => (r.source, target)⟩ := by
    induction records generalizing b with
    | nil => simp
    | cons r records ih =>
      rw [List.foldl_cons, foldl_addTransition, ih]
      simp
  rw [draft, key, transitions_foldl_addState]
  rfl

theorem reachable_draft (d : KripkeDocument) : d.draft.Reachable := by
  have hdeclared : (d.states.foldl KripkeDraft.addState .empty).Reachable :=
    List.foldlRecOn _ _ .empty fun _ hb s _ => .addState s hb
  apply List.foldlRecOn _ _ hdeclared
  intro b hb r _
  exact List.foldlRecOn _ _ hb fun _ hb target _ => .addTransition r.source target hb

theorem states_foldl_addState {b : KripkeDraft} {states : List KripkeState}
    (h : ((b.states ++ states).map KripkeState.name).Nodup) :
    (states.foldl KripkeDraft.addState b).states = b.states ++ states := by
  induction states generalizing b with
  | nil => simp
  | cons s states ih =>
    have hs : s.name ∉ b.states.map KripkeState.name := by
      rw [List.map_append, List.nodup_append] at h
      exact fun hmem => h.2.2 _ hmem s.name (by simp) rfl
    have hstep : (b.addState s).states = b.states ++ [s] := StateTable.states_declare_of_not_mem hs
    rw [List.foldl_cons, ih (by simpa [hstep] using h), hstep]
    simp

theorem mem_records_ofKripke {a b : String} :
    (a, b) ∈ (ofKripke k).transitions.flatMap
      (fun r => r.destinations.map fun target => (r.source, target)) ↔ b ∈ k.nextNames a := by
  simp only [ofKripke, List.mem_flatMap, List.mem_map, Prod.mk.injEq, Kripke.nextNames]
  constructor
  · rintro ⟨_, ⟨e, he, rfl⟩, _, hb, rfl, rfl⟩
    rw [OrdMap.get?_eq_some_iff.2 he]
    exact hb
  · intro hb
    cases hget : k.next.get? a with
    | none =>
      rw [hget] at hb
      exact absurd hb (OrdSet.not_mem_empty b)
    | some targets =>
      rw [hget] at hb
      exact ⟨_, ⟨_, OrdMap.get?_eq_some_iff.1 hget, rfl⟩, b, hb, rfl, rfl⟩

theorem build_draft_ofKripke (hk : k.WellFormed) : (ofKripke k).draft.build = .ok k := by
  have htable : (k.states.foldl KripkeDraft.addState .empty).toStateTable = k.toStateTable :=
    StateTable.ext_states (states_foldl_addState hk.nodup)
  have hnext : KripkeDraft.links ((ofKripke k).transitions.flatMap
      fun r => r.destinations.map fun target => (r.source, target)) = k.next :=
    (KripkeDraft.populated_links _).ext hk.populated fun a b =>
      KripkeDraft.mem_links.trans mem_records_ofKripke
  rw [draft_eq, KripkeDraft.build_eq_ok_iff, hnext]
  refine ⟨fun t ht => ?_, congrArg (Kripke.mk · k.next) htable⟩
  have hends := hk.declared t.1 t.2 (mem_records_ofKripke.1 ht)
  rwa [← htable] at hends

end KripkeDocument

namespace Kripke

theorem built_of_ofJsonText {text : String} (h : ofJsonText text = .ok k) : k.Built := by
  rw [ofJsonText] at h
  split at h
  · cases h
  · next d _ => exact ⟨d.draft, KripkeDocument.reachable_draft d, mapError_eq_ok_iff.1 h⟩

theorem ofJsonText_eq_build {text : String} {v : JsonValue} (hread : JsonValue.read text = some v)
    (hd : KripkeDocument.ofJson? v = some d) :
    ofJsonText text = d.draft.build.mapError .kripke := by
  rw [ofJsonText, hread, Option.bind_some, hd]

/-- A structure that was built or loaded, printed and loaded again, is the same structure, in the
order of its states, their flags and atoms, and in the successors of every name. -/
theorem ofJsonText_toJsonText (hk : k.Built ∨ ∃ text, ofJsonText text = .ok k) :
    ofJsonText k.toJsonText = .ok k := by
  have hbuilt : k.Built := by
    rcases hk with hk | ⟨text, htext⟩
    · exact hk
    · exact built_of_ofJsonText htext
  have hread := JsonValue.read_render (KripkeDocument.readsBack_toJson (.ofKripke k))
  rw [toJsonText, ofJsonText_eq_build hread (KripkeDocument.ofJson?_toJson _),
    KripkeDocument.build_draft_ofKripke hbuilt.wellFormed]
  rfl

/-- The first of the two states is declared twice, the second has no successor, and the names and
atoms have characters that are printed as escapes or beyond one byte. -/
def escapedDraft : KripkeDraft :=
  KripkeDraft.empty
    |>.addState ⟨"say \"no\"\n", false, .ofList ["\x01"]⟩
    |>.addState ⟨"\\é", true, .empty⟩
    |>.addTransition "say \"no\"\n" "\\é"
    |>.addState ⟨"say \"no\"\n", true, .ofList ["\x01", "\t", "日"]⟩

def escaped : Kripke :=
  ⟨(StateTable.empty.declare ⟨"say \"no\"\n", true, .ofList ["\x01", "\t", "日"]⟩).declare
    ⟨"\\é", true, .empty⟩, .ofList [("say \"no\"\n", .ofList ["\\é"])]⟩

theorem built_escaped : escaped.Built :=
  ⟨escapedDraft, .addState _ (.addTransition _ _ (.addState _ (.addState _ .empty))),
    by decide +kernel⟩

def loadedTwice : Kripke :=
  ⟨StateTable.empty.declare ⟨"a", true, .empty⟩, .ofList [("a", .ofList ["a"])]⟩

theorem ofJsonText_toJsonText_escaped :
    escaped.Built ∧ ofJsonText escaped.toJsonText = .ok escaped ∧
      ofJsonText "[[[\"a\"],[\"a\",true]],[[\"a\",[\"a\",\"a\"]]]]" = .ok loadedTwice ∧
      ofJsonText loadedTwice.toJsonText = .ok loadedTwice := by
  have hload : ofJsonText "[[[\"a\"],[\"a\",true]],[[\"a\",[\"a\",\"a\"]]]]" =
      .ok loadedTwice := by
    decide +kernel
  exact ⟨built_escaped, ofJsonText_toJsonText (Or.inl built_escaped), hload,
    ofJsonText_toJsonText (Or.inr ⟨_, hload⟩)⟩

end Kripke

end TemporalCheck
