import TemporalCheck.Letter
import TemporalCheck.OrdMap

/-!
# Kripke structures

The systems to be checked: named states in the order of their declaration, each
with the propositions that hold in it, and the names of its successors. A name is
looked up in an index that gives its place in the order. A draft collects
declarations and transitions in any order; the names in transitions are looked up
at the end.
-/

namespace TemporalCheck

structure KripkeState where
  name : String
  initial : Bool
  atoms : Letter
deriving DecidableEq

/-- The states in the order of their declaration, and the place of each name among them. -/
structure StateTable where
  states : List KripkeState
  index : OrdMap String Nat
  indexed : ∀ name, index.get? name = states.findIdx? fun s => s.name = name
deriving DecidableEq

namespace StateTable

variable {t : StateTable} {s : KripkeState} {i : Nat}

def empty : StateTable := ⟨[], .empty, fun _ => rfl⟩

def state? (t : StateTable) (name : String) : Option KripkeState :=
  (t.index.get? name).bind fun i => t.states[i]?

theorem map_name_set (h : t.index.get? s.name = some i) :
    (t.states.set i s).map KripkeState.name = t.states.map KripkeState.name := by
  rw [t.indexed] at h
  obtain ⟨hi, hname, -⟩ := List.findIdx?_eq_some_iff_getElem.1 h
  have hi : i < (t.states.map KripkeState.name).length := by simpa using hi
  have hget : (t.states.map KripkeState.name)[i] = s.name := by simpa using hname
  rw [List.map_set, ← hget, List.set_getElem_self]

theorem indexed_set (h : t.index.get? s.name = some i) (name : String) :
    t.index.get? name = (t.states.set i s).findIdx? fun s => s.name = name := by
  have places (l : List KripkeState) : (l.findIdx? fun s => s.name = name) =
      (l.map KripkeState.name).findIdx? fun n => n = name := by
    rw [List.findIdx?_map]
    rfl
  rw [t.indexed, places, places, map_name_set h]

theorem indexed_append (h : t.index.get? s.name = none) (name : String) :
    (t.index.insert s.name t.states.length).get? name =
      (t.states ++ [s]).findIdx? fun s => s.name = name := by
  rw [OrdMap.get?_insert, List.findIdx?_append, List.findIdx?_singleton, ← t.indexed]
  by_cases hname : name = s.name
  · simp [hname, h]
  · simp [hname, Ne.symm hname]

def declare (t : StateTable) (s : KripkeState) : StateTable :=
  match h : t.index.get? s.name with
  | some i => ⟨t.states.set i s, t.index, indexed_set h⟩
  | none => ⟨t.states ++ [s], t.index.insert s.name t.states.length, indexed_append h⟩

end StateTable

structure Kripke extends StateTable where
  next : OrdMap String (OrdSet String)
deriving DecidableEq

inductive KripkeError
  | unknownState (label : String)
  | unreadable
deriving DecidableEq, Repr

def KripkeError.message : KripkeError → String
  | .unknownState label => "Kripke state '" ++ label ++ "' is not declared"
  | .unreadable => "Failed to read Kripke structure"

namespace Kripke

def size (k : Kripke) : Nat := k.states.length

def isEmpty (k : Kripke) : Bool := k.states.isEmpty

def initialStates (k : Kripke) : List KripkeState := k.states.filter KripkeState.initial

def nextNames (k : Kripke) (name : String) : OrdSet String := (k.next.get? name).getD .empty

def successors (k : Kripke) (name : String) : List KripkeState :=
  (k.nextNames name).toList.filterMap k.state?

def hasTransition (k : Kripke) (source target : String) : Bool :=
  (k.nextNames source).contains target

structure Path (k : Kripke) (p : Nat → KripkeState) : Prop where
  start : p 0 ∈ k.states ∧ (p 0).initial = true
  step : ∀ i, p (i + 1) ∈ k.successors (p i).name

def trace (p : Nat → KripkeState) : Word Letter := fun i => (p i).atoms

end Kripke

structure KripkeDraft extends StateTable where
  transitions : List (String × String)
deriving DecidableEq

namespace KripkeDraft

def empty : KripkeDraft := ⟨.empty, []⟩

def addState (d : KripkeDraft) (s : KripkeState) : KripkeDraft := ⟨d.declare s, d.transitions⟩

def addTransition (d : KripkeDraft) (source target : String) : KripkeDraft :=
  ⟨d.toStateTable, d.transitions ++ [(source, target)]⟩

def requireState (d : KripkeDraft) (label : String) : Except KripkeError Unit :=
  if d.index.contains label then .ok () else .error (.unknownState label)

def link (next : OrdMap String (OrdSet String)) (source target : String) :
    OrdMap String (OrdSet String) :=
  next.insert source (((next.get? source).getD .empty).insert target)

/-- The first undeclared name is reported, the source of a transition before its target. -/
def build (d : KripkeDraft) : Except KripkeError Kripke := do
  let next ← d.transitions.foldlM (fun next t => do
    d.requireState t.1
    d.requireState t.2
    return link next t.1 t.2) .empty
  return ⟨d.toStateTable, next⟩

end KripkeDraft

end TemporalCheck
