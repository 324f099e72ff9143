import TemporalCheck.Kripke.Basic
import TemporalCheck.Json.Reader
import TemporalCheck.Json.Printer

/-!
# Kripke structures as JSON documents

A document lists states and, for each source, the destinations of its transitions.
A record is an object with named fields or an array of the fields in order. Fields
with a default may be left out, unknown fields are passed over, and a known field
may not be repeated.
-/

namespace TemporalCheck

structure TransitionRecord where
  source : String
  destinations : List String
deriving DecidableEq, Repr

structure KripkeDocument where
  states : List KripkeState
  transitions : List TransitionRecord
deriving DecidableEq

inductive LoadError
  | json
  | kripke (e : KripkeError)
deriving DecidableEq, Repr

namespace JsonValue

def string? : JsonValue → Option String
  | .string t => t.string?
  | _ => none

def bool? : JsonValue → Option Bool
  | .bool b => some b
  | _ => none

def array? : JsonValue → Option (List JsonValue)
  | .array items => some items
  | _ => none

def strings? (v : JsonValue) : Option (List String) := v.array?.bind (·.mapM string?)

def ofString (s : String) : JsonValue := .string (JsonText.ofString s)

def ofStrings (l : List String) : JsonValue := .array (l.map ofString)

def member (name : String) (v : JsonValue) : JsonText × JsonValue := (JsonText.ofString name, v)

def fields? (names : List String) : JsonValue → Option (List (Option JsonValue))
  | .array items =>
      if items.length ≤ names.length then
        some (items.map some ++ List.replicate (names.length - items.length) none)
      else none
  | .object members => do
      let keyed ← members.mapM fun m => m.1.string?.map fun key => (key, m.2)
      names.mapM fun name =>
        match keyed.filter fun m => m.1 = name with
        | [] => some none
        | [m] => some (some m.2)
        | _ => none
  | _ => none

def optional {α : Type} (read : JsonValue → Option α) (default : α) : Option JsonValue → Option α
  | some v => read v
  | none => some default

end JsonValue

open JsonValue

def KripkeState.ofJson? (v : JsonValue) : Option KripkeState := do
  match ← v.fields? ["name", "initial", "atoms"] with
  | [name, initial, atoms] => do
      let name ← name.bind string?
      let initial ← optional bool? false initial
      let atoms ← optional strings? [] atoms
      return ⟨name, initial, .ofList atoms⟩
  | _ => none

def KripkeState.toJson (s : KripkeState) : JsonValue :=
  .object [member "name" (ofString s.name), member "initial" (.bool s.initial),
    member "atoms" (ofStrings s.atoms.toList)]

def TransitionRecord.ofJson? (v : JsonValue) : Option TransitionRecord := do
  match ← v.fields? ["source", "destinations"] with
  | [source, destinations] => do
      let source ← source.bind string?
      let destinations ← optional strings? [] destinations
      return ⟨source, destinations⟩
  | _ => none

def TransitionRecord.toJson (r : TransitionRecord) : JsonValue :=
  .object [member "source" (ofString r.source), member "destinations" (ofStrings r.destinations)]

namespace KripkeDocument

def ofJson? (v : JsonValue) : Option KripkeDocument := do
  match ← v.fields? ["states", "transitions"] with
  | [states, transitions] => do
      let states ← (← states.bind array?).mapM KripkeState.ofJson?
      let transitions ← (← optional array? [] transitions).mapM TransitionRecord.ofJson?
      return ⟨states, transitions⟩
  | _ => none

def toJson (d : KripkeDocument) : JsonValue :=
  .object [member "states" (.array (d.states.map KripkeState.toJson)),
    member "transitions" (.array (d.transitions.map TransitionRecord.toJson))]

def draft (d : KripkeDocument) : KripkeDraft :=
  let declared := d.states.foldl KripkeDraft.addState .empty
  d.transitions.foldl (fun b r =>
    r.destinations.foldl (fun b target => b.addTransition r.source target) b) declared

def ofKripke (k : Kripke) : KripkeDocument :=
  ⟨k.states, k.next.toList.map fun e => ⟨e.1, e.2.toList⟩⟩

end KripkeDocument

namespace Kripke

def ofJsonText (text : String) : Except LoadError Kripke :=
  match (JsonValue.read text).bind KripkeDocument.ofJson? with
  | none => .error .json
  | some d => d.draft.build.mapError .kripke

def ofFile (content : Option ByteArray) : Except LoadError Kripke :=
  match content.bind String.fromUTF8? with
  | none => .error (.kripke .unreadable)
  | some text => ofJsonText text

def toJsonText (k : Kripke) : String := (KripkeDocument.ofKripke k).toJson.render

end Kripke

end TemporalCheck
