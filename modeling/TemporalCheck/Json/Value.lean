/-!
# JSON values

The text of a JSON string may hold an escape for half of a surrogate pair. Such a
half is kept as what it is; only text without one is a proper string.
-/

namespace TemporalCheck

inductive JsonChar
  | scalar (c : Char)
  | surrogate (unit : Nat)
deriving DecidableEq, Repr

abbrev JsonText := List JsonChar

namespace JsonText

def ofString (s : String) : JsonText := s.toList.map .scalar

def chars? : JsonText → Option (List Char)
  | [] => some []
  | .scalar c :: rest => (chars? rest).map (c :: ·)
  | .surrogate _ :: _ => none

def string? (t : JsonText) : Option String := (chars? t).map String.ofList

theorem string?_ofString (s : String) : string? (ofString s) = some s := by
  have key (l : List Char) : chars? (l.map .scalar) = some l := by
    induction l with
    | nil => rfl
    | cons c l ih => simp [chars?, ih]
  simp [string?, ofString, key]

end JsonText

/-- Numbers keep their text. Objects keep the order and repetition of their members. -/
inductive JsonValue
  | null
  | bool (value : Bool)
  | number (literal : String)
  | string (text : JsonText)
  | array (items : List JsonValue)
  | object (members : List (JsonText × JsonValue))

end TemporalCheck
