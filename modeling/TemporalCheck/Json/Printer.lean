import TemporalCheck.Json.Value

/-!
# Writing JSON

Each item and member stands on a line of its own, two blanks deeper than the line
with the bracket. Only quotes, backslashes and control characters are escaped.
-/

namespace TemporalCheck.JsonValue

def fourDigits (n : Nat) : String :=
  String.ofList ([n / 4096 % 16, n / 256 % 16, n / 16 % 16, n % 16].map Nat.digitChar)

def escapeChar (c : Char) : String :=
  if c = '"' then "\\\""
  else if c = '\\' then "\\\\"
  else if c = '\x08' then "\\b"
  else if c = '\x0c' then "\\f"
  else if c = '\n' then "\\n"
  else if c = '\r' then "\\r"
  else if c = '\t' then "\\t"
  else if c.toNat < 0x20 then "\\u" ++ fourDigits c.toNat
  else c.toString

def escapeUnit : JsonChar → String
  | .scalar c => escapeChar c
  | .surrogate n => "\\u" ++ fourDigits n

def quote (t : JsonText) : String := "\"" ++ String.join (t.map escapeUnit) ++ "\""

def margin (depth : Nat) : String := String.ofList (List.replicate (2 * depth) ' ')

def block (left right : String) (depth : Nat) (lines : List String) : String :=
  if lines.isEmpty then left ++ right
  else
    left ++ "\n" ++ ",\n".intercalate (lines.map (margin (depth + 1) ++ ·)) ++ "\n" ++
      margin depth ++ right

mutual

def pretty (depth : Nat) : JsonValue → String
  | .null => "null"
  | .bool true => "true"
  | .bool false => "false"
  | .number literal => literal
  | .string text => quote text
  | .array items => block "[" "]" depth (prettyItems (depth + 1) items)
  | .object members => block "\x7b" "\x7d" depth (prettyMembers (depth + 1) members)

def prettyItems (depth : Nat) : List JsonValue → List String
  | [] => []
  | v :: vs => pretty depth v :: prettyItems depth vs

def prettyMembers (depth : Nat) : List (JsonText × JsonValue) → List String
  | [] => []
  | (key, v) :: ms => (quote key ++ ": " ++ pretty depth v) :: prettyMembers depth ms

end

def render (v : JsonValue) : String := pretty 0 v

end TemporalCheck.JsonValue
