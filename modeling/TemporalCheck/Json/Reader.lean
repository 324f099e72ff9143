import TemporalCheck.Json.Value

/-!
# Reading JSON

A strict reader: no comments, no trailing commas, numbers of the exact grammar, no
control characters in strings, and nothing but blanks around the value.
-/

namespace TemporalCheck.JsonValue

def isBlank (c : Char) : Bool := c == ' ' || c == '\t' || c == '\n' || c == '\r'

def skipBlanks (cs : List Char) : List Char := cs.dropWhile isBlank

def isDigit (c : Char) : Bool := decide ('0' ≤ c) && decide (c ≤ '9')

def hexDigit? (c : Char) : Option Nat :=
  if isDigit c then some (c.toNat - '0'.toNat)
  else if 'a' ≤ c ∧ c ≤ 'f' then some (c.toNat - 'a'.toNat + 10)
  else if 'A' ≤ c ∧ c ≤ 'F' then some (c.toNat - 'A'.toNat + 10)
  else none

def codeUnit? (a b c d : Char) : Option Nat := do
  let a ← hexDigit? a
  let b ← hexDigit? b
  let c ← hexDigit? c
  let d ← hexDigit? d
  return ((a * 16 + b) * 16 + c) * 16 + d

def ofUnit (n : Nat) : JsonChar :=
  if 0xd800 ≤ n ∧ n < 0xe000 then .surrogate n else .scalar (Char.ofNat n)

def shortEscape? : Char → Option Char
  | '"' => some '"'
  | '\\' => some '\\'
  | '/' => some '/'
  | 'b' => some '\x08'
  | 'f' => some '\x0c'
  | 'n' => some '\n'
  | 'r' => some '\r'
  | 't' => some '\t'
  | _ => none

def readChars : List Char → Option (JsonText × List Char)
  | [] => none
  | '"' :: rest => some ([], rest)
  | '\\' :: 'u' :: a :: b :: c :: d :: rest => do
      let n ← codeUnit? a b c d
      let (t, rest) ← readChars rest
      return (ofUnit n :: t, rest)
  | '\\' :: e :: rest => do
      let c ← shortEscape? e
      let (t, rest) ← readChars rest
      return (.scalar c :: t, rest)
  | c :: rest =>
      if c.toNat < 0x20 then none
      else do
        let (t, rest) ← readChars rest
        return (.scalar c :: t, rest)

def codePoint (high low : Nat) : Nat := 0x10000 + (high - 0xd800) * 0x400 + (low - 0xdc00)

def joinSurrogates : JsonText → JsonText
  | .surrogate high :: .surrogate low :: rest =>
      if high < 0xdc00 ∧ 0xdc00 ≤ low then
        .scalar (Char.ofNat (codePoint high low)) :: joinSurrogates rest
      else .surrogate high :: joinSurrogates (.surrogate low :: rest)
  | c :: rest => c :: joinSurrogates rest
  | [] => []

def readText (cs : List Char) : Option (JsonText × List Char) :=
  (readChars cs).map fun r => (joinSurrogates r.1, r.2)

def readDigits (cs : List Char) : Option (List Char × List Char) :=
  let ds := cs.takeWhile isDigit
  if ds.isEmpty then none else some (ds, cs.dropWhile isDigit)

def readInteger : List Char → Option (List Char × List Char)
  | '0' :: rest => some (['0'], rest)
  | cs => readDigits cs

def readFraction : List Char → Option (List Char × List Char)
  | '.' :: rest => (readDigits rest).map fun r => ('.' :: r.1, r.2)
  | cs => some ([], cs)

def readExponent : List Char → Option (List Char × List Char)
  | e :: cs =>
      if e = 'e' ∨ e = 'E' then
        match cs with
        | '+' :: rest => (readDigits rest).map fun r => (e :: '+' :: r.1, r.2)
        | '-' :: rest => (readDigits rest).map fun r => (e :: '-' :: r.1, r.2)
        | rest => (readDigits rest).map fun r => (e :: r.1, r.2)
      else some ([], e :: cs)
  | [] => some ([], [])

def readNumber (cs : List Char) : Option (JsonValue × List Char) := do
  let (sign, cs) := match cs with
    | '-' :: rest => (['-'], rest)
    | _ => ([], cs)
  let (integer, cs) ← readInteger cs
  let (fraction, cs) ← readFraction cs
  let (exponent, cs) ← readExponent cs
  return (.number (String.ofList (sign ++ integer ++ fraction ++ exponent)), cs)

mutual

def readValue : Nat → List Char → Option (JsonValue × List Char)
  | 0, _ => none
  | fuel + 1, cs => match skipBlanks cs with
    | '\x7b' :: rest => match skipBlanks rest with
      | '\x7d' :: rest => some (.object [], rest)
      | rest => (readMembers fuel rest).map fun r => (.object r.1, r.2)
    | '[' :: rest => match skipBlanks rest with
      | ']' :: rest => some (.array [], rest)
      | rest => (readItems fuel rest).map fun r => (.array r.1, r.2)
    | '"' :: rest => (readText rest).map fun r => (.string r.1, r.2)
    | 't' :: 'r' :: 'u' :: 'e' :: rest => some (.bool true, rest)
    | 'f' :: 'a' :: 'l' :: 's' :: 'e' :: rest => some (.bool false, rest)
    | 'n' :: 'u' :: 'l' :: 'l' :: rest => some (.null, rest)
    | rest => readNumber rest

def readItems : Nat → List Char → Option (List JsonValue × List Char)
  | 0, _ => none
  | fuel + 1, cs => do
      let (v, rest) ← readValue fuel cs
      match skipBlanks rest with
      | ',' :: rest => do
          let (vs, rest) ← readItems fuel rest
          return (v :: vs, rest)
      | ']' :: rest => return ([v], rest)
      | _ => none

def readMembers : Nat → List Char → Option (List (JsonText × JsonValue) × List Char)
  | 0, _ => none
  | fuel + 1, cs => match skipBlanks cs with
    | '"' :: rest => do
        let (key, rest) ← readText rest
        match skipBlanks rest with
        | ':' :: rest => do
            let (v, rest) ← readValue fuel rest
            match skipBlanks rest with
            | ',' :: rest => do
                let (ms, rest) ← readMembers fuel rest
                return ((key, v) :: ms, rest)
            | '\x7d' :: rest => return ([(key, v)], rest)
            | _ => none
        | _ => none
    | _ => none

end

/-- Two calls for each character are enough. -/
def read (text : String) : Option JsonValue := do
  let cs := text.toList
  let (v, rest) ← readValue (2 * cs.length + 2) cs
  if (skipBlanks rest).isEmpty then return v else none

end TemporalCheck.JsonValue
