import TemporalCheck.Formula.Basic
import TemporalCheck.Text.Blank

/-!
# Tokens of formula text

A token is a kind and the byte offset at which it begins. The scanner reads one
character at a time and holds at most one unfinished token: a name that may go
on, or the first half of a two-character operator.
-/

namespace TemporalCheck

inductive TokenKind
  | leftParen
  | rightParen
  | const (value : Bool)
  | name (text : String)
  | unary (op : UnaryOp)
  | binary (op : BinaryOp)
deriving DecidableEq, Repr

def TokenKind.text : TokenKind → String
  | .leftParen => "("
  | .rightParen => ")"
  | .const false => "0"
  | .const true => "1"
  | .name text => text
  | .unary op => op.symbol
  | .binary op => op.symbol

structure Token where
  kind : TokenKind
  position : Nat
deriving DecidableEq, Repr

inductive Expectation
  | operand
  | rightParen
  | operator
deriving DecidableEq, Repr

def Expectation.text : Expectation → String
  | .operand => "a proposition, constant, unary operator or '('"
  | .rightParen => "')'"
  | .operator => "a two-character operator"

inductive ParseError
  | empty
  | unexpectedChar (found : Char) (position : Nat)
  | unexpectedToken (found : Token) (expected : Expectation)
  | unexpectedEnd (expected : Expectation)
  | trailingInput (found : Token)
deriving DecidableEq, Repr

def ParseError.message : ParseError → String
  | .empty => "Formula text is empty"
  | .unexpectedChar found position =>
      "Unexpected character '" ++ found.toString ++ "' at position " ++ toString position
  | .unexpectedToken found expected =>
      "Unexpected '" ++ found.kind.text ++ "' at position " ++ toString found.position ++
        ", expected " ++ expected.text
  | .unexpectedEnd expected => "Unexpected end of formula, expected " ++ expected.text
  | .trailingInput found =>
      "Trailing input '" ++ found.kind.text ++ "' at position " ++ toString found.position

namespace Token

def isNameStart (c : Char) : Bool := decide ('a' ≤ c) && decide (c ≤ 'z')

def isNameChar (c : Char) : Bool :=
  isNameStart c || (decide ('0' ≤ c) && decide (c ≤ '9')) || c == '_'

def IsName (text : String) : Prop :=
  ∃ c cs, text.toList = c :: cs ∧ isNameStart c = true ∧ ∀ d ∈ cs, isNameChar d = true

def single? : Char → Option TokenKind
  | '(' => some .leftParen
  | ')' => some .rightParen
  | '0' => some (.const false)
  | '1' => some (.const true)
  | '!' => some (.unary .not)
  | 'X' => some (.unary .next)
  | 'G' => some (.unary .always)
  | 'F' => some (.unary .eventually)
  | 'U' => some (.binary .until)
  | 'R' => some (.binary .release)
  | _ => none

def double? : Char → Option (BinaryOp × Char)
  | '&' => some (.and, '&')
  | '|' => some (.or, '|')
  | '-' => some (.implies, '>')
  | _ => none

end Token

inductive Pending
  | none
  | name (text : String) (start : Nat)
  | operator (op : BinaryOp) (second : Char) (start : Nat)
deriving DecidableEq, Repr

/-- Tokens are kept with the latest one first. -/
structure Scanner where
  position : Nat
  tokens : List Token
  pending : Pending
deriving DecidableEq, Repr

namespace Scanner

def start : Scanner := ⟨0, [], .none⟩

def beginToken (s : Scanner) (c : Char) : Except ParseError Scanner :=
  let after := s.position + c.utf8Size
  if Text.isBlank c then .ok ⟨after, s.tokens, .none⟩
  else match Token.single? c with
    | some kind => .ok ⟨after, ⟨kind, s.position⟩ :: s.tokens, .none⟩
    | none => match Token.double? c with
      | some (op, second) => .ok ⟨after, s.tokens, .operator op second s.position⟩
      | none =>
        if Token.isNameStart c then .ok ⟨after, s.tokens, .name c.toString s.position⟩
        else .error (.unexpectedChar c s.position)

def step (s : Scanner) (c : Char) : Except ParseError Scanner :=
  match s.pending with
  | .none => s.beginToken c
  | .name text start =>
      if Token.isNameChar c then
        .ok ⟨s.position + c.utf8Size, s.tokens, .name (text.push c) start⟩
      else beginToken ⟨s.position, ⟨.name text, start⟩ :: s.tokens, .none⟩ c
  | .operator op second start =>
      if c = second then .ok ⟨s.position + c.utf8Size, ⟨.binary op, start⟩ :: s.tokens, .none⟩
      else .error (.unexpectedChar c s.position)

def finish (s : Scanner) : Except ParseError (List Token) :=
  match s.pending with
  | .none => .ok s.tokens.reverse
  | .name text start => .ok (⟨.name text, start⟩ :: s.tokens).reverse
  | .operator _ _ _ => .error (.unexpectedEnd .operator)

end Scanner

def Token.scan (text : String) : Except ParseError (List Token) := do
  let s ← text.toList.foldlM Scanner.step Scanner.start
  s.finish

end TemporalCheck
