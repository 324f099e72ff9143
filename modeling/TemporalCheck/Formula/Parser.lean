import TemporalCheck.Formula.Token

/-!
# Reading formulas

The parser keeps a stack of what was begun and not finished: groups, unary
operators without operand and binary operators without right operand. Each token
either completes an operand or asks for one. An arriving operator first closes
the operators on the stack that bind tighter than itself.
-/

namespace TemporalCheck

def BinaryOp.strength : BinaryOp → Nat
  | .implies => 0
  | .or => 1
  | .and => 2
  | .until | .release => 3

def BinaryOp.groupsLeft : BinaryOp → Bool
  | .and | .or => true
  | .implies | .until | .release => false

/-- Between the two operators, `op` takes the operand before `next` does. -/
def BinaryOp.precedes (op next : BinaryOp) : Bool :=
  decide (next.strength < op.strength) || (next.strength == op.strength && op.groupsLeft)

inductive Frame
  | group
  | unary (op : UnaryOp)
  | binary (op : BinaryOp) (left : Formula)
deriving DecidableEq, Repr

inductive Parser
  | wanting (stack : List Frame)
  | holding (stack : List Frame) (operand : Formula)
deriving DecidableEq, Repr

namespace Parser

def start : Parser := .wanting []

def complete : List Frame → Formula → Parser
  | .unary op :: stack, f => complete stack (.unary op f)
  | stack, f => .holding stack f

def closeFor (next : BinaryOp) : List Frame → Formula → List Frame × Formula
  | .binary op l :: stack, f =>
      if op.precedes next then closeFor next stack (.binary op l f)
      else (.binary op l :: stack, f)
  | stack, f => (stack, f)

/-- Close everything up to the innermost open group; the stack below it, if there is one. -/
def closeGroup : List Frame → Formula → Option (List Frame) × Formula
  | [], f => (none, f)
  | .group :: stack, f => (some stack, f)
  | .unary op :: stack, f => closeGroup stack (.unary op f)
  | .binary op l :: stack, f => closeGroup stack (.binary op l f)

def insideGroup (stack : List Frame) : Bool := stack.contains .group

def step : Parser → Token → Except ParseError Parser
  | .wanting stack, token => match token.kind with
    | .leftParen => .ok (.wanting (.group :: stack))
    | .unary op => .ok (.wanting (.unary op :: stack))
    | .const b => .ok (complete stack (.const b))
    | .name n => .ok (complete stack (.var n))
    | .rightParen | .binary _ => .error (.unexpectedToken token .operand)
  | .holding stack f, token => match token.kind with
    | .binary op =>
        let (rest, l) := closeFor op stack f
        .ok (.wanting (.binary op l :: rest))
    | .rightParen => match closeGroup stack f with
      | (some rest, g) => .ok (complete rest g)
      | (none, _) => .error (.trailingInput token)
    | .leftParen | .unary _ | .const _ | .name _ =>
        if insideGroup stack then .error (.unexpectedToken token .rightParen)
        else .error (.trailingInput token)

def finish : Parser → Except ParseError Formula
  | .wanting _ => .error (.unexpectedEnd .operand)
  | .holding stack f => match closeGroup stack f with
    | (some _, _) => .error (.unexpectedEnd .rightParen)
    | (none, g) => .ok g

end Parser

namespace Formula

def ofTokens (tokens : List Token) : Except ParseError Formula :=
  if tokens.isEmpty then .error .empty
  else do
    let p ← tokens.foldlM Parser.step Parser.start
    p.finish

def parse (text : String) : Except ParseError Formula := do
  let tokens ← Token.scan text
  ofTokens tokens

end Formula

end TemporalCheck
