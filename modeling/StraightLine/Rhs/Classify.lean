import StraightLine.Options
import StraightLine.Rhs.Operands
import StraightLine.Rhs.Token

/-!
# Classification of right-hand sides

The right-hand side of an assignment is a plain value, or it has an operator at its root. The legacy
policy takes the operator from the text alone; the structural policy takes the root of the expression
tree that the text spells.
-/

namespace StraightLine

structure Binary where
  op : Operator
  lhs : Text
  rhs : Text
  operands : List Text
  deriving DecidableEq, Repr

namespace Binary

def divisor? (b : Binary) : Option Text := if b.op = .div then some b.rhs else none

/-- A divisor with a decimal point needs a temporary of its own. -/
def hasFloatDivisor (b : Binary) : Bool := b.divisor?.any (·.contains '.')

end Binary

inductive Rhs where
  | value (text : Text)
  | binary (b : Binary)
  deriving DecidableEq, Repr

namespace Rhs

/-- Nothing is left to compute: an empty value, or an operator without operands. -/
def isEmpty : Rhs → Bool
  | value t => t.isEmpty
  | binary b => b.operands.isEmpty

/-! ## By text -/

def legacyPriority : List Operator := [.mul, .add, .sub, .div]

/-- The first operator of `legacyPriority` that stands anywhere in the text. Its sides reach from the
start to its first occurrence, and from there to its second one or the end. -/
def classifyLegacy (t : Text) : Rhs :=
  match legacyPriority.find? (t.contains ·.symbol) with
  | some op =>
    let rest := (t.dropWhile (· ≠ op.symbol)).drop 1
    .binary {
      op
      lhs := Text.trim (t.takeWhile (· ≠ op.symbol))
      rhs := Text.trim (rest.takeWhile (· ≠ op.symbol))
      operands := operands t }
  | none => .value (Text.unwords (operands t))

/-! ## By structure -/

/-- An operator token that has an operand or a closing parenthesis before it. -/
structure Joint where
  op : Operator
  token : Token
  deriving DecidableEq, Repr

/-- The joints among tokens, given whether the token before them ends an operand. -/
def joints (afterOperand : Bool) : List Token → List Joint
  | [] => []
  | tok :: ts =>
    match tok.kind with
    | .op o =>
      if afterOperand then ⟨o, tok⟩ :: joints tok.endsOperand ts else joints tok.endsOperand ts
    | _ => joints tok.endsOperand ts

/-- Strictly nearer to the root: less deeply nested, or as deep and of lower precedence. -/
def Joint.above (a b : Joint) : Bool :=
  a.token.depth < b.token.depth ||
    (a.token.depth = b.token.depth && a.op.precedence < b.op.precedence)

/-- The joint at the root: none is above it, and of several such joints it is the rightmost. -/
def root? : List Joint → Option Joint
  | [] => none
  | j :: js =>
    match root? js with
    | none => some j
    | some r => if j.above r then some j else some r

def strip (t : Text) : Text := t.filter fun c => c ≠ '(' && c ≠ ')' && !Text.isBlank c

def classifyStructural (t : Text) : Rhs :=
  match root? (joints false (Token.scan t)) with
  | some ⟨op, tok⟩ =>
    let lhs := t.take tok.start
    let rhs := t.drop tok.stop
    .binary { op, lhs := strip lhs, rhs := strip rhs, operands := operands lhs ++ operands rhs }
  | none => .value (strip t)

def classify : Policy → Text → Rhs
  | .legacy => classifyLegacy
  | .structural => classifyStructural

example : classify .legacy "a+b*c".toList =
    .binary ⟨.mul, "a+b".toList, "c".toList, ["a".toList, "b".toList, "c".toList]⟩ := by decide

example : classify .structural "a - b - (c)".toList =
    .binary ⟨.sub, "a-b".toList, "c".toList, ["a".toList, "b".toList, "c".toList]⟩ := by decide

example : classify .structural "-5".toList = .value "-5".toList := by decide

end Rhs

end StraightLine
