import StraightLine.Operator
import StraightLine.Text.Basic

/-!
# Tokens of an expression text

A token is an operator, a parenthesis or a maximal run of the remaining characters that are not
blank. It carries its place in the text, counted in characters, and its nesting depth.
-/

namespace StraightLine.Rhs

inductive Token.Kind where
  | op (o : Operator)
  | lparen
  | rparen
  | operand
  deriving DecidableEq, Repr

/-- The characters from `start` up to `stop`, which is excluded. A parenthesis has the depth of the
text around it. -/
structure Token where
  kind : Token.Kind
  start : Nat
  stop : Nat
  depth : Nat
  deriving DecidableEq, Repr

namespace Token

/-- Puts the operand character at `pos` before the tokens that follow it: it begins the next token if
that is an operand that starts right after it, and is an operand of its own otherwise. -/
def consOperand (pos depth : Nat) : List Token → List Token
  | ⟨.operand, start, stop, d⟩ :: ts =>
    if start = pos + 1 then ⟨.operand, pos, stop, d⟩ :: ts
    else ⟨.operand, pos, pos + 1, depth⟩ :: ⟨.operand, start, stop, d⟩ :: ts
  | ts => ⟨.operand, pos, pos + 1, depth⟩ :: ts

/-- The tokens of a text that starts at `pos` inside `depth` open parentheses. A closing parenthesis
with no partner leaves the depth at zero. -/
def scanFrom (pos depth : Nat) : Text → List Token
  | [] => []
  | c :: t =>
    if c = '(' then ⟨.lparen, pos, pos + 1, depth⟩ :: scanFrom (pos + 1) (depth + 1) t
    else if c = ')' then ⟨.rparen, pos, pos + 1, depth - 1⟩ :: scanFrom (pos + 1) (depth - 1) t
    else if Text.isBlank c then scanFrom (pos + 1) depth t
    else match Operator.ofChar? c with
      | some o => ⟨.op o, pos, pos + 1, depth⟩ :: scanFrom (pos + 1) depth t
      | none => consOperand pos depth (scanFrom (pos + 1) depth t)

def scan (t : Text) : List Token := scanFrom 0 0 t

example : scan "ab*(c )".toList =
    [⟨.operand, 0, 2, 0⟩, ⟨.op .mul, 2, 3, 0⟩, ⟨.lparen, 3, 4, 0⟩, ⟨.operand, 4, 5, 1⟩,
      ⟨.rparen, 6, 7, 0⟩] := by decide

def text (tok : Token) (t : Text) : Text := (t.drop tok.start).take (tok.stop - tok.start)

/-- An operator after this token joins what is before it to what is after it. -/
def endsOperand (tok : Token) : Bool := tok.kind = .operand || tok.kind = .rparen

end Token

end StraightLine.Rhs
