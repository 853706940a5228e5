import StraightLine.Text.Basic

/-!
# Operands of an expression text

Blanks, operators and parentheses separate operands; everything else belongs to one. No check is made
that the text is an expression.
-/

namespace StraightLine.Rhs

def isMark (c : Char) : Bool := c ∈ ['*', '+', '-', '(', ')']

/-- Puts one space in the place of every `*`, `+`, `-` and parenthesis; `/` stays. -/
def normalize (t : Text) : Text := t.map fun c => if isMark c then ' ' else c

def isSeparator (c : Char) : Bool := Text.isBlank c || isMark c || c = '/'

def operands (t : Text) : List Text := Text.runs isSeparator t

example : operands "( y + 3 )/10.0".toList = ["y".toList, "3".toList, "10.0".toList] := by decide

theorem operands_append_cons {c : Char} (h : isSeparator c = true) (s t : Text) :
    operands (s ++ c :: t) = operands s ++ operands t :=
  Text.runs_append_cons h s t

end StraightLine.Rhs
