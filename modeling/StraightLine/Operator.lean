import StraightLine.Text.Basic

/-!
# The four arithmetic operators
-/

namespace StraightLine

inductive Operator where
  | add | sub | mul | div
  deriving DecidableEq, Repr

namespace Operator

def symbol : Operator → Char
  | add => '+'
  | sub => '-'
  | mul => '*'
  | div => '/'

def ofChar? : Char → Option Operator
  | '+' => some add
  | '-' => some sub
  | '*' => some mul
  | '/' => some div
  | _ => none

def precedence : Operator → Nat
  | add | sub => 1
  | mul | div => 2

def name : Operator → Text
  | add => "Add".toList
  | sub => "Sub".toList
  | mul => "Mul".toList
  | div => "Div".toList

theorem ofChar?_eq_some_iff {c : Char} {op : Operator} : ofChar? c = some op ↔ c = op.symbol := by
  constructor
  · intro h
    unfold ofChar? at h
    split at h <;> cases h <;> rfl
  · rintro rfl
    cases op <;> rfl

end Operator

end StraightLine
