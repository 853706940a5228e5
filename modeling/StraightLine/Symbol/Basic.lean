import StraightLine.NumType

/-!
# Symbols

A symbol is a numeric variable or a named string constant.
-/

namespace StraightLine

inductive Symbol.Kind where
  | num (ty : NumType)
  | str (literal : Text)
  deriving DecidableEq, Repr

structure Symbol where
  name : Text
  kind : Symbol.Kind
  deriving DecidableEq, Repr

namespace Symbol

/-- The type of a variable; a string constant has none. -/
def numType? (s : Symbol) : Option NumType :=
  match s.kind with
  | .num ty => some ty
  | .str _ => none

def literal? (s : Symbol) : Option Text :=
  match s.kind with
  | .num _ => none
  | .str literal => some literal

def isString (s : Symbol) : Bool := s.literal?.isSome

def unquote (literal : Text) : Text := literal.filter (· ≠ '"')

def unquoted? (s : Symbol) : Option Text := s.literal?.map unquote

end Symbol

end StraightLine
