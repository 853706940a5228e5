import StraightLine.Text.Basic

/-!
# Numeric types
-/

namespace StraightLine

inductive NumType where
  | int | float
  deriving DecidableEq, Repr

namespace NumType

def keyword : NumType → Text
  | int => "INT".toList
  | float => "FLOAT".toList

/-- The type that a keyword names; blanks around it are ignored, its case counts. -/
def ofKeyword? (t : Text) : Option NumType :=
  if Text.trim t = int.keyword then some int
  else if Text.trim t = float.keyword then some float
  else none

def suffix : NumType → Char
  | int => 'I'
  | float => 'F'

example : ofKeyword? " FLOAT ".toList = some float := by decide

theorem keyword_ne : int.keyword ≠ float.keyword := by decide

theorem ofKeyword?_eq_some_iff {t : Text} {ty : NumType} :
    ofKeyword? t = some ty ↔ Text.trim t = ty.keyword := by
  unfold ofKeyword?
  split
  · rename_i h
    cases ty with
    | int => simp [h]
    | float => simp [h, keyword_ne]
  · rename_i h
    cases ty <;> simp [h]

end NumType

end StraightLine
