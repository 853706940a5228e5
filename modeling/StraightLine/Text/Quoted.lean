import StraightLine.Text.Basic

/-!
# Cutting a text outside quotes

A double quote opens or closes a quoted stretch; a separator inside one does not cut.
-/

namespace StraightLine.Text

/-- The pieces of a text between the separators that have an even number of quotes before them,
reading on from inside a quoted stretch if `quoted`. -/
def splitOutsideQuotes (sep : Char) (quoted : Bool) : Text → List Text
  | [] => [[]]
  | c :: t =>
    if c = '"' then (splitOutsideQuotes sep (!quoted) t).modifyHead (c :: ·)
    else if c = sep && !quoted then [] :: splitOutsideQuotes sep quoted t
    else (splitOutsideQuotes sep quoted t).modifyHead (c :: ·)

/-- The pieces of a text cut at the separators outside quotes; pieces of blanks only are skipped. -/
def segments (sep : Char) (t : Text) : List Text :=
  (splitOutsideQuotes sep false t).filter fun piece => !(trim piece).isEmpty

example : segments ',' "a := \"x, y\", b := \"z\"".toList =
    ["a := \"x, y\"".toList, " b := \"z\"".toList] := by decide

example : segments ',' "a, ,b,".toList = ["a".toList, "b".toList] := by decide

theorem splitOutsideQuotes_ne_nil (sep : Char) (quoted : Bool) (t : Text) :
    splitOutsideQuotes sep quoted t ≠ [] := by
  fun_induction splitOutsideQuotes sep quoted t <;> simp_all

end StraightLine.Text
