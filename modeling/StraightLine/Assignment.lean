import StraightLine.Diagnostic
import StraightLine.Rhs.Classify
import StraightLine.Text.Becomes

/-!
# Assignments
-/

namespace StraightLine

structure Assignment where
  target : Text
  rhs : Rhs
  deriving DecidableEq, Repr

/-- The assignment that a text spells: two sides around exactly one `:=`, neither of them empty. -/
def Assignment.parse (policy : Policy) (text : Text) : Except Diagnostic Assignment :=
  let source := Text.unterminated text
  match (Text.splitOnBecomes source).map Text.trim with
  | [target, value] =>
    let rhs := Rhs.classify policy value
    if target.isEmpty || rhs.isEmpty then .error (.invalidAssignment source) else .ok ⟨target, rhs⟩
  | _ => .error (.invalidAssignment source)

example : Assignment.parse .legacy "x := 3;".toList = .ok ⟨"x".toList, .value "3".toList⟩ := rfl

example : Assignment.parse .legacy "x := ()".toList =
    .error (.invalidAssignment "x := ()".toList) := rfl

end StraightLine
