import StraightLine.Diagnostic
import StraightLine.Symbol.Basic
import StraightLine.Text.Becomes
import StraightLine.Text.Quoted

/-!
# Declarations

The source text of a declaration names symbols, or is answered with a diagnostic that quotes it.
-/

namespace StraightLine.Declaration

def vars (type names : Text) : Except Diagnostic (List Symbol) :=
  match NumType.ofKeyword? type with
  | some ty => .ok ((Text.entries names).map (⟨·, .num ty⟩))
  | none => .error (.unknownType (Text.trim type))

/-- The string constant that a segment `name := literal` declares. A semicolon after the literal does
not belong to it. -/
def string (segment : Text) : Except Diagnostic Symbol :=
  match Text.cutAtBecomes? segment with
  | some (name, literal) =>
    if (Text.trim name).isEmpty then .error (.invalidString (Text.trim segment))
    else .ok ⟨Text.trim name, .str (Text.unterminated literal)⟩
  | none => .error (.invalidString (Text.trim segment))

/-- The segments of a string declaration: what stands after its keyword, cut at the commas outside
quotes. The keyword may be missing. -/
def segments (text : Text) : List Text :=
  let body := Text.trim text
  Text.segments ',' (("STRING".toList.isPrefixOf? body).getD body)

/-- Each segment of a string declaration is good or bad by itself. -/
def strings (text : Text) : List (Except Diagnostic Symbol) := (segments text).map string

example : strings "STRING s := \"a, b\"; , t = 1".toList =
    [.ok ⟨"s".toList, .str "\"a, b\"".toList⟩, .error (.invalidString "t = 1".toList)] := rfl

end StraightLine.Declaration
