import StraightLine.NumType
import StraightLine.Operator

/-!
# Intermediate code

The listing opens with typed three-address instructions, each on a line that starts with a semicolon.
-/

namespace StraightLine.IR

inductive Instr where
  | start
  | label (name : Text)
  | link
  | ret
  | tinyCode
  | read (ty : NumType) (var : Text)
  | write (ty : NumType) (var : Text)
  | writeNewline
  | arith (op : Operator) (ty : NumType) (operands : List Text) (dest : Text)
  | store (ty : NumType) (src dest : Text)
  deriving DecidableEq, Repr

def mnemonic : Operator → Text
  | .add => "ADD".toList
  | .sub => "SUB".toList
  | .mul => "MULT".toList
  | .div => "DIV".toList

/-- The name that a write statement gives a line break. -/
def newline : Text := "newline".toList

namespace Instr

/-- The words of an instruction's line; typed instructions have the type's letter after their name. -/
def words : Instr → List Text
  | start => ["IR".toList, "code".toList]
  | label name => ["LABEL".toList, name]
  | link => ["LINK".toList]
  | ret => ["RET".toList]
  | tinyCode => ["tiny".toList, "code".toList]
  | read ty var => ["READ".toList ++ [ty.suffix], var]
  | write ty var => ["WRITE".toList ++ [ty.suffix], var]
  | writeNewline => ["WRITES".toList, newline]
  | arith op ty operands dest => [mnemonic op ++ [ty.suffix], Text.unwords operands, dest]
  | store ty src dest => ["STORE".toList ++ [ty.suffix], src, dest]

def render (i : Instr) : Text := ';' :: Text.unwords i.words

example : (arith .mul .float ["a".toList, "b".toList] "$T1".toList).render =
    ";MULTF a b $T1".toList := by decide

end Instr

def header : List Instr := [.start, .label "main".toList, .link]

end StraightLine.IR
