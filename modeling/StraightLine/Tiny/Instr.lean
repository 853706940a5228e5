import StraightLine.IR

/-!
# Code of the tiny machine

The machine has named memory cells and named registers, and its instructions have two addresses: an
arithmetic instruction leaves its result in the register that held its left operand.
-/

namespace StraightLine.Tiny

structure Register where
  id : Nat
  name : Text
  deriving DecidableEq, Repr

inductive Instr where
  | var (name : Text)
  | str (name value : Text)
  | move (src dest : Text)
  | arith (op : Operator) (operand : Text) (reg : Register)
  | readInt (name : Text)
  | writeInt (name : Text)
  | writeNewline
  | halt
  deriving DecidableEq, Repr

def mnemonic : Operator → Text
  | .add => "addi".toList
  | .sub => "subi".toList
  | .mul => "muli".toList
  | .div => "divi".toList

namespace Instr

def words : Instr → List Text
  | var name => ["var".toList, name]
  | str name value => ["str".toList, name, '"' :: value ++ ['"']]
  | move src dest => ["move".toList, src, dest]
  | arith op operand reg => [mnemonic op, operand, reg.name]
  | readInt name => ["sys".toList, "readi".toList, name]
  | writeInt name => ["sys".toList, "writei".toList, name]
  | writeNewline => ["sys".toList, "writes".toList, IR.newline]
  | halt => ["sys".toList, "halt".toList]

def render (i : Instr) : Text := Text.unwords i.words

example : (str "s".toList "a b".toList).render = "str s \"a b\"".toList := by decide

end Instr

/-! ## Registers -/

/-- A supply of registers: the stem of their names and how many are taken. -/
structure Registers where
  stem : Text
  taken : Nat := 0
  deriving DecidableEq, Repr

namespace Registers

def register (rs : Registers) (id : Nat) : Register := ⟨id, rs.stem ++ Text.numeral id⟩

def take (rs : Registers) : Register × Registers :=
  (rs.register rs.taken, { rs with taken := rs.taken + 1 })

def takeMany (rs : Registers) : Nat → List Register × Registers
  | 0 => ([], rs)
  | n + 1 =>
    let (r, rs) := rs.take
    let (more, rs) := rs.takeMany n
    (r :: more, rs)

end Registers

end StraightLine.Tiny
