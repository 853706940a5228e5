import StraightLine.IR

/-!
# Records of statements

A traversal records what each statement does; code for the machine is emitted from the records.
-/

namespace StraightLine

inductive Record where
  | move (value target : Text)
  | arith (op : Operator) (operands : List Text) (target : Text)
  | read (var : Text)
  | write (var : Text)
  | writeNewline
  deriving DecidableEq, Repr

namespace Record

def target? : Record → Option Text
  | move _ target | arith _ _ target => some target
  | _ => none

/-- Assignments go through a register. -/
def needsRegister (r : Record) : Bool := r.target?.isSome

end Record

/-- The records of a program in program order, with the number of temporaries that its intermediate
code uses. -/
structure Recording where
  records : List Record := []
  temps : Nat := 0
  deriving DecidableEq, Repr

/-- The aspects of a recording that can be listed by themselves. -/
inductive Queue where
  | write
  | read
  | move
  | arith (op : Operator)
  | store
  | constant
  deriving DecidableEq, Repr

def Queue.entry? : Queue → Record → Option Text
  | .write, .write var => some var
  | .write, .writeNewline => some IR.newline
  | .read, .read var => some var
  | .move, .move _ target => some target
  | .constant, .move value _ => some value
  | .arith op, .arith op' operands _ => if op = op' then some (Text.unwords operands) else none
  | .store, r => r.target?
  | _, _ => none

namespace Recording

def queue (m : Recording) (q : Queue) : List Text := m.records.filterMap q.entry?

def registerDemand (m : Recording) : Nat := m.records.countP (·.needsRegister)

def size (m : Recording) : Nat := m.records.length

def isEmpty (m : Recording) : Bool := m.records.isEmpty

end Recording

end StraightLine
