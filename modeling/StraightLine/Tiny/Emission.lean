import StraightLine.Options
import StraightLine.Record
import StraightLine.Symbol.Table
import StraightLine.Tiny.Instr

/-!
# Emission of tiny code

Each record becomes a block of instructions. An assignment takes a register of its own, through which
its value goes; the machine's arithmetic has a left and a right operand, so a record with any other
number of operands has no code. Every record is checked before anything is emitted, so the fault that
is told is the first one of the program, in whatever order the blocks are laid out.
-/

namespace StraightLine

open Tiny (Registers)

inductive EmitError where
  | malformedOperands (op : Operator) (operands : List Text) (target : Text)
  deriving DecidableEq, Repr

namespace EmitError

def op : EmitError → Operator
  | malformedOperands op _ _ => op

def target : EmitError → Text
  | malformedOperands _ _ target => target

def found : EmitError → Nat
  | malformedOperands _ operands _ => operands.length

/-- The operands on one line. -/
def joined : EmitError → Text
  | malformedOperands _ operands _ => Text.unwords operands

def message (e : EmitError) : Text :=
  "cannot emit ".toList ++ e.op.name ++ " into `".toList ++ e.target ++
    "`: expected a left and a right operand, found ".toList ++ Text.numeral e.found ++
    " (`".toList ++ e.joined ++ "`)".toList

end EmitError

def Operator.leftRight (op : Operator) (operands : List Text) (target : Text) :
    Except EmitError (Text × Text) :=
  match operands with
  | [lhs, rhs] => .ok (lhs, rhs)
  | _ => .error (.malformedOperands op operands target)

theorem Operator.leftRight_of_length_ne {op : Operator} {operands : List Text} {target : Text}
    (h : operands.length ≠ 2) :
    op.leftRight operands target = .error (.malformedOperands op operands target) := by
  match operands, h with
  | [], _ => rfl
  | [_], _ => rfl
  | [_, _], h => exact absurd rfl h
  | _ :: _ :: _ :: _, _ => rfl

/-! ## Blocks -/

namespace Record

def check : Record → Except EmitError Unit
  | arith op operands target => discard (op.leftRight operands target)
  | _ => .ok ()

/-- The block of a record, with the registers left for the next one. The result of a division goes to
its right operand, every other result to the target. -/
def emit (rs : Registers) : Record → Except EmitError (List Tiny.Instr × Registers)
  | move value target =>
    let (r, rs) := rs.take
    .ok ([.move value r.name, .move r.name target], rs)
  | arith op operands target => do
    let (lhs, rhs) ← op.leftRight operands target
    let (r, rs) := rs.take
    let dest := if op = .div then rhs else target
    return ([.move lhs r.name, .arith op rhs r, .move r.name dest], rs)
  | read var => .ok ([.readInt var], rs)
  | write var => .ok ([.writeInt var], rs)
  | writeNewline => .ok ([.writeNewline], rs)

def emitAll (rs : Registers) : List Record → Except EmitError (List Tiny.Instr × Registers)
  | [] => .ok ([], rs)
  | r :: records => do
    let (block, rs) ← r.emit rs
    let (code, rs) ← emitAll rs records
    return (block ++ code, rs)

theorem check_arith {op : Operator} {operands : List Text} {target : Text}
    (h : operands.length = 2) : (arith op operands target).check = .ok () := by
  match operands, h with
  | [_, _], _ => rfl

theorem check_arith_ne {op : Operator} {operands : List Text} {target : Text}
    (h : operands.length ≠ 2) :
    (arith op operands target).check = .error (.malformedOperands op operands target) := by
  rw [check, Operator.leftRight_of_length_ne h]
  rfl

theorem check_eq_error_iff {r : Record} {e : EmitError} :
    r.check = .error e ↔ ∃ op operands target,
      r = arith op operands target ∧ operands.length ≠ 2 ∧
        e = .malformedOperands op operands target := by
  constructor
  · intro h
    cases r with
    | arith op operands target =>
      by_cases hl : operands.length = 2
      · rw [check_arith hl] at h; cases h
      · rw [check_arith_ne hl] at h; cases h
        exact ⟨op, operands, target, rfl, hl, rfl⟩
    | _ => cases h
  · rintro ⟨op, operands, target, rfl, hl, rfl⟩
    exact check_arith_ne hl

/-- A record is refused exactly when its block is, and for the same reason. -/
theorem emit_eq_error_iff {r : Record} {rs : Registers} {e : EmitError} :
    r.emit rs = .error e ↔ r.check = .error e := by
  cases r with
  | arith op operands target =>
    rw [emit, check]
    cases op.leftRight operands target with
    | error e' =>
      constructor
      · intro h; cases h; rfl
      · intro h; cases h; rfl
    | ok p => exact ⟨nofun, nofun⟩
  | _ => exact ⟨nofun, nofun⟩

end Record

/-! ## Layout -/

/-- Kinds of records that a grouped layout keeps together. -/
inductive Group where
  | moves
  | reads
  | ariths (op : Operator)
  | writes
  deriving DecidableEq, Repr

def Group.all : List Group :=
  [.moves, .reads, .ariths .sub, .ariths .mul, .ariths .add, .ariths .div, .writes]

def Record.group : Record → Group
  | move _ _ => .moves
  | arith op _ _ => .ariths op
  | read _ => .reads
  | write _ | writeNewline => .writes

theorem Record.group_mem_all (r : Record) : r.group ∈ Group.all := by
  cases r with
  | arith op => cases op <;> simp [group, Group.all]
  | _ => simp [group, Group.all]

/-- The records in the order of their blocks; a group keeps the program's order. -/
def Order.arrange : Order → List Record → List Record
  | .program, records => records
  | .grouped, records => Group.all.flatMap fun g => records.filter (·.group = g)

/-- Either order lays out every record and nothing else. -/
theorem Order.mem_arrange {order : Order} {r : Record} {records : List Record} :
    r ∈ order.arrange records ↔ r ∈ records := by
  cases order with
  | program => rfl
  | grouped =>
    simp only [arrange, List.mem_flatMap, List.mem_filter, decide_eq_true_eq]
    exact ⟨fun ⟨_, _, h, _⟩ => h, fun h => ⟨r.group, r.group_mem_all, h, rfl⟩⟩

/-! ## Whole programs -/

def Symbol.declaration (s : Symbol) : Tiny.Instr :=
  match s.kind with
  | .num _ => .var s.name
  | .str literal => .str s.name (Symbol.unquote literal)

structure Emission where
  code : List Tiny.Instr
  registers : Nat
  deriving DecidableEq, Repr

/-- Declarations of the global symbols, the blocks of the records, and the end of the run. -/
def Recording.emit (m : Recording) (options : Options) (globals : SymbolTable) :
    Except EmitError Emission := do
  m.records.forM Record.check
  let (blocks, rs) ← Record.emitAll { stem := options.registerStem } (options.order.arrange m.records)
  return {
    code := globals.symbols.map Symbol.declaration ++ blocks ++ [.halt]
    registers := rs.taken }

end StraightLine
