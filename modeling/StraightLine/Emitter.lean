import StraightLine.Listing
import StraightLine.Tiny.Emission

/-!
# Emission step by step

An emitter writes a line as soon as it has it and takes a register as soon as it needs one. A step that
fails leaves the lines written and the registers taken before it as they are.
-/

namespace StraightLine

open Tiny (Register Registers)

structure Emitter where
  registers : Registers
  listing : Listing := []
  deriving DecidableEq, Repr

namespace Emitter

abbrev Step := ExceptT EmitError (StateM Emitter)

variable {α β : Type}

def run (x : Step α) (e : Emitter) : Except EmitError α × Emitter := (ExceptT.run x).run e

def write (line : Line) : Step Unit := modify fun e => { e with listing := e.listing ++ [line] }

def take : Step Register := modifyGet fun e =>
  let (r, registers) := e.registers.take
  (r, { e with registers })

def taken : Step Nat := return (← get).registers.taken

def record : Record → Step Unit
  | .move value target => do
    let r ← take
    write (.tiny (.move value r.name))
    write (.tiny (.move r.name target))
  | .arith op operands target => do
    let (lhs, rhs) ← op.leftRight operands target
    let r ← take
    write (.tiny (.move lhs r.name))
    write (.tiny (.arith op rhs r))
    write (.tiny (.move r.name (if op = .div then rhs else target)))
  | .read var => write (.tiny (.readInt var))
  | .write var => write (.tiny (.writeInt var))
  | .writeNewline => write (.tiny .writeNewline)

/-- Gives the number of registers taken. -/
def recording (m : Recording) (options : Options) (globals : SymbolTable) : Step Nat := do
  (m.records.forM Record.check : Except EmitError Unit)
  write (.ir .ret)
  write (.ir .tinyCode)
  globals.symbols.forM fun s => write (.tiny s.declaration)
  (options.order.arrange m.records).forM record
  write (.tiny .halt)
  taken

/-! ## Runs -/

theorem run_bind (x : Step α) (f : α → Step β) (e : Emitter) :
    run (x >>= f) e =
      match run x e with
      | (.ok a, e) => run (f a) e
      | (.error err, e) => (.error err, e) := by
  unfold run ExceptT.run StateT.run
  simp only [bind, ExceptT.bind, ExceptT.mk, StateT.bind, ExceptT.bindCont]
  cases x e with
  | mk result e' => cases result <;> rfl

theorem run_except (x : Except EmitError α) (e : Emitter) : run (liftM x) e = (x, e) := rfl

theorem run_write (line : Line) (e : Emitter) :
    run (write line) e = (.ok (), { e with listing := e.listing ++ [line] }) := rfl

theorem run_take (e : Emitter) :
    run take e = (.ok e.registers.take.1, { e with registers := e.registers.take.2 }) := rfl

theorem run_taken (e : Emitter) : run taken e = (.ok e.registers.taken, e) := rfl

/-- A record is refused before it takes a register or writes a line. -/
theorem run_record (r : Record) (e : Emitter) :
    run (record r) e =
      match r.emit e.registers with
      | .ok (block, registers) => (.ok (), ⟨registers, e.listing ++ block.map .tiny⟩)
      | .error err => (.error err, e) := by
  cases r with
  | move value target =>
    simp only [record, run_bind, run_take, run_write, List.append_assoc]
    rfl
  | arith op operands target =>
    rw [record, run_bind, run_except, Record.emit]
    cases op.leftRight operands target with
    | error err => rfl
    | ok sides =>
      simp only [run_bind, run_take, run_write, List.append_assoc]
      rfl
  | read var | write var | writeNewline => rfl

end Emitter

end StraightLine
