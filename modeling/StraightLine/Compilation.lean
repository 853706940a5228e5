import StraightLine.Emitter
import StraightLine.Traversal

/-!
# Compilation of a program

The listing of a program is its intermediate code, and after it the code for the machine if that can
be emitted.
-/

namespace StraightLine

def Emission.listing (e : Emission) : Listing :=
  .ir .ret :: .ir .tinyCode :: e.code.map .tiny

def Context.emit (c : Context) (m : Recording) : Except EmitError Emission :=
  m.emit c.options c.scopes.root.symbols

/-- Writes the code at the end of a listing and gives the number of registers, which are not those of any
other recording. -/
def Context.emitOnto (c : Context) (m : Recording) (listing : Listing) :
    Except EmitError Nat × Listing :=
  let (outcome, e) := Emitter.run (Emitter.recording m c.options c.scopes.root.symbols)
    { registers := { stem := c.options.registerStem }, listing }
  (outcome, e.listing)

/-- The outcome of compiling a program: what it leaves for the next one, and its own code. -/
structure Compilation where
  context : Context
  ir : List IR.Instr
  recording : Recording
  emission : Except EmitError Emission

namespace Compilation

/-- The listing, which ends with the intermediate code if nothing could be emitted. -/
def listing (c : Compilation) : Listing :=
  c.ir.map .ir ++
    match c.emission with
    | .ok e => e.listing
    | .error _ => []

/-- What is told to the user: all diagnostics of the context, earlier ones included. -/
def report (c : Compilation) : Text := Diagnostic.reportAll c.context.diagnostics

end Compilation

def Context.compile (c : Context) (program : List Construct) : Compilation :=
  let t := Traversal.visitAll (Traversal.enter { context := c }) program
  { context := t.context
    ir := t.code
    recording := t.recording
    emission := t.context.emit t.recording }

/-- Compiles programs one after the other, each in the context that the one before it left. -/
def Context.compileAll (c : Context) : List (List Construct) → List Compilation
  | [] => []
  | program :: programs =>
    let done := c.compile program
    done :: done.context.compileAll programs

end StraightLine
