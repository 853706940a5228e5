import StraightLine.Assignment
import StraightLine.Construct
import StraightLine.Declaration
import StraightLine.Record
import StraightLine.Scope

/-!
# Traversal of a program

Each construct has an effect: symbols it declares, diagnostics it raises, intermediate code, records
and temporaries. The effect depends on what came before only through the types of variables and the
number of temporaries in use; a traversal adds up the effects of its constructs.
-/

namespace StraightLine

/-- What the compilation of one program leaves for the next: scopes, diagnostics and options. -/
structure Context where
  scopes : ScopeStack := {}
  diagnostics : List Diagnostic := []
  options : Options := {}
  deriving DecidableEq, Repr

namespace Context

def report (c : Context) (d : Diagnostic) : Context := { c with diagnostics := c.diagnostics ++ [d] }

/-- The type of a variable in the innermost scope; a name without a type counts as an integer. -/
def typeOf (c : Context) (name : Text) : NumType := (c.scopes.numType? name).getD .int

end Context

/-! ## Effects -/

structure Effect where
  symbols : List Symbol := []
  diagnostics : List Diagnostic := []
  code : List IR.Instr := []
  records : List Record := []
  temps : Nat := 0
  deriving DecidableEq, Repr

namespace Effect

def ofVarDecl (type names : Text) : Effect :=
  match Declaration.vars type names with
  | .ok symbols => { symbols }
  | .error d => { diagnostics := [d] }

def ofStringDecl (text : Text) : Effect where
  symbols := (Declaration.strings text).filterMap fun
    | .ok s => some s
    | .error _ => none
  diagnostics := (Declaration.strings text).filterMap fun
    | .ok _ => none
    | .error d => some d

def ofRead (typeOf : Text → NumType) (names : Text) : Effect where
  code := (Text.entries names).map fun name => .read (typeOf name) name
  records := (Text.entries names).map .read

def writeInstr (typeOf : Text → NumType) (name : Text) : IR.Instr :=
  if name = IR.newline then .writeNewline else .write (typeOf name) name

def writeRecord (name : Text) : Record :=
  if name = IR.newline then .writeNewline else .write name

def ofWrite (typeOf : Text → NumType) (names : Text) : Effect where
  code := (Text.entries names).map (writeInstr typeOf)
  records := (Text.entries names).map writeRecord

/-- Temporaries are numbered from one. -/
def temp (stem : Text) (n : Nat) : Text := stem ++ Text.numeral n

/-- An assignment computes its value into a new temporary and stores that into the target. A divisor
with a decimal point is stored into a temporary of its own before. -/
def ofAssignment (stem : Text) (ty : NumType) (temps : Nat) : Assignment → Effect
  | ⟨target, .value value⟩ =>
    { code := [.store ty value (temp stem (temps + 1)), .store ty (temp stem (temps + 1)) target]
      records := [.move value target]
      temps := 1 }
  | ⟨target, .binary b⟩ =>
    let divisor :=
      if b.hasFloatDivisor then [IR.Instr.store ty b.rhs (temp stem (temps + 1))] else []
    let dest := temp stem (temps + divisor.length + 1)
    { code := divisor ++ [.arith b.op ty b.operands dest, .store ty dest target]
      records := [.arith b.op b.operands target]
      temps := divisor.length + 1 }

def ofAssign (options : Options) (typeOf : Text → NumType) (temps : Nat) (text : Text) : Effect :=
  match Assignment.parse options.policy text with
  | .ok a => ofAssignment options.tempStem (typeOf a.target) temps a
  | .error d => { diagnostics := [d] }

end Effect

def Construct.effect (options : Options) (typeOf : Text → NumType) (temps : Nat) :
    Construct → Effect
  | var type names => .ofVarDecl type names
  | string text => .ofStringDecl text
  | assign text => .ofAssign options typeOf temps text
  | read names => .ofRead typeOf names
  | write names => .ofWrite typeOf names

/-! ## Traversals -/

/-- A traversal under way: the context, the intermediate code so far, the records not yet taken, and
the number of temporaries in use. -/
structure Traversal where
  context : Context
  code : List IR.Instr := []
  records : List Record := []
  temps : Nat := 0
  deriving DecidableEq, Repr

namespace Traversal

def enter (t : Traversal) : Traversal := { t with code := t.code ++ IR.header }

def effect (t : Traversal) (c : Construct) : Effect :=
  c.effect t.context.options t.context.typeOf t.temps

def apply (t : Traversal) (e : Effect) : Traversal where
  context := { t.context with
    scopes := t.context.scopes.declareAll e.symbols
    diagnostics := t.context.diagnostics ++ e.diagnostics }
  code := t.code ++ e.code
  records := t.records ++ e.records
  temps := t.temps + e.temps

def visit (t : Traversal) (c : Construct) : Traversal := t.apply (t.effect c)

def visitAll (t : Traversal) (program : List Construct) : Traversal := program.foldl visit t

@[simp] theorem visitAll_nil (t : Traversal) : t.visitAll [] = t := rfl

@[simp] theorem visitAll_cons (t : Traversal) (c : Construct) (program : List Construct) :
    t.visitAll (c :: program) = (t.visit c).visitAll program := rfl

theorem visitAll_append (t : Traversal) (p q : List Construct) :
    t.visitAll (p ++ q) = (t.visitAll p).visitAll q := List.foldl_append

def recording (t : Traversal) : Recording := { records := t.records, temps := t.temps }

/-- Takes the records out; temporaries stay in use. -/
def takeRecords (t : Traversal) : Traversal := { t with records := [] }

end Traversal

end StraightLine
