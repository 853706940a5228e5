import StraightLine.Compilation

/-!
# Sessions

A session drives a traversal and the emission of code by hand, one call at a time, and collects what
they write in one listing. Between calls the recording to emit can be replaced, and records can be
emitted one by one with registers of the session's own.
-/

namespace StraightLine

structure Session where
  traversal : Traversal
  loaded : Recording := {}
  registers : Tiny.Registers
  listing : Listing := []
  deriving DecidableEq, Repr

namespace Session

def start (options : Options) : Session where
  traversal := { context := { options } }
  registers := { stem := options.registerStem }

def context (s : Session) : Context := s.traversal.context

def modifyContext (s : Session) (f : Context → Context) : Session :=
  { s with traversal := { s.traversal with context := f s.context } }

def write (s : Session) (lines : Listing) : Session := { s with listing := s.listing ++ lines }

/-! ## The traversal -/

def enter (s : Session) : Session :=
  { s with traversal := s.traversal.enter }.write (IR.header.map .ir)

def visit (s : Session) (c : Construct) : Session :=
  { s with traversal := s.traversal.visit c }.write ((s.traversal.effect c).code.map .ir)

def restart (s : Session) : Session := { s with traversal := { context := s.context } }

def build (s : Session) : Session :=
  { s with loaded := s.traversal.recording, traversal := s.traversal.takeRecords }

/-! ## Emission -/

def load (s : Session) (m : Recording) : Session := { s with loaded := m }

/-- Emits the loaded recording, and gives the number of registers. -/
def emit (s : Session) : Except EmitError Nat × Session :=
  let (outcome, listing) := s.context.emitOnto s.loaded s.listing
  (outcome, { s with listing })

/-- Emits one record with the next register of the session, and gives the number of registers taken so
far. -/
def emitRecord (s : Session) (r : Record) : Except EmitError Nat × Session :=
  let (outcome, e) := Emitter.run (do Emitter.record r; Emitter.taken) ⟨s.registers, s.listing⟩
  (outcome, { s with registers := e.registers, listing := e.listing })

end Session

end StraightLine
