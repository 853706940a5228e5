import StraightLine.Text.Basic

/-!
# Diagnostics

What is wrong with a construct, and how it is told to the user.
-/

namespace StraightLine

inductive Diagnostic.Code where
  | invalidAssignment
  | invalidString
  | unknownType
  deriving DecidableEq, Repr

inductive Diagnostic.Severity where
  | error
  deriving DecidableEq, Repr

structure Diagnostic where
  code : Option Diagnostic.Code
  severity : Diagnostic.Severity := .error
  message : Text
  source : Option Text := none
  notes : List Text := []
  deriving DecidableEq, Repr

namespace Diagnostic

namespace Code

def text : Code → Text
  | invalidAssignment => "ASG1000".toList
  | invalidString => "DCL1000".toList
  | unknownType => "DCL1001".toList

def number : Code → Nat
  | invalidAssignment => 1000
  | invalidString => 2000
  | unknownType => 2001

end Code

def Severity.label : Severity → Text
  | error => "Error".toList

def Severity.colour : Severity → Text
  | error => "\x1b[31m".toList

def plainColour : Text := "\x1b[0m".toList

/-! ## The faults of a program -/

def invalidAssignment (source : Text) : Diagnostic where
  code := some .invalidAssignment
  message := "invalid assignment expression".toList
  source := some source

def invalidString (source : Text) : Diagnostic where
  code := some .invalidString
  message := "invalid string declaration".toList
  source := some source

def unknownType (source : Text) : Diagnostic where
  code := some .unknownType
  message := "unknown variable type".toList
  source := some source
  notes := ["expected `INT` or `FLOAT`".toList]

/-! ## Texts -/

def bracketedCode (d : Diagnostic) : Text :=
  match d.code with
  | some c => '[' :: c.text ++ [']']
  | none => []

def summary (d : Diagnostic) : Text :=
  (if d.code.isSome then d.bracketedCode ++ [' '] else []) ++ d.message ++
    match d.source with
    | some s => ": ".toList ++ s
    | none => []

def sourceLines (d : Diagnostic) : List Text :=
  match d.source with
  | some s => ["  |".toList, "  | ".toList ++ s, "  |".toList]
  | none => []

/-- The printed form: a headline, the source in its frame, a line for each note. -/
def report (d : Diagnostic) : Text :=
  let headline := d.severity.colour ++ d.severity.label ++ d.bracketedCode ++ plainColour ++
    ": ".toList ++ d.message
  Text.unlines (headline :: d.sourceLines ++ d.notes.map ("  = note: ".toList ++ ·))

/-! ## Lists of diagnostics -/

def reportAll (ds : List Diagnostic) : Text := ds.flatMap report

def count (code : Code) (ds : List Diagnostic) : Nat := ds.countP (·.code = some code)

def hasErrors (ds : List Diagnostic) : Bool := ds.any (·.severity = .error)

example : (invalidAssignment "x".toList).summary =
    "[ASG1000] invalid assignment expression: x".toList := by decide

example : ({ code := none, message := "m".toList, source := some "s".toList } : Diagnostic).report =
    "\x1b[31mError\x1b[0m: m\n  |\n  | s\n  |\n".toList := by decide

end Diagnostic

end StraightLine
