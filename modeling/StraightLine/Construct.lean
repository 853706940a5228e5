import StraightLine.Text.Basic

/-!
# Constructs of a program

A program is a list of constructs, each of which carries the source text it was written with.
-/

namespace StraightLine

inductive Construct where
  | var (type names : Text)
  | string (text : Text)
  | assign (text : Text)
  | read (names : Text)
  | write (names : Text)
  deriving DecidableEq, Repr

namespace Construct

def event : Construct → List Text
  | var type names => ["var".toList, type, names]
  | string text => ["string".toList, text]
  | assign text => ["assign".toList, text]
  | read names => ["read".toList, names]
  | write names => ["write".toList, names]

def events (program : List Construct) : List (List Text) :=
  ["program".toList] :: program.map event

end Construct

end StraightLine
