import StraightLine.Tiny.Instr

/-!
# Listings

A listing is a sequence of lines: intermediate code, code of the machine, and lines written as they
are.
-/

namespace StraightLine

inductive Line where
  | ir (i : IR.Instr)
  | tiny (i : Tiny.Instr)
  | verbatim (text : Text)
  deriving DecidableEq, Repr

def Line.render : Line → Text
  | ir i => i.render
  | tiny i => i.render
  | verbatim text => text

abbrev Listing := List Line

namespace Listing

def texts (l : Listing) : List Text := l.map Line.render

def print (l : Listing) : Text := Text.unlines l.texts

end Listing

end StraightLine
