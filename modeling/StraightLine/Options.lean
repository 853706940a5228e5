import StraightLine.Text.Basic

/-!
# Compiler options
-/

namespace StraightLine

/-- How the operator of a right-hand side is found: by its text or by its structure. -/
inductive Policy where
  | legacy | structural
  deriving DecidableEq, Repr

/-- Where records are emitted: grouped by kind, or as the program has them. -/
inductive Order where
  | grouped | program
  deriving DecidableEq, Repr

/-- Registers and temporaries are named by a stem with a number after it. -/
structure Options where
  policy : Policy := .legacy
  order : Order := .grouped
  registerStem : Text := "r".toList
  tempStem : Text := "$T".toList
  deriving DecidableEq, Repr

/-- One setting of an option; it overrides earlier ones. -/
inductive Setting where
  | policy (p : Policy)
  | order (o : Order)
  | registerStem (t : Text)
  | tempStem (t : Text)
  deriving DecidableEq, Repr

namespace Options

def set (o : Options) : Setting → Options
  | .policy p => { o with policy := p }
  | .order r => { o with order := r }
  | .registerStem t => { o with registerStem := t }
  | .tempStem t => { o with tempStem := t }

def ofSettings (settings : List Setting) : Options := settings.foldl set {}

end Options

end StraightLine
