import StraightLine.Tiny.Instr

/-!
# Running tiny code

The machine keeps a value for every name, registers and variables alike, reads from an input and
writes to an output. What literals and operators mean is a parameter of the run.
-/

namespace StraightLine.Tiny

structure Arithmetic (V : Type) where
  literal? : Text → Option V
  apply : Operator → V → V → V

inductive Output (V : Type) where
  | value (v : V)
  | newline
  deriving DecidableEq, Repr

structure State (V : Type) where
  memory : Text → V
  input : List V
  output : List (Output V) := []

variable {V : Type}

namespace State

/-- The value of a source: of the literal, or else what is kept under the name. -/
def get (A : Arithmetic V) (s : State V) (source : Text) : V :=
  (A.literal? source).getD (s.memory source)

def set (s : State V) (name : Text) (v : V) : State V :=
  { s with memory := fun n => if n = name then v else s.memory n }

def print (s : State V) (o : Output V) : State V := { s with output := s.output ++ [o] }

end State

/-- What an instruction does to the state; reading fails when no input is left. Declarations only give
names a place. -/
def Instr.step (A : Arithmetic V) (s : State V) : Instr → Option (State V)
  | move src dest => some (s.set dest (s.get A src))
  | arith op operand reg => some (s.set reg.name (A.apply op (s.memory reg.name) (s.get A operand)))
  | readInt name =>
    match s.input with
    | [] => none
    | v :: input => some ({ s with input }.set name v)
  | writeInt name => some (s.print (.value (s.get A name)))
  | writeNewline => some (s.print .newline)
  | var _ | str _ _ | halt => some s

/-- Runs code up to the first halt. -/
def run (A : Arithmetic V) (s : State V) : List Instr → Option (State V)
  | [] => some s
  | .halt :: _ => some s
  | i :: code => (i.step A s).bind (run A · code)

/-- Code without a halt is run before the code after it. -/
theorem run_append (A : Arithmetic V) {p : List Instr} (hp : .halt ∉ p) (q : List Instr)
    (s : State V) : run A s (p ++ q) = (run A s p).bind (run A · q) := by
  induction p generalizing s with
  | nil => rfl
  | cons i p ih =>
    have hi : i ≠ .halt := fun h => hp (h ▸ List.mem_cons_self ..)
    have hp' : .halt ∉ p := fun h => hp (List.mem_cons_of_mem _ h)
    rw [List.cons_append]
    simp only [run]
    cases i.step A s with
    | none => rfl
    | some s' => simp [ih hp']

end StraightLine.Tiny
