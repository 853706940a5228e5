import StraightLine.Proofs.RecordMeaning
import StraightLine.Proofs.RootOperator
import StraightLine.Traversal

/-!
# Source programs

Programs of declarations, reads, writes and assignments with at most one operator that is no division,
as syntax: what they do, which records they amount to, and with which texts they are written.
-/

namespace StraightLine.Source

open Tiny (Arithmetic State Output)

variable {V : Type}

/-! ## Syntax -/

structure Atom extends Operand where
  plain : ∀ c ∈ text, c ∉ ['"', ',', ';', ':', '=']
  deriving DecidableEq

structure Ident extends Atom where
  ne_newline : text ≠ IR.newline
  deriving DecidableEq

inductive Item where
  | ident (x : Ident)
  | newline
  deriving DecidableEq

inductive Value where
  | atom (a : Atom)
  | binary (op : Operator) (hop : op ≠ .div) (lhs rhs : Atom)
  deriving DecidableEq

inductive Stmt where
  | declare (ty : NumType) (names : List Ident)
  | read (names : List Ident)
  | write (items : List Item)
  | assign (target : Ident) (value : Value)
  deriving DecidableEq

def Item.text : Item → Text
  | ident x => x.text
  | newline => IR.newline

def Item.atoms : Item → List Text
  | ident x => [x.text]
  | newline => []

def Value.atoms : Value → List Text
  | atom a => [a.text]
  | binary _ _ lhs rhs => [lhs.text, rhs.text]

def Stmt.atoms : Stmt → List Text
  | declare _ names | read names => names.map (·.text)
  | write items => items.flatMap Item.atoms
  | assign target value => target.text :: value.atoms

/-! ## Meaning -/

def Value.eval (A : Arithmetic V) (s : State V) : Value → V
  | atom a => s.get A a.text
  | binary op _ lhs rhs => A.apply op (s.get A lhs.text) (s.get A rhs.text)

def Item.output (A : Arithmetic V) (s : State V) : Item → Output V
  | ident x => .value (s.get A x.text)
  | newline => .newline

/-- A read takes one input for each of its names, from left to right, and fails when none is left. -/
def Stmt.exec (A : Arithmetic V) (s : State V) : Stmt → Option (State V)
  | declare _ _ => some s
  | read names => names.foldlM (fun s x => s.receive? x.text) s
  | write items => some (items.foldl (fun s i => s.print (i.output A s)) s)
  | assign target value => some (s.set target.text (value.eval A s))

def exec (A : Arithmetic V) (s : State V) (program : List Stmt) : Option (State V) :=
  program.foldlM (Stmt.exec A) s

/-! ## Records -/

def Item.record : Item → Record
  | ident x => .write x.text
  | newline => .writeNewline

def Value.record (target : Text) : Value → Record
  | atom a => .move a.text target
  | binary op _ lhs rhs => .arith op [lhs.text, rhs.text] target

def Stmt.records : Stmt → List Record
  | declare _ _ => []
  | read names => names.map (.read ·.text)
  | write items => items.map Item.record
  | assign target value => [value.record target.text]

theorem execAll_map_read (A : Arithmetic V) (names : List Ident) (s : State V) :
    Record.execAll A s (names.map (.read ·.text)) =
      names.foldlM (fun s x => s.receive? x.text) s :=
  List.foldlM_map ..

theorem execAll_map_record (A : Arithmetic V) (items : List Item) (s : State V) :
    Record.execAll A s (items.map Item.record) =
      some (items.foldl (fun s i => s.print (i.output A s)) s) := by
  induction items generalizing s with
  | nil => rfl
  | cons i items ih =>
    have hi : i.record.exec A s = some (s.print (i.output A s)) := by cases i <;> rfl
    rw [List.map_cons, Record.execAll_cons, hi, Option.bind_some, ih, List.foldl_cons]

theorem Value.exec_record (A : Arithmetic V) (s : State V) (target : Text) (value : Value) :
    (value.record target).exec A s = some (s.set target (value.eval A s)) := by
  cases value with
  | atom a => rfl
  | binary op hop lhs rhs =>
    simp only [Value.record, Record.exec, if_neg hop, Value.eval]

theorem Stmt.execAll_records (A : Arithmetic V) (s : State V) (stmt : Stmt) :
    Record.execAll A s stmt.records = stmt.exec A s := by
  cases stmt with
  | declare ty names => rfl
  | read names => exact execAll_map_read A names s
  | write items => exact execAll_map_record A items s
  | assign target value =>
    rw [Stmt.records, Record.execAll_cons, value.exec_record]; rfl

theorem execAll_records (A : Arithmetic V) (s : State V) (program : List Stmt) :
    Record.execAll A s (program.flatMap Stmt.records) = exec A s program := by
  induction program generalizing s with
  | nil => rfl
  | cons stmt program ih =>
    rw [List.flatMap_cons, Record.execAll_append, stmt.execAll_records]
    simp only [ih]
    rfl

theorem Value.check_record (target : Text) (value : Value) :
    (value.record target).check = .ok () := by
  cases value <;> rfl

theorem Stmt.check_of_mem {stmt : Stmt} {r : Record} (h : r ∈ stmt.records) : r.check = .ok () := by
  cases stmt with
  | declare => cases h
  | read names =>
    obtain ⟨x, -, rfl⟩ := List.mem_map.mp h
    rfl
  | write items =>
    obtain ⟨i, -, rfl⟩ := List.mem_map.mp h
    cases i <;> rfl
  | assign target value =>
    cases List.mem_singleton.mp h
    exact value.check_record target.text

theorem Stmt.texts_subset_atoms {stmt : Stmt} {r : Record} (h : r ∈ stmt.records) :
    r.texts ⊆ stmt.atoms := by
  cases stmt with
  | declare => cases h
  | read names =>
    obtain ⟨x, hx, rfl⟩ := List.mem_map.mp h
    intro t ht
    cases List.mem_singleton.mp ht
    exact List.mem_map_of_mem hx
  | write items =>
    obtain ⟨i, hi, rfl⟩ := List.mem_map.mp h
    intro t ht
    refine List.mem_flatMap.mpr ⟨i, hi, ?_⟩
    cases i <;> exact ht
  | assign target value =>
    cases List.mem_singleton.mp h
    cases value <;> simp [Value.record, Record.texts, Stmt.atoms, Value.atoms]

/-! ## Texts -/

def Value.tree : Value → Expr
  | atom a => .leaf [] a.toOperand
  | binary op _ lhs rhs => .node op (.leaf [] lhs.toOperand) (.leaf [] rhs.toOperand)

def Ending (t : Text) : Prop := t = [] ∨ ∃ v, Text.Blank v ∧ t = ';' :: v

/-- The construct is a way to write the statement. Declarations, reads and writes come as bare lists, so
only an assignment has parentheses or a semicolon to carry. -/
inductive Stmt.Spelled : Stmt → Construct → Prop
  | declare {ty : NumType} {names : List Ident} {keyword list : Text} :
      Text.Padded ty.keyword keyword → Text.Listed (names.map (·.text)) list →
        Spelled (declare ty names) (.var keyword list)
  | read {names : List Ident} {list : Text} :
      Text.Listed (names.map (·.text)) list → Spelled (read names) (.read list)
  | write {items : List Item} {list : Text} :
      Text.Listed (items.map (·.text)) list → Spelled (write items) (.write list)
  | assign {target : Ident} {value : Value} {lhs rhs ending : Text} :
      Text.Padded target.text lhs → value.tree.Spelled .sum rhs → Ending ending →
        Spelled (assign target value) (.assign (lhs ++ ':' :: '=' :: (rhs ++ ending)))

end StraightLine.Source
