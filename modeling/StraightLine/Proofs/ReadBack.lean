import StraightLine.Proofs.Lines
import StraightLine.Proofs.WellFormed

/-!
# Lines that can be read back

A line is cut at its spaces: the first word tells the instruction, and the words after it are its parts. If
the parts are words themselves, which the content of a string constant need not be, the instruction that
was written is found again. So a line stands for one instruction only, but for the number of a register,
which no line shows.
-/

namespace StraightLine

namespace Text

/-- A text that is told from those around it when they are joined by spaces. -/
structure Separable (w : Text) : Prop where
  ne_nil : w ≠ []
  space : ' ' ∉ w

instance (w : Text) : Decidable (Separable w) :=
  decidable_of_iff (w ≠ [] ∧ ' ' ∉ w) ⟨fun h => ⟨h.1, h.2⟩, fun h => ⟨h.ne_nil, h.space⟩⟩

theorem splitOn_of_not_mem {w : Text} (h : ' ' ∉ w) : w.splitOn ' ' = [w] := by
  rw [List.splitOn_eq_splitOnP]
  apply List.splitOnP_eq_singleton
  intro c hc
  have hne : c ≠ ' ' := fun e => h (e ▸ hc)
  simpa using hne

theorem splitOn_unwords_cons (w : Text) (ws : List Text) :
    (unwords (w :: ws)).splitOn ' ' = (w :: ws).flatMap (·.splitOn ' ') := by
  induction ws generalizing w with
  | nil => simp [unwords_singleton]
  | cons v ws ih =>
    rw [unwords_cons_cons, List.flatMap_cons, ← ih v]
    simp only [List.splitOn_eq_splitOnP]
    exact List.splitOnP_append_cons w (unwords (v :: ws)) (by decide)

/-- The first word of a line is found whatever comes after it. -/
theorem splitOn_unwords_of_head {w : Text} (h : ' ' ∉ w) (ws : List Text) :
    (unwords (w :: ws)).splitOn ' ' = w :: ws.flatMap (·.splitOn ' ') := by
  rw [splitOn_unwords_cons, List.flatMap_cons, splitOn_of_not_mem h]
  rfl

/-- No operands at all leave an empty piece between two spaces. -/
theorem filter_splitOn_unwords {ws : List Text} (h : ∀ w ∈ ws, Separable w) :
    ((unwords ws).splitOn ' ').filter (!·.isEmpty) = ws := by
  cases ws with
  | nil => decide
  | cons w ws =>
    have hsplit : (unwords (w :: ws)).splitOn ' ' = w :: ws :=
      List.splitOn_intercalate ' ' (fun v hv => (h v hv).space) (by simp)
    rw [hsplit, List.filter_eq_self]
    intro v hv
    simpa using (h v hv).ne_nil

end Text

/-! ## Intermediate code -/

namespace IR

inductive Opcode where
  | start | label | link | ret | tinyCode | writeNewline
  | read (ty : NumType)
  | write (ty : NumType)
  | store (ty : NumType)
  | arith (op : Operator) (ty : NumType)
  deriving DecidableEq, Repr

namespace Opcode

def word : Opcode → Text
  | start => "IR".toList
  | label => "LABEL".toList
  | link => "LINK".toList
  | ret => "RET".toList
  | tinyCode => "tiny".toList
  | writeNewline => "WRITES".toList
  | read ty => "READ".toList ++ [ty.suffix]
  | write ty => "WRITE".toList ++ [ty.suffix]
  | store ty => "STORE".toList ++ [ty.suffix]
  | arith op ty => mnemonic op ++ [ty.suffix]

def typed (ty : NumType) : List Opcode :=
  [read ty, write ty, store ty, arith .add ty, arith .sub ty, arith .mul ty, arith .div ty]

def all : List Opcode :=
  [start, label, link, ret, tinyCode, writeNewline] ++ typed .int ++ typed .float

def ofWord? (w : Text) : Option Opcode := all.find? (·.word = w)

/-- No two opcodes have the same word. -/
theorem ofWord?_word (o : Opcode) : ofWord? o.word = some o := by
  cases o with
  | read ty | write ty | store ty => cases ty <;> rfl
  | arith op ty => cases op <;> cases ty <;> rfl
  | _ => rfl

theorem space_not_mem_word (o : Opcode) : ' ' ∉ o.word := by
  cases o with
  | read ty | write ty | store ty => cases ty <;> decide
  | arith op ty => cases op <;> cases ty <;> decide
  | _ => decide

/-- The instruction of an opcode with these words after it. Words that are the same in all its lines are
not looked at. -/
def instr? : Opcode → List Text → Option Instr
  | start, _ => some .start
  | label, [name] => some (.label name)
  | link, _ => some .link
  | ret, _ => some .ret
  | tinyCode, _ => some .tinyCode
  | writeNewline, _ => some .writeNewline
  | read ty, [var] => some (.read ty var)
  | write ty, [var] => some (.write ty var)
  | store ty, [src, dest] => some (.store ty src dest)
  | arith op ty, ws => ws.getLast?.map (.arith op ty (ws.dropLast.filter (!·.isEmpty)))
  | _, _ => none

end Opcode

namespace Instr

def opcode : Instr → Opcode
  | start => .start
  | label _ => .label
  | link => .link
  | ret => .ret
  | tinyCode => .tinyCode
  | read ty _ => .read ty
  | write ty _ => .write ty
  | writeNewline => .writeNewline
  | arith op ty _ _ => .arith op ty
  | store ty _ _ => .store ty

def fields : Instr → List Text
  | start | link | ret | tinyCode | writeNewline => []
  | label name => [name]
  | read _ var => [var]
  | write _ var => [var]
  | arith _ _ operands dest => operands ++ [dest]
  | store _ src dest => [src, dest]

def read? : Text → Option Instr
  | ';' :: t =>
    match t.splitOn ' ' with
    | [] => none
    | w :: ws => (Opcode.ofWord? w).bind (·.instr? ws)
  | _ => none

example : read? ";SUBF  x".toList = some (arith .sub .float [] "x".toList) := by decide

theorem words_eq (i : Instr) : i.words = i.opcode.word :: i.words.tail := by
  cases i <;> rfl

theorem instr?_opcode {i : Instr} (h : ∀ w ∈ i.fields, Text.Separable w) :
    i.opcode.instr? (i.words.tail.flatMap (·.splitOn ' ')) = some i := by
  have hsplit : ∀ w ∈ i.fields, w.splitOn ' ' = [w] := fun w hw =>
    Text.splitOn_of_not_mem (h w hw).space
  cases i with
  | start | link | ret | tinyCode | writeNewline => rfl
  | label name | read ty name | write ty name =>
    simp [opcode, words, Opcode.instr?, hsplit name (by simp [fields])]
  | store ty src dest =>
    simp [opcode, words, Opcode.instr?, hsplit src (by simp [fields]), hsplit dest (by simp [fields])]
  | arith op ty operands dest =>
    have hoperands := Text.filter_splitOn_unwords fun w hw => h w (List.mem_append_left _ hw)
    simp [opcode, words, Opcode.instr?, hsplit dest (by simp [fields]), hoperands]

theorem read?_render {i : Instr} (h : ∀ w ∈ i.fields, Text.Separable w) :
    read? i.render = some i := by
  have hsplit := Text.splitOn_unwords_of_head i.opcode.space_not_mem_word i.words.tail
  rw [← words_eq] at hsplit
  simp only [render, read?, hsplit, Opcode.ofWord?_word, Option.bind_some, instr?_opcode h]

end Instr

end IR

/-! ## Code of the machine -/

namespace Tiny

inductive Opcode where
  | var | str | move | sys
  | arith (op : Operator)
  deriving DecidableEq, Repr

namespace Opcode

def word : Opcode → Text
  | var => "var".toList
  | str => "str".toList
  | move => "move".toList
  | sys => "sys".toList
  | arith op => mnemonic op

def all : List Opcode :=
  [var, str, move, sys, arith .add, arith .sub, arith .mul, arith .div]

def ofWord? (w : Text) : Option Opcode := all.find? (·.word = w)

theorem ofWord?_word (o : Opcode) : ofWord? o.word = some o := by
  cases o with
  | arith op => cases op <;> rfl
  | _ => rfl

theorem space_not_mem_word (o : Opcode) : ' ' ∉ o.word := by
  cases o with
  | arith op => cases op <;> decide
  | _ => decide

/-- The instruction of an opcode with these words after it. A content in quotes may reach over several
words, and a system call is told by its second word. -/
def instr? : Opcode → List Text → Option Instr
  | var, [name] => some (.var name)
  | str, name :: quoted => some (.str name (Text.unwords quoted).tail.dropLast)
  | move, [src, dest] => some (.move src dest)
  | arith op, [operand, name] => some (.arith op operand ⟨0, name⟩)
  | sys, [_] => some .halt
  | sys, [call, name] =>
    if call = "readi".toList then some (.readInt name)
    else if call = "writei".toList then some (.writeInt name)
    else some .writeNewline
  | _, _ => none

end Opcode

namespace Instr

def opcode : Instr → Opcode
  | var _ => .var
  | str _ _ => .str
  | move _ _ => .move
  | arith op _ _ => .arith op
  | readInt _ | writeInt _ | writeNewline | halt => .sys

def fields : Instr → List Text
  | var name => [name]
  | str name _ => [name]
  | move src dest => [src, dest]
  | arith _ operand reg => [operand, reg.name]
  | readInt name => [name]
  | writeInt name => [name]
  | writeNewline | halt => []

def unnumbered : Instr → Instr
  | arith op operand reg => arith op operand { reg with id := 0 }
  | i => i

/-- The instruction that a line writes down, with 0 for the number of a register. -/
def read? (t : Text) : Option Instr :=
  match t.splitOn ' ' with
  | [] => none
  | w :: ws => (Opcode.ofWord? w).bind (·.instr? ws)

example : read? "str s \"a  b\"".toList = some (str "s".toList "a  b".toList) := by decide

theorem words_eq (i : Instr) : i.words = i.opcode.word :: i.words.tail := by
  cases i <;> rfl

theorem instr?_opcode {i : Instr} (h : ∀ w ∈ i.fields, Text.Separable w) :
    i.opcode.instr? (i.words.tail.flatMap (·.splitOn ' ')) = some i.unnumbered := by
  have hsplit : ∀ w ∈ i.fields, w.splitOn ' ' = [w] := fun w hw =>
    Text.splitOn_of_not_mem (h w hw).space
  cases i with
  | writeNewline | halt => rfl
  | var name =>
    simp [opcode, words, Opcode.instr?, unnumbered, hsplit name (by simp [fields])]
  | move src dest =>
    simp [opcode, words, Opcode.instr?, unnumbered, hsplit src (by simp [fields]),
      hsplit dest (by simp [fields])]
  | arith op operand reg =>
    simp [opcode, words, Opcode.instr?, unnumbered, hsplit operand (by simp [fields]),
      hsplit reg.name (by simp [fields])]
  | readInt name | writeInt name =>
    simp only [opcode, words, List.tail_cons, List.flatMap_cons, List.flatMap_nil,
      hsplit name (by simp [fields])]
    rfl
  | str name value =>
    -- Whatever spaces the content holds, its words joined again are the content in its quotes.
    have hquoted : Text.unwords (('"' :: value ++ ['"']).splitOn ' ') = '"' :: value ++ ['"'] :=
      List.intercalate_splitOn ' '
    simp only [opcode, words, List.tail_cons, List.flatMap_cons, List.flatMap_nil, List.append_nil,
      List.singleton_append, hsplit name (by simp [fields]), Opcode.instr?, hquoted, unnumbered]
    simp

theorem read?_render {i : Instr} (h : ∀ w ∈ i.fields, Text.Separable w) :
    read? i.render = some i.unnumbered := by
  have hsplit := Text.splitOn_unwords_of_head i.opcode.space_not_mem_word i.words.tail
  rw [← words_eq] at hsplit
  simp only [render, read?, hsplit, Opcode.ofWord?_word, Option.bind_some, instr?_opcode h]

theorem render_unnumbered (i : Instr) : i.unnumbered.render = i.render := by
  cases i <;> rfl

end Instr

end Tiny

/-! ## One line, one instruction -/

/-- Instructions that are given words differ in their lines, if not only in the number of a register, and a
line of intermediate code is never one of the machine's. -/
theorem render_unambiguous :
    (∀ i j : IR.Instr, (∀ w ∈ i.fields ++ j.fields, Text.Separable w) →
        (i.render = j.render ↔ i = j)) ∧
      (∀ i j : Tiny.Instr, (∀ w ∈ i.fields ++ j.fields, Text.Separable w) →
        (i.render = j.render ↔ i.unnumbered = j.unnumbered)) ∧
      ∀ (i : IR.Instr) (j : Tiny.Instr), i.render ≠ j.render := by
  refine ⟨?_, ?_, IR.Instr.render_ne_tiny⟩
  · intro i j h
    have hi := IR.Instr.read?_render fun w hw => h w (List.mem_append_left _ hw)
    have hj := IR.Instr.read?_render fun w hw => h w (List.mem_append_right _ hw)
    refine ⟨fun e => ?_, congrArg IR.Instr.render⟩
    rw [e, hj] at hi
    exact (Option.some.inj hi).symm
  · intro i j h
    have hi := Tiny.Instr.read?_render fun w hw => h w (List.mem_append_left _ hw)
    have hj := Tiny.Instr.read?_render fun w hw => h w (List.mem_append_right _ hw)
    constructor
    · intro e
      rw [e, hj] at hi
      exact (Option.some.inj hi).symm
    · intro e
      rw [← i.render_unnumbered, e, j.render_unnumbered]

/-- One operand fewer leaves a space more, a space more in a content is one more in the line, and the number
of a register is nowhere. -/
theorem render_unambiguous_spaces :
    (∀ w ∈ ["x".toList, "x".toList, "x".toList], Text.Separable w) ∧
      (IR.Instr.arith .add .int [] "x".toList).render ≠
        (IR.Instr.arith .add .int ["x".toList] "x".toList).render ∧
      (Tiny.Instr.str "x".toList "a b".toList).render ≠
        (Tiny.Instr.str "x".toList "a  b".toList).render ∧
      (Tiny.Instr.arith .mul "x".toList ⟨0, "x".toList⟩).render =
        (Tiny.Instr.arith .mul "x".toList ⟨7, "x".toList⟩).render := by
  obtain ⟨hir, htiny, -⟩ := render_unambiguous
  refine ⟨by decide, ?_, ?_, ?_⟩
  · exact mt (hir _ _ (by decide)).mp (by decide)
  · exact mt (htiny _ _ (by decide)).mp (by decide)
  · exact (htiny _ _ (by decide)).mpr rfl

end StraightLine
