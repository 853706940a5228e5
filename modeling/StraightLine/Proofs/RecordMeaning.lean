import StraightLine.Proofs.TextLaws
import StraightLine.Tiny.Emission
import StraightLine.Tiny.Machine

/-!
# The meaning of records, and of the code emitted for them

A record changes variables, input and output in one step. Its block does the same through a register,
so a run of emitted code ends like the run of its records everywhere but in the registers.
-/

namespace StraightLine

variable {V : Type}

namespace Tiny

/-! ## Registers apart -/

/-- The meaning of literals on a machine with registers named by `stem`: what names a register is no
literal. -/
def Arithmetic.reserving (A : Arithmetic V) (stem : Text) : Arithmetic V :=
  { A with literal? := fun t => if Text.Numbered stem t then none else A.literal? t }

def Arithmetic.decimal : Arithmetic Int where
  literal? t := if t ≠ [] ∧ t.all Char.isDigit then some (Nat.ofDigitChars 10 t 0) else none
  apply
    | .add, v, w => v + w
    | .sub, v, w => v - w
    | .mul, v, w => v * w
    | .div, v, w => v.tdiv w

namespace State

def receive? (s : State V) (name : Text) : Option (State V) :=
  match s.input with
  | [] => none
  | v :: input => some ({ s with input }.set name v)

structure SameOutside (stem : Text) (s t : State V) : Prop where
  input : s.input = t.input
  output : s.output = t.output
  memory : ∀ name, ¬ Text.Numbered stem name → s.memory name = t.memory name

theorem memory_set_self (s : State V) (name : Text) (v : V) : (s.set name v).memory name = v :=
  if_pos rfl

theorem memory_set_of_ne (s : State V) {name n : Text} (h : n ≠ name) (v : V) :
    (s.set name v).memory n = s.memory n :=
  if_neg h

theorem set_comm (s : State V) {a b : Text} (h : a ≠ b) (v w : V) :
    (s.set a v).set b w = (s.set b w).set a v := by
  have hm : ((s.set a v).set b w).memory = ((s.set b w).set a v).memory := by
    funext n
    by_cases hb : n = b
    · rw [hb, memory_set_self, memory_set_of_ne _ h.symm, memory_set_self]
    · rw [memory_set_of_ne _ hb]
      by_cases ha : n = a
      · rw [ha, memory_set_self, memory_set_self]
      · rw [memory_set_of_ne _ ha, memory_set_of_ne _ ha, memory_set_of_ne _ hb]
  exact congrArg (fun m => { s with memory := m }) hm

theorem receive?_nil {s : State V} (h : s.input = []) (name : Text) : s.receive? name = none := by
  rw [receive?, h]

theorem receive?_cons {s : State V} {v : V} {input : List V} (h : s.input = v :: input)
    (name : Text) : s.receive? name = some ({ s with input }.set name v) := by
  rw [receive?, h]

theorem get_set_of_ne (A : Arithmetic V) (s : State V) {name source : Text} (h : source ≠ name)
    (v : V) : (s.set name v).get A source = s.get A source := by
  unfold get
  rw [memory_set_of_ne s h]

theorem get_register (A : Arithmetic V) (s : State V) {stem name : Text}
    (h : Text.Numbered stem name) : s.get (A.reserving stem) name = s.memory name := by
  unfold get Arithmetic.reserving
  simp only [if_pos h, Option.getD_none]

namespace SameOutside

variable {stem : Text} {s t : State V}

theorem refl (stem : Text) (s : State V) : SameOutside stem s s := ⟨rfl, rfl, fun _ _ => rfl⟩

theorem symm (h : SameOutside stem s t) : SameOutside stem t s :=
  ⟨h.input.symm, h.output.symm, fun n hn => (h.memory n hn).symm⟩

theorem trans {u : State V} (h : SameOutside stem s t) (h' : SameOutside stem t u) :
    SameOutside stem s u :=
  ⟨h.input.trans h'.input, h.output.trans h'.output,
    fun n hn => (h.memory n hn).trans (h'.memory n hn)⟩

theorem get (A : Arithmetic V) (h : SameOutside stem s t) {source : Text}
    (hs : ¬ Text.Numbered stem source) :
    s.get (A.reserving stem) source = t.get A source := by
  unfold State.get Arithmetic.reserving
  simp only [if_neg hs, h.memory source hs]

theorem set (h : SameOutside stem s t) (name : Text) (v : V) :
    SameOutside stem (s.set name v) (t.set name v) := by
  refine ⟨h.input, h.output, ?_⟩
  intro n hn
  by_cases he : n = name
  · rw [he, memory_set_self, memory_set_self]
  · rw [memory_set_of_ne s he, memory_set_of_ne t he, h.memory n hn]

theorem set_register (h : SameOutside stem s t) {name : Text} (hname : Text.Numbered stem name)
    (v : V) : SameOutside stem (s.set name v) t := by
  refine ⟨h.input, h.output, ?_⟩
  intro n hn
  have he : n ≠ name := by rintro rfl; exact hn hname
  rw [memory_set_of_ne s he, h.memory n hn]

theorem print (h : SameOutside stem s t) (o : Output V) :
    SameOutside stem (s.print o) (t.print o) :=
  ⟨h.input, congrArg (· ++ [o]) h.output, h.memory⟩

end SameOutside

end State

/-- Two runs end alike: both run out of input, or both are left with the same input, output and
variables. -/
def SameEnd (stem : Text) : Option (State V) → Option (State V) → Prop :=
  Option.Rel (State.SameOutside stem)

namespace SameEnd

variable {stem : Text} {x y z : Option (State V)}

theorem symm (h : SameEnd stem x y) : SameEnd stem y x := by
  cases h with
  | none => exact .none
  | some h => exact .some h.symm

theorem trans (h : SameEnd stem x y) (h' : SameEnd stem y z) : SameEnd stem x z := by
  cases h with
  | none => exact h'
  | some h =>
    cases h' with
    | some h' => exact .some (h.trans h')

theorem bind {f g : State V → Option (State V)} (h : SameEnd stem x y)
    (hfg : ∀ s t, s.SameOutside stem t → SameEnd stem (f s) (g t)) :
    SameEnd stem (x.bind f) (y.bind g) := by
  cases h with
  | none => exact .none
  | some h => exact hfg _ _ h

theorem receive? {s t : State V} (h : s.SameOutside stem t) (name : Text) :
    SameEnd stem (s.receive? name) (t.receive? name) := by
  unfold State.receive?
  rw [h.input]
  cases t.input with
  | nil => exact .none
  | cons v input =>
    have hrest : { s with input }.SameOutside stem { t with input } := ⟨rfl, h.output, h.memory⟩
    exact .some (hrest.set name v)

end SameEnd

theorem Registers.numbered_register (rs : Registers) (id : Nat) :
    Text.Numbered rs.stem (rs.register id).name := ⟨id, rfl⟩

def Registers.after (rs : Registers) (r : Record) : Registers :=
  if r.needsRegister then rs.take.2 else rs

theorem Registers.stem_after (rs : Registers) (r : Record) : (rs.after r).stem = rs.stem := by
  unfold after
  split <;> rfl

def Instr.isWork : Instr → Bool
  | var _ | str _ _ | halt => false
  | move _ _ | arith _ _ _ | readInt _ | writeInt _ | writeNewline => true

end Tiny

/-! ## Records -/

open Tiny

namespace Record

def texts : Record → List Text
  | move value target => [value, target]
  | arith _ operands target => operands ++ [target]
  | read var | write var => [var]
  | writeNewline => []

/-- What a record does. A quotient goes to the name of its divisor; an operator that has not two
operands does nothing that could be said. -/
def exec (A : Arithmetic V) (s : State V) : Record → Option (State V)
  | move value target => some (s.set target (s.get A value))
  | arith op [lhs, rhs] target =>
    some (s.set (if op = .div then rhs else target) (A.apply op (s.get A lhs) (s.get A rhs)))
  | arith _ _ _ => none
  | read var => s.receive? var
  | write var => some (s.print (.value (s.get A var)))
  | writeNewline => some (s.print .newline)

def execAll (A : Arithmetic V) (s : State V) (records : List Record) : Option (State V) :=
  records.foldlM (exec A) s

theorem execAll_cons (A : Arithmetic V) (s : State V) (r : Record) (records : List Record) :
    execAll A s (r :: records) = (r.exec A s).bind (execAll A · records) := rfl

theorem execAll_append (A : Arithmetic V) (s : State V) (p q : List Record) :
    execAll A s (p ++ q) = (execAll A s p).bind (execAll A · q) :=
  List.foldlM_append

/-! ## Blocks -/

theorem exists_emit {r : Record} (h : r.check = .ok ()) (rs : Registers) :
    ∃ block rs', r.emit rs = .ok (block, rs') := by
  cases he : r.emit rs with
  | ok p => exact ⟨p.1, p.2, rfl⟩
  | error e => rw [emit_eq_error_iff.mp he] at h; cases h

def code (reg : Register) : Record → List Tiny.Instr
  | move value target => [.move value reg.name, .move reg.name target]
  | arith op [lhs, rhs] target =>
    [.move lhs reg.name, .arith op rhs reg, .move reg.name (if op = .div then rhs else target)]
  | arith _ _ _ => []
  | read var => [.readInt var]
  | write var => [.writeInt var]
  | writeNewline => [.writeNewline]

theorem operands_of_emit {op : Operator} {operands : List Text} {target : Text} {rs : Registers}
    {p : List Tiny.Instr × Registers} (h : (arith op operands target).emit rs = .ok p) :
    ∃ lhs rhs, operands = [lhs, rhs] := by
  match operands, h with
  | [lhs, rhs], _ => exact ⟨lhs, rhs, rfl⟩
  | [], h => cases h
  | [_], h => cases h
  | _ :: _ :: _ :: _, h => cases h

theorem eq_of_emit {r : Record} {rs rs' : Registers} {block : List Tiny.Instr}
    (h : r.emit rs = .ok (block, rs')) :
    block = r.code (rs.register rs.taken) ∧ rs' = rs.after r := by
  cases r with
  | arith op operands target =>
    obtain ⟨lhs, rhs, rfl⟩ := operands_of_emit h
    cases h
    exact ⟨rfl, rfl⟩
  | _ => cases h; exact ⟨rfl, rfl⟩

theorem stem_of_emit {r : Record} {rs rs' : Registers} {block : List Tiny.Instr}
    (h : r.emit rs = .ok (block, rs')) : rs'.stem = rs.stem := by
  rw [(eq_of_emit h).2, rs.stem_after]

theorem isWork_of_emit {r : Record} {rs rs' : Registers} {block : List Tiny.Instr}
    (h : r.emit rs = .ok (block, rs')) : ∀ i ∈ block, i.isWork = true := by
  rw [(eq_of_emit h).1]
  unfold code
  split <;> simp [Instr.isWork]

theorem halt_not_mem_of_emit {r : Record} {rs rs' : Registers} {block : List Tiny.Instr}
    (h : r.emit rs = .ok (block, rs')) : .halt ∉ block := by
  intro hmem
  cases isWork_of_emit h _ hmem

theorem emitAll_cons_ok {r : Record} {records : List Record} {rs rs' : Registers}
    {code : List Tiny.Instr} (h : emitAll rs (r :: records) = .ok (code, rs')) :
    ∃ block rs₁ code₁, r.emit rs = .ok (block, rs₁) ∧ emitAll rs₁ records = .ok (code₁, rs') ∧
      code = block ++ code₁ := by
  unfold emitAll at h
  cases hb : r.emit rs with
  | error e => rw [hb] at h; cases h
  | ok p =>
    obtain ⟨block, rs₁⟩ := p
    rw [hb] at h
    cases hc : emitAll rs₁ records with
    | error e => simp only [bind, Except.bind, hc] at h; cases h
    | ok q =>
      obtain ⟨code₁, rs₂⟩ := q
      simp only [bind, Except.bind, hc] at h
      cases h
      exact ⟨block, rs₁, code₁, rfl, hc, rfl⟩

theorem exists_emitAll {records : List Record} (h : ∀ r ∈ records, r.check = .ok ())
    (rs : Registers) : ∃ code rs', emitAll rs records = .ok (code, rs') := by
  induction records generalizing rs with
  | nil => exact ⟨[], rs, rfl⟩
  | cons r records ih =>
    obtain ⟨block, rs₁, hb⟩ := exists_emit (h r (List.mem_cons_self ..)) rs
    obtain ⟨code, rs₂, hc⟩ := ih (fun q hq => h q (List.mem_cons_of_mem _ hq)) rs₁
    refine ⟨block ++ code, rs₂, ?_⟩
    simp only [emitAll, hb, hc, bind, Except.bind, pure, Except.pure]

theorem isWork_of_emitAll {records : List Record} {rs rs' : Registers} {code : List Tiny.Instr}
    (h : emitAll rs records = .ok (code, rs')) : ∀ i ∈ code, i.isWork = true := by
  induction records generalizing rs code with
  | nil => cases h; simp
  | cons r records ih =>
    obtain ⟨block, rs₁, code₁, hblock, hcode, rfl⟩ := emitAll_cons_ok h
    intro i hi
    rcases List.mem_append.mp hi with hi | hi
    · exact isWork_of_emit hblock i hi
    · exact ih hcode i hi

theorem halt_not_mem_of_emitAll {records : List Record} {rs rs' : Registers}
    {code : List Tiny.Instr} (h : emitAll rs records = .ok (code, rs')) : .halt ∉ code := by
  intro hmem
  cases isWork_of_emitAll h _ hmem

section
variable {A : Arithmetic V} {rs : Registers} {s t : State V}

theorem run_move_block (hst : s.SameOutside rs.stem t) {value : Text} (target : Text)
    (hv : ¬ Text.Numbered rs.stem value) {reg : Text} (hreg : Text.Numbered rs.stem reg) :
    ∃ s', run (A.reserving rs.stem) s [.move value reg, .move reg target] = some s' ∧
      s'.SameOutside rs.stem (t.set target (t.get A value)) := by
  refine ⟨_, rfl, ?_⟩
  rw [State.get_register A _ hreg, State.memory_set_self, hst.get A hv]
  exact (hst.set_register hreg _).set target _

theorem run_arith_block (hst : s.SameOutside rs.stem t) (op : Operator) {lhs rhs : Text}
    (dest : Text) (hl : ¬ Text.Numbered rs.stem lhs) (hr : ¬ Text.Numbered rs.stem rhs)
    {reg : Register} (hreg : Text.Numbered rs.stem reg.name) :
    ∃ s', run (A.reserving rs.stem) s [.move lhs reg.name, .arith op rhs reg, .move reg.name dest] =
        some s' ∧
      s'.SameOutside rs.stem (t.set dest (A.apply op (t.get A lhs) (t.get A rhs))) := by
  have hne : rhs ≠ reg.name := by rintro rfl; exact hr hreg
  refine ⟨_, rfl, ?_⟩
  rw [State.get_register A _ hreg, State.memory_set_self, State.memory_set_self,
    State.get_set_of_ne _ _ hne, hst.get A hl, hst.get A hr]
  exact ((hst.set_register hreg _).set_register hreg _).set dest _

/-- The block of a record does what the record does, but for the register it takes. -/
theorem run_block {r : Record} {rs' : Registers} {block : List Tiny.Instr}
    (h : r.emit rs = .ok (block, rs')) (hr : ∀ x ∈ r.texts, ¬ Text.Numbered rs.stem x)
    (hst : s.SameOutside rs.stem t) :
    SameEnd rs.stem (run (A.reserving rs.stem) s block) (r.exec A t) := by
  have hreg := rs.numbered_register rs.taken
  cases r with
  | move value target =>
    cases h
    have hv := hr value (by simp [texts])
    obtain ⟨s', hs', hsame⟩ := run_move_block (A := A) hst target hv hreg
    rw [hs']; exact .some hsame
  | arith op operands target =>
    obtain ⟨lhs, rhs, rfl⟩ := operands_of_emit h
    cases h
    have hl := hr lhs (by simp [texts])
    have hr := hr rhs (by simp [texts])
    obtain ⟨s', hs', hsame⟩ := run_arith_block (A := A) hst op (if op = .div then rhs else target)
      hl hr hreg
    rw [hs']; exact .some hsame
  | read var =>
    cases h
    have hrun : run (A.reserving rs.stem) s [.readInt var] = (s.receive? var).bind some := rfl
    rw [hrun, Option.bind_fun_some]
    exact SameEnd.receive? hst var
  | write var =>
    cases h
    have hget := hst.get A (hr var (by simp [texts]))
    exact .some (hget ▸ hst.print _)
  | writeNewline =>
    cases h
    exact .some (hst.print _)

/-- The blocks of records, laid one after the other, do what the records do. -/
theorem run_emitAll {records : List Record} {rs' : Registers} {code : List Tiny.Instr}
    (h : emitAll rs records = .ok (code, rs'))
    (hr : ∀ r ∈ records, ∀ x ∈ r.texts, ¬ Text.Numbered rs.stem x)
    (hst : s.SameOutside rs.stem t) :
    SameEnd rs.stem (run (A.reserving rs.stem) s code) (execAll A t records) := by
  induction records generalizing rs code s t with
  | nil => cases h; exact .some hst
  | cons r records ih =>
    obtain ⟨block, rs₁, code₁, hblock, hcode, rfl⟩ := emitAll_cons_ok h
    -- Registers are handed on under the same stem, which the induction is about.
    have hstem := stem_of_emit hblock
    rw [run_append _ (halt_not_mem_of_emit hblock), execAll_cons]
    refine (run_block hblock (hr r (List.mem_cons_self ..)) hst).bind fun s' t' hst' => ?_
    rw [← hstem] at hst' ⊢
    refine ih hcode ?_ hst'
    rw [hstem]
    exact fun q hq => hr q (List.mem_cons_of_mem _ hq)

end

theorem forM_check {records : List Record} (h : ∀ r ∈ records, r.check = .ok ()) :
    records.forM check = .ok () := by
  induction records with
  | nil => rfl
  | cons r records ih =>
    have hr := h r (List.mem_cons_self ..)
    have htail := ih fun q hq => h q (List.mem_cons_of_mem _ hq)
    rw [List.forM, hr]
    exact htail

end Record

/-! ## Whole programs -/

theorem run_declarations (A : Arithmetic V) (s : State V) (symbols : List Symbol)
    (code : List Tiny.Instr) :
    run A s (symbols.map Symbol.declaration ++ code) = run A s code := by
  induction symbols with
  | nil => rfl
  | cons symbol symbols ih =>
    rw [List.map_cons, List.cons_append, ← ih]
    unfold Symbol.declaration
    cases symbol.kind <;> rfl

/-- Code is emitted when every record passes its check, and a run of it ends like the records that it
lays out. -/
theorem Recording.exists_emit_run {m : Recording} (options : Options)
    (hcheck : ∀ r ∈ m.records, r.check = .ok ())
    (hfree : ∀ r ∈ m.records, ∀ x ∈ r.texts, ¬ Text.Numbered options.registerStem x)
    (globals : SymbolTable) :
    ∃ e, m.emit options globals = .ok e ∧
      ∀ {V : Type} (A : Arithmetic V) (s : State V),
        SameEnd options.registerStem (run (A.reserving options.registerStem) s e.code)
          (Record.execAll A s (options.order.arrange m.records)) := by
  have hcheck' : ∀ r ∈ options.order.arrange m.records, r.check = .ok () :=
    fun r hr => hcheck r (Order.mem_arrange.mp hr)
  obtain ⟨blocks, rs, hblocks⟩ :=
    Record.exists_emitAll hcheck' { stem := options.registerStem }
  refine ⟨⟨globals.symbols.map Symbol.declaration ++ blocks ++ [.halt], rs.taken⟩, ?_, ?_⟩
  · unfold Recording.emit
    rw [Record.forM_check hcheck]
    simp only [hblocks, bind, Except.bind, pure, Except.pure]
  · intro V A s
    rw [List.append_assoc, run_declarations, run_append _ (Record.halt_not_mem_of_emitAll hblocks)]
    have hstop : ∀ x : Option (State V),
        x.bind (run (A.reserving options.registerStem) · [.halt]) = x := by
      intro x; cases x <;> rfl
    rw [hstop]
    exact Record.run_emitAll hblocks (fun r hr => hfree r (Order.mem_arrange.mp hr)) (.refl _ s)

end StraightLine
