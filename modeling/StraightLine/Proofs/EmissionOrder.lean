import StraightLine.Proofs.Blocks

/-!
# Order of emission

Code for a recording is one block for each record. Assignments take registers by turns, each of which
its block writes before anything else, from a source of the record. If a program gives that source the
name of the register, the write reads the register as well. A layout does not change the order among
records of one kind, so what the blocks of a kind take in turn is the queue of that kind.
-/

namespace StraightLine

open Tiny

variable {V : Type}

/-! ## Queues -/

def Queue.group? : Queue → Option Group
  | write => some .writes
  | read => some .reads
  | move | constant => some .moves
  | arith op => some (.ariths op)
  | store => none

theorem Queue.group_of_entry? {q : Queue} {g : Group} (hg : q.group? = some g) {r : Record}
    (h : q.entry? r ≠ none) : r.group = g := by
  unfold entry? at h
  split at h
  case h_6 =>
    split at h
    · rename_i hop
      cases hg
      rw [hop]
      rfl
    · exact absurd rfl h
  case h_8 => exact absurd rfl h
  all_goals cases hg
  all_goals rfl

theorem Order.filterMap_arrange {β : Type} {f : Record → Option β} {g : Group}
    (hf : ∀ r, f r ≠ none → r.group = g) (order : Order) (records : List Record) :
    (order.arrange records).filterMap f = records.filterMap f := by
  cases order with
  | program => rfl
  | grouped =>
    induction records with
    | nil => rfl
    | cons r records ih =>
      obtain ⟨pre, post, hsplit, hcons, hpre⟩ := arrange_grouped_cons r records
      rw [hsplit, List.filterMap_append] at ih
      rw [hcons, List.filterMap_append, List.filterMap_cons, List.filterMap_cons]
      by_cases hr : f r = none
      · simp only [hr, ih]
      · -- What is laid out before the record is of a lower rank, and so of another group.
        have hnone : pre.filterMap f = [] := by
          rw [List.filterMap_eq_nil_iff]
          intro q hq
          by_contra hne
          have hlt := (hpre q hq).2
          rw [q.rank_eq, r.rank_eq, hf q hne, hf r hr] at hlt
          exact Nat.lt_irrefl _ hlt
        rw [hnone, List.nil_append] at ih
        rw [hnone, ih, List.nil_append]

namespace Recording

variable (m : Recording)

theorem length_queue_store : (m.queue .store).length = m.registerDemand := by
  rw [queue, List.length_filterMap_eq_countP]
  rfl

theorem queue_cons (r : Record) (records : List Record) (temps : Nat) (q : Queue) :
    queue ⟨r :: records, temps⟩ q = queue ⟨[r], temps⟩ q ++ queue ⟨records, temps⟩ q := by
  rw [queue, queue, queue, ← List.filterMap_append]
  rfl

/-- Every assignment has one entry in one of these queues. -/
theorem length_queues :
    (m.queue .constant).length + (m.queue (.arith .sub)).length + (m.queue (.arith .mul)).length +
      (m.queue (.arith .add)).length + (m.queue (.arith .div)).length = m.registerDemand := by
  obtain ⟨records, temps⟩ := m
  induction records with
  | nil => rfl
  | cons r records ih =>
    have hone : (queue ⟨[r], temps⟩ .constant).length + (queue ⟨[r], temps⟩ (.arith .sub)).length +
        (queue ⟨[r], temps⟩ (.arith .mul)).length + (queue ⟨[r], temps⟩ (.arith .add)).length +
        (queue ⟨[r], temps⟩ (.arith .div)).length = registerDemand ⟨[r], temps⟩ := by
      cases r with
      | arith op => cases op <;> rfl
      | _ => rfl
    have hdemand : registerDemand ⟨r :: records, temps⟩ =
        registerDemand ⟨[r], temps⟩ + registerDemand ⟨records, temps⟩ := by
      rw [registerDemand, registerDemand, registerDemand, ← List.countP_append]
      rfl
    simp only [queue_cons r records, List.length_append]
    omega

end Recording

/-! ## Registers -/

namespace Tiny

theorem State.set_set (s : State V) (name : Text) (v w : V) :
    (s.set name v).set name w = s.set name w := by
  have hm : ((s.set name v).set name w).memory = (s.set name w).memory := by
    funext n
    by_cases h : n = name
    · rw [h, memory_set_self, memory_set_self]
    · rw [memory_set_of_ne _ h, memory_set_of_ne _ h, memory_set_of_ne _ h]
  exact congrArg (fun m => { s with memory := m }) hm

/-- Code that begins with a move into a name does not depend on what the name had before. -/
theorem run_move_cons (A : Arithmetic V) (s : State V) {source name : Text} (h : source ≠ name)
    (v : V) (code : List Instr) :
    run A (s.set name v) (.move source name :: code) = run A s (.move source name :: code) := by
  simp only [run, Instr.step, State.get_set_of_ne A s h, State.set_set]

end Tiny

def Tiny.Arithmetic.left : Arithmetic Bool := ⟨fun _ => none, fun _ v _ => v⟩

namespace Record

theorem exists_code_eq_move_cons {r : Record} (hneeds : r.needsRegister = true) (h : ¬ r.Malformed)
    (reg : Register) :
    ∃ source rest, r.reads.head? = some source ∧ r.code reg = .move source reg.name :: rest := by
  cases r with
  | move value target => exact ⟨value, _, rfl, rfl⟩
  | arith op operands target =>
    obtain ⟨lhs, rhs, rfl⟩ := List.length_eq_two.mp (not_not.mp h)
    exact ⟨lhs, _, rfl, rfl⟩
  | read | write | writeNewline => cases hneeds

/-- A block whose source is its own register keeps what the register held. -/
theorem memory_run_code_self {r : Record} (hneeds : r.needsRegister = true) (h : ¬ r.Malformed)
    {reg : Register} (hsource : r.reads.head? = some reg.name) (s : State Bool) :
    (run .left s (r.code reg)).map (·.memory reg.name) = some (s.memory reg.name) := by
  cases r with
  | move value target =>
    obtain rfl : value = reg.name := Option.some.inj hsource
    simp [code, run, Instr.step, State.set, State.get, Arithmetic.left]
  | arith op operands target =>
    obtain ⟨lhs, rhs, rfl⟩ := List.length_eq_two.mp (not_not.mp h)
    obtain rfl : lhs = reg.name := Option.some.inj hsource
    simp [code, run, Instr.step, State.set, State.get, Arithmetic.left]
  | read | write | writeNewline => cases hneeds

end Record

namespace Block

/-- Whatever the register held before, the block does the same. -/
def WritesBeforeReading (b : Block) (r : Register) : Prop :=
  ∀ {V : Type} (A : Arithmetic V) (s : State V) (v : V),
    run A (s.set r.name v) b.code = run A s b.code

/-- The block begins with a move into the register, from the first source of its record. Only a source of
the register's own name makes it read the register before that. -/
def WritesFirst (b : Block) (r : Register) : Prop :=
  ∃ source rest, b.record.reads.head? = some source ∧ b.code = .move source r.name :: rest ∧
    (b.WritesBeforeReading r ↔ source ≠ r.name)

variable {b : Block} {r : Register}

theorem not_writesBeforeReading (hb : ¬ b.record.Malformed) (hr : r ∈ b.register?)
    (hsource : b.record.reads.head? = some r.name) : ¬ b.WritesBeforeReading r := by
  obtain ⟨hneeds, rfl⟩ : b.record.needsRegister = true ∧ b.register = r := by
    simpa [register?] using hr
  intro h
  have hkeeps := Record.memory_run_code_self hneeds hb hsource
  let s : State Bool := { memory := fun _ => false, input := [] }
  have hset := hkeeps (s.set b.register.name true)
  rw [State.memory_set_self, ← code, h .left s true, code, hkeeps s] at hset
  cases hset

theorem writesFirst (hb : ¬ b.record.Malformed) (hr : r ∈ b.register?) : b.WritesFirst r := by
  obtain ⟨hneeds, rfl⟩ : b.record.needsRegister = true ∧ b.register = r := by
    simpa [register?] using hr
  obtain ⟨source, rest, hsource, hcode⟩ := Record.exists_code_eq_move_cons hneeds hb b.register
  refine ⟨source, rest, hsource, hcode, ?_, ?_⟩
  · rintro h rfl
    exact not_writesBeforeReading hb hr hsource h
  · intro hne V A s v
    rw [code, hcode]
    exact run_move_cons A s hne v rest

end Block

/-! ## Emission -/

structure Recording.InOrder (m : Recording) (options : Options) (globals : SymbolTable)
    (e : Emission) : Prop where
  code : e.code = globals.symbols.map Symbol.declaration ++ (m.blocks options).flatMap Block.code ++
    [.halt]
  once : ((m.blocks options).map (·.position)).Perm (List.range m.size)
  record : ∀ b ∈ m.blocks options, m.records[b.position]? = some b.record
  register : (m.blocks options).filterMap Block.register? =
    (List.range e.registers).map fun k => ⟨k, options.registerStem ++ Text.numeral k⟩
  distinct : (((m.blocks options).filterMap Block.register?).map (·.name)).Nodup
  writesFirst : ∀ b ∈ m.blocks options, ∀ r ∈ b.register?, b.WritesFirst r
  demand : e.registers = m.registerDemand
  stored : e.registers = (m.queue .store).length
  computed : e.registers = (m.queue .constant).length + (m.queue (.arith .sub)).length +
    (m.queue (.arith .mul)).length + (m.queue (.arith .add)).length + (m.queue (.arith .div)).length
  queue : ∀ q, q ≠ .store → ((m.blocks options).map (·.record)).filterMap q.entry? = m.queue q
  grouped : options.order = .grouped → (m.blocks options).Pairwise fun b b' =>
    b.record.rank < b'.record.rank ∨ b.record.rank = b'.record.rank ∧ b.position < b'.position

namespace Recording

variable (m : Recording) (options : Options)

theorem record_blocks :
    (m.blocks options).map (·.record) = options.order.arrange m.records := by
  rw [← Order.map_fst_layout, ← m.map_blocks options, List.map_map]
  rfl

theorem getElem?_position {b : Block} (hb : b ∈ m.blocks options) :
    m.records[b.position]? = some b.record := by
  have hmem : (b.record, b.position) ∈ options.order.layout m.records := by
    rw [← m.map_blocks options]
    exact List.mem_map_of_mem hb
  exact List.mem_zipIdx_iff_getElem?.mp (Order.mem_layout.mp hmem)

theorem filterMap_blocks {q : Queue} (hq : q ≠ .store) :
    ((m.blocks options).map (·.record)).filterMap q.entry? = m.queue q := by
  obtain ⟨g, hg⟩ : ∃ g, q.group? = some g := by
    cases q with
    | store => exact absurd rfl hq
    | _ => exact ⟨_, rfl⟩
  rw [record_blocks]
  exact Order.filterMap_arrange (fun r => Queue.group_of_entry? hg) options.order m.records

theorem pairwise_blocks (hgrouped : options.order = .grouped) :
    (m.blocks options).Pairwise fun b b' =>
      b.record.rank < b'.record.rank ∨ b.record.rank = b'.record.rank ∧ b.position < b'.position := by
  have h := Order.pairwise_layout m.records
  rw [← hgrouped, ← m.map_blocks options] at h
  exact List.pairwise_map.mp h

end Recording

theorem Recording.emit_inOrder (c : Context) (m : Recording)
    (h : ∀ op operands target, .arith op operands target ∈ m.records → operands.length = 2) :
    ∃ e, c.emit m = .ok e ∧ m.InOrder c.options c.scopes.root.symbols e := by
  have hgood : ∀ r ∈ m.records, ¬ r.Malformed := by
    intro r hr hbad
    cases r with
    | arith op operands target => exact hbad (h op operands target hr)
    | _ => exact hbad
  obtain ⟨e, hemit⟩ := exists_emit hgood c.options c.scopes.root.symbols
  have hregs := registers_of_emit hemit
  have hregister := m.registers_blocks c.options
  rw [← hregs] at hregister
  refine ⟨e, hemit, code_of_emit hemit, position_blocks_perm .., fun b => m.getElem?_position _,
    hregister, ?_, ?_, hregs, ?_, ?_, fun q => m.filterMap_blocks _, m.pairwise_blocks _⟩
  · rw [hregister, List.map_map]
    exact Text.nodup_numbered _ List.nodup_range
  · intro b hb r hr
    exact Block.writesFirst (hgood _ (List.mem_of_getElem? (m.getElem?_position _ hb))) hr
  · rw [hregs, length_queue_store]
  · rw [hregs, length_queues]

/-- Both groups with two records have something between them, and the writes stand at the ends. -/
def Recording.scattered : Recording where
  records := [.write ['q'], .arith .div [['a'], ['b']] ['q'], .move ['7'] ['b'],
    .arith .sub [['a'], ['1']] ['d'], .read ['a'], .arith .div [['d'], ['c']] ['q'],
    .move ['8'] ['c'], .writeNewline]

theorem Recording.emit_inOrder_scattered :
    (∀ op operands target, .arith op operands target ∈ scattered.records → operands.length = 2) ∧
      ∃ e, Context.emit {} scattered = .ok e ∧ scattered.InOrder {} {} e ∧ e.registers = 5 ∧
        (scattered.blocks {}).map (·.position) = [2, 6, 4, 3, 1, 5, 0, 7] := by
  have htwo : ∀ op operands target,
      .arith op operands target ∈ scattered.records → operands.length = 2 := by
    intro op operands target h
    simp only [scattered, List.mem_cons, List.not_mem_nil, reduceCtorEq, Record.arith.injEq,
      false_or, or_false] at h
    obtain ⟨-, rfl, -⟩ | ⟨-, rfl, -⟩ | ⟨-, rfl, -⟩ := h <;> rfl
  obtain ⟨e, he, horder⟩ := emit_inOrder {} scattered htwo
  exact ⟨htwo, e, he, horder, horder.demand, by decide⟩

/-- The value has the name of the register that it is copied through. -/
def Recording.selfCopy : Recording where
  records := [.move ['r', '0'] ['x']]

theorem Recording.selfCopy_reads_before_writing :
    (∀ op operands target, .arith op operands target ∈ selfCopy.records → operands.length = 2) ∧
      (∃ e, Context.emit {} selfCopy = .ok e ∧
        e.code = [.move ['r', '0'] ['r', '0'], .move ['r', '0'] ['x'], .halt]) ∧
      ¬ ∀ b ∈ selfCopy.blocks {}, ∀ r ∈ b.register?, b.WritesBeforeReading r := by
  refine ⟨by simp [selfCopy], ⟨_, rfl, rfl⟩, ?_⟩
  intro h
  have hblock : ⟨0, .move ['r', '0'] ['x'], ⟨0, ['r', '0']⟩⟩ ∈ selfCopy.blocks {} := by decide
  refine Block.not_writesBeforeReading ?_ rfl rfl (h _ hblock ⟨0, ['r', '0']⟩ rfl)
  exact not_false

end StraightLine
