import StraightLine.Proofs.Lines
import StraightLine.Proofs.Policies
import StraightLine.Proofs.RecordMeaning
import StraightLine.Session

/-!
# Failure of emission

The machine has no code for an operator with other than two operands. Such a record is found before
anything is written, so emission, which writes each line as soon as it has it, writes all of its lines
or none. In a program the record comes from an assignment that is accepted with such operands.
-/

namespace StraightLine

open Tiny (Registers)

/-! ## Malformed records -/

namespace Record

def Malformed : Record → Prop
  | arith _ operands _ => operands.length ≠ 2
  | move _ _ | read _ | write _ | writeNewline => False

theorem check_eq_ok_iff {r : Record} : r.check = .ok () ↔ ¬ r.Malformed := by
  cases r with
  | arith op operands target =>
    by_cases h : operands.length = 2
    · simp [check_arith h, Malformed, h]
    · simp [check_arith_ne h, Malformed, h]
  | _ => simp [check, Malformed]

def fault? (r : Record) : Option EmitError :=
  match r.check with
  | .ok () => none
  | .error e => some e

theorem fault?_eq_some_iff {r : Record} {e : EmitError} :
    r.fault? = some e ↔ ∃ op operands target, r = arith op operands target ∧
      operands.length ≠ 2 ∧ e = .malformedOperands op operands target := by
  rw [← check_eq_error_iff, fault?]
  cases r.check <;> simp

theorem fault?_eq_none_iff {r : Record} : r.fault? = none ↔ ¬ r.Malformed := by
  rw [← check_eq_ok_iff, fault?]
  cases r.check <;> simp

theorem forM_check_eq (records : List Record) :
    records.forM check =
      match records.findSome? fault? with
      | none => .ok ()
      | some e => .error e := by
  induction records with
  | nil => rfl
  | cons r records ih =>
    rw [List.forM, ih, List.findSome?_cons, fault?]
    cases r.check <;> rfl

end Record

/-! ## Recordings -/

namespace Recording

variable {m : Recording} {e : EmitError}

/-- The error names the first malformed record of the program, in whatever order code is emitted. -/
def FirstFault (m : Recording) (e : EmitError) : Prop :=
  ∃ before op operands target after, m.records = before ++ .arith op operands target :: after ∧
    (∀ r ∈ before, ¬ r.Malformed) ∧ operands.length ≠ 2 ∧
    e = .malformedOperands op operands target ∧ e.op = op ∧ e.target = target ∧
    e.found = operands.length ∧ e.joined = Text.unwords operands

theorem findSome?_fault?_eq_some_iff :
    m.records.findSome? Record.fault? = some e ↔ m.FirstFault e := by
  simp only [List.findSome?_eq_some_iff, Record.fault?_eq_some_iff, Record.fault?_eq_none_iff]
  constructor
  · intro h
    obtain ⟨before, r, after, hsplit, ⟨op, operands, target, rfl, hlen, rfl⟩, hbefore⟩ := h
    exact ⟨before, op, operands, target, after, hsplit, hbefore, hlen, rfl, rfl, rfl, rfl, rfl⟩
  · intro ⟨before, op, operands, target, after, hsplit, hbefore, hlen, he, _⟩
    exact ⟨before, .arith op operands target, after, hsplit,
      ⟨op, operands, target, rfl, hlen, he⟩, hbefore⟩

theorem findSome?_fault?_eq_none_iff :
    m.records.findSome? Record.fault? = none ↔ ∀ r ∈ m.records, ¬ r.Malformed := by
  simp only [List.findSome?_eq_none_iff, Record.fault?_eq_none_iff]

theorem exists_firstFault_iff : (∃ e, m.FirstFault e) ↔ ∃ r ∈ m.records, r.Malformed := by
  simp only [← findSome?_fault?_eq_some_iff, ← Option.isSome_iff_exists]
  rw [← not_iff_not, Bool.not_eq_true, Option.isSome_eq_false_iff, Option.isNone_iff_eq_none,
    findSome?_fault?_eq_none_iff]
  simp

/-- Once every record has passed its check, no block can fail, wherever it is laid out. -/
theorem emit_ne_error_of_mem_arrange (h : ∀ r ∈ m.records, ¬ r.Malformed) {order : Order} {r : Record}
    (hr : r ∈ order.arrange m.records) (rs : Registers) (e : EmitError) : r.emit rs ≠ .error e := by
  intro he
  have hok := Record.check_eq_ok_iff.mpr (h r (Order.mem_arrange.mp hr))
  rw [Record.emit_eq_error_iff.mp he] at hok
  cases hok

theorem exists_emitAll (h : ∀ r ∈ m.records, ¬ r.Malformed) (order : Order) (rs : Registers) :
    ∃ code rs', Record.emitAll rs (order.arrange m.records) = .ok (code, rs') :=
  Record.exists_emitAll
    (fun r hr => Record.check_eq_ok_iff.mpr (h r (Order.mem_arrange.mp hr))) rs

theorem emit_eq_error_iff (options : Options) (globals : SymbolTable) :
    m.emit options globals = .error e ↔ m.FirstFault e := by
  rw [← findSome?_fault?_eq_some_iff, Recording.emit, Record.forM_check_eq]
  cases hfault : m.records.findSome? Record.fault? with
  | some e' => simp [bind, Except.bind]
  | none =>
    obtain ⟨code, rs', hall⟩ := exists_emitAll (findSome?_fault?_eq_none_iff.mp hfault) options.order
      { stem := options.registerStem }
    simp [hall, bind, Except.bind, pure, Except.pure]

theorem exists_emit (h : ∀ r ∈ m.records, ¬ r.Malformed) (options : Options) (globals : SymbolTable) :
    ∃ e, m.emit options globals = .ok e := by
  cases hemit : m.emit options globals with
  | ok e => exact ⟨e, rfl⟩
  | error e =>
    obtain ⟨r, hr, hbad⟩ := exists_firstFault_iff.mp ⟨e, (emit_eq_error_iff options globals).mp hemit⟩
    exact absurd hbad (h r hr)

end Recording

/-! ## Emission step by step -/

namespace Emitter

theorem run_forM_write {α : Type} (line : α → Line) (as : List α) (e : Emitter) :
    run (as.forM fun a => write (line a)) e =
      (.ok (), { e with listing := e.listing ++ as.map line }) := by
  induction as generalizing e with
  | nil => rw [List.map_nil, List.append_nil]; rfl
  | cons a as ih =>
    rw [List.forM, run_bind, run_write]
    simp only [ih, List.append_assoc, List.singleton_append, List.map_cons]

theorem run_record_fst {r : Record} {e : Emitter} (h : ∀ err, r.emit e.registers ≠ .error err) :
    (run (record r) e).1 = .ok () := by
  rw [run_record]
  cases hr : r.emit e.registers with
  | ok p => rfl
  | error err => exact absurd hr (h err)

theorem run_forM_record {records : List Record} {rs rs' : Registers} {code : List Tiny.Instr}
    (h : Record.emitAll rs records = .ok (code, rs')) (listing : Listing) :
    run (records.forM record) ⟨rs, listing⟩ = (.ok (), ⟨rs', listing ++ code.map .tiny⟩) := by
  induction records generalizing rs code listing with
  | nil =>
    cases h
    rw [List.map_nil, List.append_nil]
    rfl
  | cons r records ih =>
    obtain ⟨block, rs₁, code₁, hblock, hcode, rfl⟩ := Record.emitAll_cons_ok h
    rw [List.forM, run_bind, run_record, hblock]
    simp only [ih hcode, List.append_assoc, List.map_append]

end Emitter

theorem Context.emitOnto_eq (c : Context) (m : Recording) (listing : Listing) :
    c.emitOnto m listing =
      match c.emit m with
      | .ok e => (.ok e.registers, listing ++ e.listing)
      | .error e => (.error e, listing) := by
  unfold emitOnto Emitter.recording Context.emit Recording.emit
  rw [Emitter.run_bind, Emitter.run_except, Record.forM_check_eq]
  cases hfault : m.records.findSome? Record.fault? with
  | some e => rfl
  | none =>
    -- With the checks passed no block fails, so nothing is left half written.
    obtain ⟨code, rs', hall⟩ :=
      Recording.exists_emitAll (Recording.findSome?_fault?_eq_none_iff.mp hfault)
        c.options.order { stem := c.options.registerStem }
    simp only [Emitter.run_bind, Emitter.run_write, Emitter.run_forM_write,
      Emitter.run_forM_record hall, Emitter.run_taken]
    simp [hall, bind, Except.bind, pure, Except.pure, Emission.listing, Function.comp_def]

namespace Session

/-- Emission in one step, which writes all of its lines or none. -/
def emitAtOnce (s : Session) : Except EmitError Nat × Session :=
  match s.context.emit s.loaded with
  | .ok e => (.ok e.registers, s.write e.listing)
  | .error e => (.error e, s)

theorem emit_eq_emitAtOnce (s : Session) : s.emit = s.emitAtOnce := by
  unfold emit emitAtOnce
  rw [Context.emitOnto_eq]
  cases s.context.emit s.loaded <;> rfl

theorem emit_fst_eq_error_iff {s : Session} {e : EmitError} :
    s.emit.1 = .error e ↔ s.loaded.FirstFault e := by
  rw [← Recording.emit_eq_error_iff s.context.options s.context.scopes.root.symbols, ← Context.emit,
    emit_eq_emitAtOnce, emitAtOnce]
  cases s.context.emit s.loaded <;> simp

theorem emit_snd_of_error {s : Session} {e : EmitError} (h : s.emit.1 = .error e) :
    s.emit.2 = s := by
  rw [emit_eq_emitAtOnce, emitAtOnce] at h ⊢
  cases he : s.context.emit s.loaded with
  | ok e' => simp [he] at h
  | error e' => rfl

theorem emitRecord_malformed (s : Session) {r : Record} (h : r.Malformed) :
    ∃ e, s.emitRecord r = (.error e, s) := by
  cases hcheck : r.check with
  | ok u => exact absurd h (Record.check_eq_ok_iff.mp hcheck)
  | error e =>
    refine ⟨e, ?_⟩
    rw [emitRecord, Emitter.run_bind, Emitter.run_record, Record.emit_eq_error_iff.mpr hcheck]

end Session

/-! ## Programs -/

/-- The text is accepted as an operation whose operands the machine has no code for. -/
def Assignment.Miscounts (policy : Policy) (text : Text) : Prop :=
  ∃ target value b, sides? text = some (target, value) ∧
    parse policy text = .ok ⟨target, .binary b⟩ ∧ (Rhs.operands value).length ≠ 2

theorem Assignment.miscounts_iff {policy : Policy} {text : Text} :
    Miscounts policy text ↔ ∃ a, parse policy text = .ok a ∧ a.record.Malformed := by
  constructor
  · intro ⟨target, value, b, hsides, hparse, hlen⟩
    obtain ⟨value', hsides', -, hrhs, -⟩ := parse_eq_ok_iff.mp hparse
    cases hsides.symm.trans hsides'
    exact ⟨_, hparse, by rwa [record, Record.Malformed, Rhs.operands_of_classify hrhs.symm]⟩
  · intro ⟨a, hparse, hmal⟩
    obtain ⟨value, hsides, -, hrhs, -⟩ := parse_eq_ok_iff.mp hparse
    obtain ⟨target, w | b⟩ := a
    · cases hmal
    · refine ⟨target, value, b, hsides, hparse, ?_⟩
      rwa [record, Record.Malformed, Rhs.operands_of_classify hrhs.symm] at hmal

theorem Construct.exists_malformed_iff {policy : Policy} {c : Construct} :
    (∃ r ∈ c.records policy, r.Malformed) ↔
      ∃ text, c = .assign text ∧ Assignment.Miscounts policy text := by
  cases c with
  | assign text =>
    simp only [assign.injEq, exists_eq_left', Assignment.miscounts_iff, records]
    cases Assignment.parse policy text <;> simp
  | read names => simp [records, Record.Malformed]
  | write names =>
    simp only [records, reduceCtorEq, false_and, exists_false, iff_false]
    rintro ⟨r, hr, hmal⟩
    obtain ⟨name, -, rfl⟩ := List.mem_map.mp hr
    unfold Effect.writeRecord at hmal
    split at hmal <;> cases hmal
  | _ => simp [records]

theorem Context.exists_emission_error_iff {c : Context} {program : List Construct} :
    (∃ e, (c.compile program).emission = .error e) ↔
      ∃ text, .assign text ∈ program ∧ Assignment.Miscounts c.options.policy text := by
  have hemission : ∀ e, (c.compile program).emission = .error e ↔
      (c.compile program).recording.FirstFault e := fun e => Recording.emit_eq_error_iff _ _
  simp only [hemission, Recording.exists_firstFault_iff, c.records_compile]
  constructor
  · intro ⟨r, hr, hmal⟩
    obtain ⟨d, hd, hr⟩ := List.mem_flatMap.mp hr
    obtain ⟨text, rfl, htext⟩ := Construct.exists_malformed_iff.mp ⟨r, hr, hmal⟩
    exact ⟨text, hd, htext⟩
  · intro ⟨text, hmem, htext⟩
    obtain ⟨r, hr, hmal⟩ := Construct.exists_malformed_iff.mpr ⟨text, rfl, htext⟩
    exact ⟨r, List.mem_flatMap.mpr ⟨_, hmem, hr⟩, hmal⟩

theorem Context.texts_of_emission_error {c : Context} {program : List Construct} {e : EmitError}
    (h : (c.compile program).emission = .error e) :
    (c.compile program).listing.texts = (c.compile program).ir.map IR.Instr.render := by
  rw [Compilation.texts_listing, h, List.append_nil]

theorem Context.listing_compile_eq (c : Context) (program : List Construct) :
    (c.compile program).listing = ((c.compile program).context.emitOnto
      (c.compile program).recording ((c.compile program).ir.map .ir)).2 := by
  have hemission : (c.compile program).emission =
      (c.compile program).context.emit (c.compile program).recording := rfl
  rw [Context.emitOnto_eq, Compilation.listing, hemission]
  cases (c.compile program).context.emit (c.compile program).recording with
  | ok e => rfl
  | error e => rw [List.append_nil]

/-- Emission fails on a malformed record and on nothing else, with the first one's operands as its
reason, and then leaves the session as it was. So does the emission of a single record. A program fails
on an assignment that leaves such a record, and its listing, which is what the emitter leaves, then ends
with the intermediate code. -/
theorem emission_fails_atomically :
    (∀ s : Session,
      ((∃ e, s.emit.1 = .error e) ↔ ∃ r ∈ s.loaded.records, r.Malformed) ∧
      (∀ e, s.emit.1 = .error e → s.loaded.FirstFault e ∧ s.emit.2 = s) ∧
      ((∀ e, s.emit.1 ≠ .error e) →
        ∀ r ∈ s.context.options.order.arrange s.loaded.records,
          (∀ rs e, r.emit rs ≠ .error e) ∧ ∀ e, (Emitter.run (Emitter.record r) e).1 = .ok ()) ∧
      s.emit = s.emitAtOnce) ∧
    (∀ (s : Session) (r : Record), r.Malformed → ∃ e, s.emitRecord r = (.error e, s)) ∧
    ∀ (c : Context) (program : List Construct),
      ((∃ e, (c.compile program).emission = .error e) ↔
        ∃ text, .assign text ∈ program ∧ Assignment.Miscounts c.options.policy text) ∧
      (c.compile program).listing = ((c.compile program).context.emitOnto
        (c.compile program).recording ((c.compile program).ir.map .ir)).2 ∧
      ∀ e, (c.compile program).emission = .error e →
        (c.compile program).listing =
          (IR.header ++ (Traversal.visitAll { context := c } program).code).map .ir ∧
        IR.Instr.ret.render ∉ (c.compile program).listing.texts ∧
        ∀ i : Tiny.Instr, i.render ∉ (c.compile program).listing.texts := by
  refine ⟨fun s => ⟨?_, ?_, ?_, s.emit_eq_emitAtOnce⟩, fun s r => s.emitRecord_malformed,
    fun c program => ?_⟩
  · simp only [Session.emit_fst_eq_error_iff, Recording.exists_firstFault_iff]
  · intro e he
    exact ⟨Session.emit_fst_eq_error_iff.mp he, Session.emit_snd_of_error he⟩
  · intro hok r hr
    have hgood : ∀ q ∈ s.loaded.records, ¬ q.Malformed := by
      intro q hq hmal
      obtain ⟨e, he⟩ := Recording.exists_firstFault_iff.mpr ⟨q, hq, hmal⟩
      exact hok e (Session.emit_fst_eq_error_iff.mpr he)
    have hemit := Recording.emit_ne_error_of_mem_arrange hgood hr
    exact ⟨hemit, fun e => Emitter.run_record_fst (hemit e.registers)⟩
  · refine ⟨Context.exists_emission_error_iff, c.listing_compile_eq program, fun e he => ?_⟩
    have htexts := Context.texts_of_emission_error he
    refine ⟨?_, ?_, ?_⟩
    · rw [Compilation.listing, he, List.append_nil, c.compile_ir]
    · rw [htexts]
      exact c.render_ret_not_mem_ir program
    · intro i hi
      rw [htexts] at hi
      obtain ⟨j, -, hj⟩ := List.mem_map.mp hi
      exact j.render_ne_tiny i hj

/-- The grouped layout has the difference before the sum, but the sum is the first to be told. -/
def twoFaults : Session :=
  (Session.start {}).load
    { records := [.read ['a'], .arith .add [['a'], ['b'], ['c']] ['x'], .arith .sub [['a']] ['y']] }

theorem emission_fails_on_twoFaults :
    twoFaults.emit.1 = .error (.malformedOperands .add [['a'], ['b'], ['c']] ['x']) ∧
      twoFaults.loaded.FirstFault (.malformedOperands .add [['a'], ['b'], ['c']] ['x']) ∧
      twoFaults.emit.2 = twoFaults := by
  have he : twoFaults.emit.1 = .error (.malformedOperands .add [['a'], ['b'], ['c']] ['x']) := rfl
  exact ⟨he, (emission_fails_atomically.1 twoFaults).2.1 _ he⟩

end StraightLine
