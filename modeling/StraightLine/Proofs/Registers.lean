import StraightLine.Proofs.Failure
import StraightLine.Proofs.Layouts

/-!
# Registers that a program takes

Every assignment takes a register of its own, in whatever order code is emitted. The structural policy
accepts every assignment that the legacy policy accepts, so a program with code under the legacy policy
has code under the structural one, and takes no fewer registers there.
-/

namespace StraightLine

open Tiny (Registers)

/-! ## Registers of an emission -/

theorem Order.arrange_perm (order : Order) (records : List Record) :
    (order.arrange records).Perm records := by
  cases order with
  | program => exact .refl _
  | grouped =>
    induction records with
    | nil => exact .refl _
    | cons r records ih =>
      obtain ⟨pre, post, hsplit, hcons, -⟩ := arrange_grouped_cons r records
      rw [hcons]
      rw [hsplit] at ih
      exact List.perm_middle.trans (ih.cons r)

namespace Record

theorem taken_of_emit {r : Record} {rs rs' : Registers} {block : List Tiny.Instr}
    (h : r.emit rs = .ok (block, rs')) :
    rs'.taken = rs.taken + if r.needsRegister then 1 else 0 := by
  rw [(eq_of_emit h).2, Registers.after]
  split <;> rfl

theorem taken_of_emitAll {records : List Record} {rs rs' : Registers} {code : List Tiny.Instr}
    (h : emitAll rs records = .ok (code, rs')) :
    rs'.taken = rs.taken + records.countP (·.needsRegister) := by
  induction records generalizing rs code with
  | nil => cases h; rfl
  | cons r records ih =>
    obtain ⟨block, rs₁, code₁, hblock, hcode, rfl⟩ := emitAll_cons_ok h
    rw [ih hcode, taken_of_emit hblock, List.countP_cons]
    omega

end Record

namespace Recording

variable {m : Recording} {options : Options} {globals : SymbolTable} {e : Emission}

theorem exists_emitAll_of_emit (h : m.emit options globals = .ok e) :
    ∃ blocks rs, Record.emitAll { stem := options.registerStem } (options.order.arrange m.records) =
        .ok (blocks, rs) ∧
      e = ⟨globals.symbols.map Symbol.declaration ++ blocks ++ [.halt], rs.taken⟩ := by
  unfold Recording.emit at h
  cases hm : m.records.forM Record.check with
  | error e' => simp [hm, bind, Except.bind] at h
  | ok u =>
    cases hall : Record.emitAll { stem := options.registerStem } (options.order.arrange m.records) with
    | error e' => simp [hm, hall, bind, Except.bind] at h
    | ok p =>
      simp only [hm, hall, bind, Except.bind, pure, Except.pure, Except.ok.injEq] at h
      exact ⟨p.1, p.2, rfl, h.symm⟩

theorem registers_of_emit (h : m.emit options globals = .ok e) : e.registers = m.registerDemand := by
  obtain ⟨blocks, rs, hall, rfl⟩ := exists_emitAll_of_emit h
  have htaken := Record.taken_of_emitAll hall
  rw [(options.order.arrange_perm m.records).countP_eq, Nat.zero_add] at htaken
  exact htaken

end Recording

theorem Context.exists_emitAll {c : Context} {program : List Construct} {e : Emission}
    (h : (c.compile program).emission = .ok e) :
    ∃ blocks rs,
      Record.emitAll { stem := c.options.registerStem }
        (c.options.order.arrange (c.compile program).recording.records) = .ok (blocks, rs) ∧
      e = ⟨(c.compile program).context.scopes.root.symbols.symbols.map Symbol.declaration ++ blocks ++
        [.halt], rs.taken⟩ := by
  have hemit : (c.compile program).recording.emit (c.compile program).context.options
      (c.compile program).context.scopes.root.symbols = .ok e := h
  rw [options_compile] at hemit
  exact Recording.exists_emitAll_of_emit hemit

theorem Context.registers_of_emission {c : Context} {program : List Construct} {e : Emission}
    (h : (c.compile program).emission = .ok e) :
    e.registers = (c.compile program).recording.registerDemand :=
  Recording.registers_of_emit h

/-! ## Registers under the two policies -/

theorem Construct.countP_records_le (c : Construct) :
    (c.records .legacy).countP (·.needsRegister) ≤
      (c.records .structural).countP (·.needsRegister) := by
  cases c with
  | assign text =>
    cases hlegacy : Assignment.parse .legacy text with
    | error d => simp [records, hlegacy]
    | ok a =>
      obtain ⟨rhs, hstructural⟩ := Assignment.parse_structural_of_legacy hlegacy
      simp [records, hlegacy, hstructural, Assignment.needsRegister_record]
  | _ => exact Nat.le_refl _

theorem Construct.countP_flatMap_records_le (program : List Construct) :
    (program.flatMap (·.records .legacy)).countP (·.needsRegister) ≤
      (program.flatMap (·.records .structural)).countP (·.needsRegister) := by
  induction program with
  | nil => simp
  | cons c program ih =>
    simp only [List.flatMap_cons, List.countP_append]
    exact Nat.add_le_add c.countP_records_le ih

theorem Assignment.Miscounts.legacy {text : Text} (h : Miscounts .structural text) :
    Miscounts .legacy text := by
  obtain ⟨target, value, b, hsides, hparse, hlen⟩ := h
  obtain ⟨b', hparse'⟩ := parse_legacy_of_structural hparse
  exact ⟨target, value, b', hsides, hparse', hlen⟩

namespace Context

def under (c : Context) (policy : Policy) : Context :=
  { c with options := { c.options with policy } }

theorem scopes_compile_under (c : Context) (policy : Policy) (program : List Construct) :
    ((c.under policy).compile program).context.scopes =
      program.foldl (fun scopes d => scopes.declareAll d.symbols) c.scopes :=
  Traversal.visitAll_scopes (Traversal.enter { context := c.under policy }) program

theorem registers_compile_under {c : Context} {policy : Policy} {program : List Construct}
    {e : Emission} (h : ((c.under policy).compile program).emission = .ok e) :
    e.registers = (program.flatMap (·.records policy)).countP (·.needsRegister) := by
  rw [registers_of_emission h, Recording.registerDemand, records_compile]
  rfl

/-- A program that has code under the legacy policy has code under the structural policy, declares the
same symbols and takes no fewer registers. -/
theorem compile_structural_of_legacy (c : Context) (program : List Construct) {e : Emission}
    (h : ((c.under .legacy).compile program).emission = .ok e) :
    ∃ e', ((c.under .structural).compile program).emission = .ok e' ∧
      ((c.under .structural).compile program).context.scopes =
        ((c.under .legacy).compile program).context.scopes ∧
      e.registers ≤ e'.registers := by
  cases hs : ((c.under .structural).compile program).emission with
  | error err =>
    -- An assignment that fails here fails under the legacy policy too.
    obtain ⟨text, hmem, htext⟩ := exists_emission_error_iff.mp ⟨err, hs⟩
    obtain ⟨err', herr'⟩ : ∃ err', ((c.under .legacy).compile program).emission = .error err' :=
      exists_emission_error_iff.mpr ⟨text, hmem, htext.legacy⟩
    rw [h] at herr'
    cases herr'
  | ok e' =>
    refine ⟨e', rfl, ?_, ?_⟩
    · rw [scopes_compile_under, scopes_compile_under]
    · rw [registers_compile_under h, registers_compile_under hs]
      exact Construct.countP_flatMap_records_le program

/-- A sign alone is an operation without operands to the legacy policy and a value to the structural one,
and a sign before two operands is an operation to the first only. -/
def signs : List Construct :=
  [.assign "x := -".toList, .assign "y := + a b".toList, .assign "z := a * b".toList]

theorem compile_structural_signs :
    ∃ e e', (compile (under {} .legacy) signs).emission = .ok e ∧
      (compile (under {} .structural) signs).emission = .ok e' ∧ e.registers = 2 ∧ e'.registers = 3 ∧
      (compile (under {} .structural) signs).context.scopes =
        (compile (under {} .legacy) signs).context.scopes ∧
      e.registers ≤ e'.registers := by
  obtain ⟨e, he, hregs⟩ : ∃ e, (compile (under {} .legacy) signs).emission = .ok e ∧
      e.registers = 2 := ⟨_, rfl, rfl⟩
  obtain ⟨e', he', hscopes, hle⟩ := compile_structural_of_legacy {} signs he
  have hregs' : e'.registers = 3 := by
    rw [registers_compile_under he']
    decide
  exact ⟨e, e', he, he', hregs, hregs', hscopes, hle⟩

end Context

end StraightLine
