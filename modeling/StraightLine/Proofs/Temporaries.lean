import StraightLine.Proofs.Availability
import StraightLine.Proofs.WellFormed

/-!
# Temporaries of intermediate code

An accepted assignment takes a temporary for its value, and one more before it for a divisor with a
decimal point. The count goes on over all calls of a traversal, whatever is rejected or taken between
them, so a temporary is defined once, and what uses it is the store that ends its own assignment.
-/

namespace StraightLine

open Effect (temp)

/-! ## Definitions and uses -/

namespace Assignment

def pointDivisor? : Assignment → Option Text
  | ⟨_, .value _⟩ => none
  | ⟨_, .binary b⟩ => if b.op = .div ∧ '.' ∈ b.rhs then some b.rhs else none

def temps (a : Assignment) : Nat := a.pointDivisor?.toList.length + 1

def inputs (a : Assignment) : List Text := a.pointDivisor?.toList ++ a.sources

end Assignment

namespace IR

def Instr.dest? : Instr → Option Text
  | arith _ _ _ dest | store _ _ dest => some dest
  | _ => none

def Instr.uses : Instr → List Text
  | arith _ _ operands _ => operands
  | store _ src _ => [src]
  | write _ var => [var]
  | _ => []

/-- The temporaries that the code of one call defines: its destinations but for the last instruction, which
stores into a target. -/
def temporaries (code : List Instr) : List Text := code.dropLast.filterMap Instr.dest?

/-- The code ends with a store into the target, of what the instruction before defines, and up to there it
uses nothing but the inputs of the assignment. -/
def Assigns (a : Assignment) (code : List Instr) : Prop :=
  ∃ before i ty temp, code = before ++ [i, .store ty temp a.target] ∧ i.dest? = some temp ∧
    ∀ j ∈ before ++ [i], j.uses ⊆ a.inputs

end IR

namespace Call

def assigned? (policy : Policy) : Call → Option Assignment
  | visit (.assign text) => (Assignment.parse policy text).toOption
  | _ => none

def temps (policy : Policy) (call : Call) : Nat := (call.assigned? policy).elim 0 Assignment.temps

/-- One for each accepted assignment, and one more for each divisor that is stored. -/
def tempsAll (policy : Policy) (calls : List Call) : Nat :=
  (calls.filterMap (·.assigned? policy)).length +
    (calls.filterMap (·.assigned? policy)).countP (·.pointDivisor?.isSome)

theorem tempsAll_cons (policy : Policy) (call : Call) (calls : List Call) :
    tempsAll policy (call :: calls) = call.temps policy + tempsAll policy calls := by
  unfold tempsAll temps
  cases h : call.assigned? policy with
  | none => simp [h]
  | some a =>
    cases hd : a.pointDivisor? <;> simp [h, hd, Assignment.temps] <;> omega

def texts (policy : Policy) : Call → List Text
  | visit (.read names) | visit (.write names) => Text.entries names
  | call => (call.assigned? policy).toList.flatMap fun a => a.target :: a.inputs

def Emits (policy : Policy) (call : Call) (code : List IR.Instr) : Prop :=
  match call.assigned? policy with
  | some a => IR.Assigns a code
  | none => ∀ i ∈ code, i.dest? = none ∧ i.uses ⊆ call.texts policy

end Call

/-! ## One assignment -/

theorem Binary.hasFloatDivisor_iff (b : Binary) :
    b.hasFloatDivisor = true ↔ b.op = .div ∧ '.' ∈ b.rhs := by
  unfold hasFloatDivisor divisor?
  by_cases h : b.op = .div <;> simp [h]

namespace Effect

variable (stem : Text) (ty : NumType) (n : Nat) (a : Assignment)

theorem ofAssignment_temps : (ofAssignment stem ty n a).temps = a.temps := by
  obtain ⟨target, value | b⟩ := a
  · rfl
  · by_cases h : b.op = .div ∧ '.' ∈ b.rhs <;>
      simp [ofAssignment, Assignment.temps, Assignment.pointDivisor?, b.hasFloatDivisor_iff, h]

theorem ofAssignment_code :
    ∃ i, i.dest? = some (temp stem (n + a.temps)) ∧ i.uses = a.sources ∧
      (ofAssignment stem ty n a).code =
        a.pointDivisor?.toList.map (.store ty · (temp stem (n + 1))) ++
          [i, .store ty (temp stem (n + a.temps)) a.target] := by
  obtain ⟨target, value | b⟩ := a
  · exact ⟨.store ty value (temp stem (n + 1)), rfl, rfl, rfl⟩
  · refine ⟨.arith b.op ty b.operands _, rfl, rfl, ?_⟩
    by_cases h : b.op = .div ∧ '.' ∈ b.rhs <;>
      simp [ofAssignment, Assignment.temps, Assignment.pointDivisor?, b.hasFloatDivisor_iff, h]

theorem temporaries_ofAssignment :
    IR.temporaries (ofAssignment stem ty n a).code = (List.range' (n + 1) a.temps).map (temp stem) := by
  obtain ⟨i, hdest, -, hcode⟩ := ofAssignment_code stem ty n a
  rw [hcode, IR.temporaries, Assignment.temps]
  rw [Assignment.temps] at hdest
  cases h : a.pointDivisor? <;> simp_all [IR.Instr.dest?, List.range'_succ]

theorem assigns_ofAssignment : IR.Assigns a (ofAssignment stem ty n a).code := by
  obtain ⟨i, hdest, huses, hcode⟩ := ofAssignment_code stem ty n a
  refine ⟨_, i, ty, _, hcode, hdest, ?_⟩
  intro j hj
  rcases List.mem_append.mp hj with hj | hj
  · obtain ⟨divisor, hdivisor, rfl⟩ := List.mem_map.mp hj
    simp [IR.Instr.uses, Assignment.inputs, hdivisor]
  · rw [List.mem_singleton.mp hj, huses]
    exact List.subset_append_right ..

end Effect

/-! ## One call -/

namespace Traversal

def emitted (t : Traversal) : Call → List IR.Instr
  | .enter => IR.header
  | .visit c => (t.effect c).code
  | .exit | .take => []

theorem code_call (t : Traversal) (call : Call) : (t.call call).code = t.code ++ t.emitted call := by
  cases call <;> simp [Traversal.call, emitted, enter, visit, apply, takeRecords]

theorem options_call (t : Traversal) (call : Call) :
    (t.call call).context.options = t.context.options := by
  cases call <;> rfl

section
variable {t : Traversal} {call : Call}

theorem emitted_of_assigned {a : Assignment}
    (h : call.assigned? t.context.options.policy = some a) :
    (t.call call).temps = t.temps + a.temps ∧
      t.emitted call = (Effect.ofAssignment t.context.options.tempStem (t.context.typeOf a.target)
        t.temps a).code := by
  unfold Call.assigned? at h
  split at h
  · rename_i text
    cases hparse : Assignment.parse t.context.options.policy text with
    | error d => rw [hparse] at h; cases h
    | ok a' =>
      rw [hparse] at h
      cases h
      refine ⟨?_, ?_⟩
      · rw [Traversal.call, visit_assign_eq hparse, apply, Effect.ofAssignment_temps]
      · simp only [emitted, effect, Construct.effect, Effect.ofAssign, hparse]
  · cases h

theorem emitted_of_not_assigned (h : call.assigned? t.context.options.policy = none) :
    (t.call call).temps = t.temps ∧
      ∀ i ∈ t.emitted call, i.dest? = none ∧ i.uses ⊆ call.texts t.context.options.policy := by
  cases call with
  | enter => exact ⟨rfl, by simp [emitted, IR.header, IR.Instr.dest?, IR.Instr.uses]⟩
  | exit | take => exact ⟨rfl, by simp [emitted]⟩
  | visit c =>
    cases c with
    | var type names =>
      obtain ⟨hcode, -, htemps⟩ := Effect.ofVarDecl_quiet type names
      simp [Traversal.call, visit, apply, emitted, effect, Construct.effect, hcode, htemps]
    | string text =>
      simp [Traversal.call, visit, apply, emitted, effect, Construct.effect, Effect.ofStringDecl]
    | assign text =>
      cases hparse : Assignment.parse t.context.options.policy text with
      | ok a => simp [Call.assigned?, hparse, Except.toOption] at h
      | error d =>
        simp [Traversal.call, visit, apply, emitted, effect, Construct.effect, Effect.ofAssign, hparse]
    | read names =>
      simp [Traversal.call, visit, apply, emitted, effect, Construct.effect, Effect.ofRead,
        IR.Instr.dest?, IR.Instr.uses]
    | write names =>
      refine ⟨rfl, ?_⟩
      intro i hi
      obtain ⟨name, hname, rfl⟩ := List.mem_map.mp hi
      by_cases hnewline : name = IR.newline <;>
        simp [Effect.writeInstr, hnewline, IR.Instr.dest?, IR.Instr.uses, Call.texts, hname]

end

theorem emits_emitted (t : Traversal) (call : Call) :
    call.Emits t.context.options.policy (t.emitted call) := by
  unfold Call.Emits
  cases h : call.assigned? t.context.options.policy with
  | some a =>
    simp only [(emitted_of_assigned h).2]
    exact Effect.assigns_ofAssignment ..
  | none => exact (emitted_of_not_assigned h).2

theorem temps_call (t : Traversal) (call : Call) :
    (t.call call).temps = t.temps + call.temps t.context.options.policy := by
  unfold Call.temps
  cases h : call.assigned? t.context.options.policy with
  | some a => exact (emitted_of_assigned h).1
  | none => exact (emitted_of_not_assigned h).1

theorem temporaries_emitted (t : Traversal) (call : Call) :
    IR.temporaries (t.emitted call) =
      (List.range' (t.temps + 1) (call.temps t.context.options.policy)).map
        (temp t.context.options.tempStem) := by
  unfold Call.temps
  cases h : call.assigned? t.context.options.policy with
  | some a => rw [(emitted_of_assigned h).2, Effect.temporaries_ofAssignment]; rfl
  | none =>
    have hnone : ∀ i ∈ (t.emitted call).dropLast, i.dest? = none := fun i hi =>
      ((emitted_of_not_assigned h).2 i (List.dropLast_subset _ hi)).1
    exact List.filterMap_eq_nil_iff.mpr hnone

/-! ## A run of calls -/

def emittedAll (t : Traversal) : List Call → List (List IR.Instr)
  | [] => []
  | call :: calls => t.emitted call :: (t.call call).emittedAll calls

theorem callAll_cons (t : Traversal) (call : Call) (calls : List Call) :
    t.callAll (call :: calls) = (t.call call).callAll calls := rfl

theorem code_callAll (t : Traversal) (calls : List Call) :
    (t.callAll calls).code = t.code ++ (t.emittedAll calls).flatten := by
  induction calls generalizing t with
  | nil => simp [callAll, emittedAll]
  | cons call calls ih =>
    rw [callAll_cons, ih, code_call, emittedAll, List.flatten_cons, List.append_assoc]

theorem emits_emittedAll (t : Traversal) (calls : List Call) :
    List.Forall₂ (Call.Emits t.context.options.policy) calls (t.emittedAll calls) := by
  induction calls generalizing t with
  | nil => exact .nil
  | cons call calls ih =>
    have hrest := ih (t.call call)
    rw [options_call] at hrest
    exact .cons (t.emits_emitted call) hrest

theorem temps_callAll (t : Traversal) (calls : List Call) :
    (t.callAll calls).temps = t.temps + Call.tempsAll t.context.options.policy calls := by
  induction calls generalizing t with
  | nil => rfl
  | cons call calls ih =>
    rw [callAll_cons, ih, options_call, temps_call, Call.tempsAll_cons, Nat.add_assoc]

/-- The numbers go on where the call before left off. -/
theorem temporaries_emittedAll (t : Traversal) (calls : List Call) :
    (t.emittedAll calls).flatMap IR.temporaries =
      (List.range' (t.temps + 1) (Call.tempsAll t.context.options.policy calls)).map
        (temp t.context.options.tempStem) := by
  induction calls generalizing t with
  | nil => rfl
  | cons call calls ih =>
    rw [emittedAll, List.flatMap_cons, ih, temporaries_emitted, options_call, temps_call,
      Nat.add_right_comm, ← List.map_append, List.range'_append_1, Call.tempsAll_cons]

end Traversal

/-! ## Temporaries by their names -/

namespace IR.Assigns

variable {a : Assignment} {code : List Instr}

theorem dests (h : Assigns a code) : code.filterMap Instr.dest? = temporaries code ++ [a.target] := by
  obtain ⟨before, i, ty, temp, rfl, hdest, -⟩ := h
  have hstore : (Instr.store ty temp a.target).dest? = some a.target := rfl
  simp [temporaries, hdest, hstore]

theorem flatMap_uses (h : Assigns a code) :
    ∃ inputs temp, code.flatMap Instr.uses = inputs ++ [temp] ∧ inputs ⊆ a.inputs ∧
      (temporaries code).getLast? = some temp := by
  obtain ⟨before, i, ty, temp, rfl, hdest, huses⟩ := h
  refine ⟨(before ++ [i]).flatMap Instr.uses, temp, ?_, ?_, ?_⟩
  · simp [Instr.uses]
  · intro x hx
    obtain ⟨j, hj, hx⟩ := List.mem_flatMap.mp hx
    exact huses j hj hx
  · simp [temporaries, hdest]

end IR.Assigns

theorem Call.texts_of_assigned {policy : Policy} {call : Call} {a : Assignment}
    (h : call.assigned? policy = some a) : call.texts policy = a.target :: a.inputs := by
  unfold texts
  split
  · cases h
  · cases h
  · simp [h]

section
variable {policy : Policy} {stem : Text} {call : Call} {code : List IR.Instr}

theorem Call.Emits.numbered (h : call.Emits policy code)
    (htemps : ∀ x ∈ IR.temporaries code, Text.Numbered stem x)
    (htexts : ∀ x ∈ call.texts policy, ¬ Text.Numbered stem x) :
    (code.filterMap IR.Instr.dest?).filter (Text.Numbered stem ·) = IR.temporaries code ∧
      (code.flatMap IR.Instr.uses).filter (Text.Numbered stem ·) =
        (IR.temporaries code).getLast?.toList := by
  unfold Emits at h
  cases hassigned : call.assigned? policy with
  | some a =>
    rw [hassigned] at h
    rw [texts_of_assigned hassigned, List.forall_mem_cons] at htexts
    obtain ⟨inputs, temp, huses, hinputs, hlast⟩ := h.flatMap_uses
    have hkeep : (IR.temporaries code).filter (Text.Numbered stem ·) = IR.temporaries code := by
      simpa using htemps
    have hdrop : inputs.filter (Text.Numbered stem ·) = [] := by
      simpa using fun x hx => htexts.2 x (hinputs hx)
    have htemp : Text.Numbered stem temp := htemps temp (List.mem_of_getLast? hlast)
    rw [h.dests, huses, hlast, List.filter_append, List.filter_append, hkeep, hdrop]
    simp [htexts.1, htemp]
  | none =>
    rw [hassigned] at h
    have hdests : code.filterMap IR.Instr.dest? = [] := by simpa using fun i hi => (h i hi).1
    have hnone : IR.temporaries code = [] := by
      simpa [IR.temporaries] using fun i hi => (h i (List.dropLast_subset _ hi)).1
    have huses : (code.flatMap IR.Instr.uses).filter (Text.Numbered stem ·) = [] := by
      simpa using fun x i hi hx => htexts x ((h i hi).2 hx)
    rw [hdests, hnone, huses]
    exact ⟨rfl, rfl⟩

theorem Call.Emits.numbered_all {calls : List Call} {codes : List (List IR.Instr)}
    (h : List.Forall₂ (Call.Emits policy) calls codes)
    (htemps : ∀ x ∈ codes.flatMap IR.temporaries, Text.Numbered stem x)
    (htexts : ∀ call ∈ calls, ∀ x ∈ call.texts policy, ¬ Text.Numbered stem x) :
    (codes.flatten.filterMap IR.Instr.dest?).filter (Text.Numbered stem ·) =
        codes.flatMap IR.temporaries ∧
      ∀ code ∈ codes, (code.flatMap IR.Instr.uses).filter (Text.Numbered stem ·) =
        (IR.temporaries code).getLast?.toList := by
  induction h with
  | nil => simp
  | @cons call code calls codes hcall _ ih =>
    rw [List.flatMap_cons, List.forall_mem_append] at htemps
    rw [List.forall_mem_cons] at htexts
    obtain ⟨hdests, huses⟩ := hcall.numbered htemps.1 htexts.1
    obtain ⟨hdests', huses'⟩ := ih htemps.2 htexts.2
    refine ⟨?_, List.forall_mem_cons.mpr ⟨huses, huses'⟩⟩
    rw [List.flatten_cons, List.filterMap_append, List.filter_append, hdests, hdests',
      List.flatMap_cons]

end

/-! ## Temporaries of a run -/

structure IR.TemporariesInOrder (options : Options) (calls : List Call) (codes : List (List Instr))
    (count : Nat) : Prop where
  emits : List.Forall₂ (Call.Emits options.policy) calls codes
  inOrder : codes.flatMap temporaries =
    (List.range' 1 count).map (options.tempStem ++ Text.numeral ·)
  distinct : (codes.flatMap temporaries).Nodup
  counted : count = (calls.filterMap (·.assigned? options.policy)).length +
    (calls.filterMap (·.assigned? options.policy)).countP (·.pointDivisor?.isSome)
  byName : (∀ call ∈ calls, ∀ x ∈ call.texts options.policy, ¬ Text.Numbered options.tempStem x) →
    (codes.flatten.filterMap Instr.dest?).filter (Text.Numbered options.tempStem ·) =
        codes.flatMap temporaries ∧
      ∀ code ∈ codes, (code.flatMap Instr.uses).filter (Text.Numbered options.tempStem ·) =
        (temporaries code).getLast?.toList

theorem Traversal.temporaries_of_run (c : Context) (calls : List Call) :
    (callAll { context := c } calls).code = (emittedAll { context := c } calls).flatten ∧
      IR.TemporariesInOrder c.options calls (emittedAll { context := c } calls)
        (callAll { context := c } calls).temps := by
  have htemps := temps_callAll { context := c } calls
  have horder := temporaries_emittedAll { context := c } calls
  have hemits := emits_emittedAll { context := c } calls
  rw [Nat.zero_add] at htemps horder
  rw [← htemps] at horder
  refine ⟨code_callAll .., hemits, horder, ?_, ?_, ?_⟩
  · rw [horder]
    exact Text.nodup_numbered _ List.nodup_range'
  · exact htemps
  · apply Call.Emits.numbered_all hemits
    rw [horder]
    intro x hx
    obtain ⟨k, -, rfl⟩ := List.mem_map.mp hx
    exact ⟨k, rfl⟩

/-- Records are taken and an assignment is rejected between two that are accepted. -/
def Traversal.interrupted : List Call :=
  [.enter, .visit (.assign "x := 1.5".toList), .take, .visit (.assign "x := y := 2".toList),
    .visit (.assign "y := x / 0.5".toList), .visit (.write "y, newline".toList), .exit]

theorem Traversal.temporaries_of_interrupted :
    IR.TemporariesInOrder {} interrupted (emittedAll { context := {} } interrupted) 3 ∧
      ((callAll { context := {} } interrupted).code.filterMap IR.Instr.dest?).filter
        (Text.Numbered "$T".toList ·) = ["$T1".toList, "$T2".toList, "$T3".toList] := by
  obtain ⟨hcode, h⟩ := temporaries_of_run {} interrupted
  have htexts : ∀ call ∈ interrupted, ∀ x ∈ call.texts .legacy, ¬ Text.Numbered "$T".toList x := by
    decide
  refine ⟨h, ?_⟩
  rw [hcode]
  exact (h.byName htexts).1.trans h.inOrder

end StraightLine
