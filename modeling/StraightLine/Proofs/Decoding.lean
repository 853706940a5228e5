import StraightLine.Proofs.TextLaws
import StraightLine.Traversal

/-!
# Reading intermediate code back

Records can be read back from intermediate code alone: a decoder takes one to three instructions at a
time and gives the record they stand for. On the code of any traversal it gives the traversal's records.
-/

namespace StraightLine

namespace IR

variable {stem : Text}

/-- The records that a listing describes; `none` where it holds anything else. A value goes through a
numbered temporary into its target, and only a division may store its divisor before. -/
def decode (stem : Text) : List Instr → Option (List Record)
  | [] => some []
  | .read _ var :: code => (decode stem code).map (.read var :: ·)
  | .write _ var :: code => (decode stem code).map (.write var :: ·)
  | .writeNewline :: code => (decode stem code).map (.writeNewline :: ·)
  | .store _ value dest :: .store _ src target :: code =>
    if Text.Numbered stem dest ∧ src = dest then
      (decode stem code).map (.move value target :: ·)
    else none
  | .arith op _ operands dest :: .store _ src target :: code =>
    if Text.Numbered stem dest ∧ src = dest then
      (decode stem code).map (.arith op operands target :: ·)
    else none
  | .store _ _ divisor :: .arith .div _ operands dest :: .store _ src target :: code =>
    if Text.Numbered stem divisor ∧ Text.Numbered stem dest ∧ src = dest then
      (decode stem code).map (.arith .div operands target :: ·)
    else none
  | _ => none

/-- What is decoded first does not depend on what follows. -/
theorem decode_append {p : List Instr} {records : List Record} (h : decode stem p = some records)
    (q : List Instr) : decode stem (p ++ q) = (decode stem q).map (records ++ ·) := by
  fun_induction decode stem p generalizing records with
  | case1 =>
    cases h
    simp
  | case2 ty var code ih | case3 ty var code ih | case4 code ih =>
    obtain ⟨rest, hrest, rfl⟩ := Option.map_eq_some_iff.mp h
    rw [List.cons_append, decode, ih hrest, Option.map_map]
    rfl
  | case5 ty value dest ty' src target code hdest ih
  | case7 op ty operands dest ty' src target code hdest ih
  | case9 ty value divisor ty' operands dest ty'' src target code hdest ih =>
    obtain ⟨rest, hrest, rfl⟩ := Option.map_eq_some_iff.mp h
    simp only [List.cons_append]
    rw [decode, if_pos hdest, ih hrest, Option.map_map]
    rfl
  | case6 | case8 | case10 | case11 => cases h

theorem decode_map {α : Type} {f : α → Instr} {g : α → Record}
    (h : ∀ x, decode stem [f x] = some [g x]) (xs : List α) :
    decode stem (xs.map f) = some (xs.map g) := by
  induction xs with
  | nil => rfl
  | cons x xs ih =>
    have hx := decode_append (h x) (xs.map f)
    rw [ih] at hx
    exact hx

end IR

/-! ## One construct -/

theorem Binary.op_of_hasFloatDivisor {b : Binary} (h : b.hasFloatDivisor = true) : b.op = .div := by
  by_contra hop
  rw [hasFloatDivisor, divisor?, if_neg hop] at h
  cases h

namespace Effect

theorem numbered_temp (stem : Text) (n : Nat) : Text.Numbered stem (temp stem n) := ⟨n, rfl⟩

theorem decode_ofRead (stem : Text) (typeOf : Text → NumType) (names : Text) :
    IR.decode stem (ofRead typeOf names).code = some (ofRead typeOf names).records :=
  IR.decode_map (fun _ => rfl) _

theorem decode_ofWrite (stem : Text) (typeOf : Text → NumType) (names : Text) :
    IR.decode stem (ofWrite typeOf names).code = some (ofWrite typeOf names).records := by
  refine IR.decode_map (fun name => ?_) _
  rcases eq_or_ne name IR.newline with hname | hname
  · rw [writeInstr, writeRecord, if_pos hname, if_pos hname]
    rfl
  · rw [writeInstr, writeRecord, if_neg hname, if_neg hname]
    rfl

theorem decode_ofAssignment (stem : Text) (ty : NumType) (temps : Nat) (a : Assignment) :
    IR.decode stem (ofAssignment stem ty temps a).code =
      some (ofAssignment stem ty temps a).records := by
  obtain ⟨target, value | b⟩ := a
  · exact if_pos ⟨numbered_temp stem _, rfl⟩
  · cases hb : b.hasFloatDivisor with
    | false =>
      simp only [ofAssignment, hb]
      exact if_pos ⟨numbered_temp stem _, rfl⟩
    | true =>
      -- A divisor of its own is stored for divisions only, which is all the decoder accepts there.
      simp only [ofAssignment, hb, Binary.op_of_hasFloatDivisor hb]
      exact if_pos ⟨numbered_temp stem _, numbered_temp stem _, rfl⟩

theorem decode_ofAssign (options : Options) (typeOf : Text → NumType) (temps : Nat) (text : Text) :
    IR.decode options.tempStem (ofAssign options typeOf temps text).code =
      some (ofAssign options typeOf temps text).records := by
  rw [ofAssign]
  cases Assignment.parse options.policy text with
  | ok a => exact decode_ofAssignment _ _ _ a
  | error d => rfl

end Effect

theorem Construct.decode_effect (options : Options) (typeOf : Text → NumType) (temps : Nat)
    (c : Construct) :
    IR.decode options.tempStem (c.effect options typeOf temps).code =
      some (c.effect options typeOf temps).records := by
  cases c with
  | var type names =>
    rw [effect, Effect.ofVarDecl]
    cases Declaration.vars type names <;> rfl
  | string text => rfl
  | assign text => exact Effect.decode_ofAssign options typeOf temps text
  | read names => exact Effect.decode_ofRead _ typeOf names
  | write names => exact Effect.decode_ofWrite _ typeOf names

/-! ## A whole traversal -/

/-- What a traversal adds to its records is what can be read back from the code it adds. -/
theorem Traversal.visitAll_decodes (t : Traversal) (program : List Construct) :
    ∃ code records, (t.visitAll program).code = t.code ++ code ∧
      (t.visitAll program).records = t.records ++ records ∧
      IR.decode t.context.options.tempStem code = some records := by
  induction program generalizing t with
  | nil => exact ⟨[], [], (List.append_nil _).symm, (List.append_nil _).symm, rfl⟩
  | cons c program ih =>
    obtain ⟨code, records, hcode, hrecords, hdecode⟩ := ih (t.visit c)
    refine ⟨(t.effect c).code ++ code, (t.effect c).records ++ records, ?_, ?_, ?_⟩
    · rw [visitAll_cons, hcode, ← List.append_assoc]
      rfl
    · rw [visitAll_cons, hrecords, ← List.append_assoc]
      rfl
    · -- Visiting a construct leaves the options alone, so the stem stays the same.
      have hfirst := c.decode_effect t.context.options t.context.typeOf t.temps
      have hrest : IR.decode t.context.options.tempStem code = some records := hdecode
      rw [effect, IR.decode_append hfirst, hrest]
      rfl

end StraightLine
