import StraightLine.Proofs.Lines

/-!
# Interleavings of declarations and statements

Declarations emit nothing and statements declare nothing. What a statement leaves depends on the
declarations before it only through the types in its intermediate code, so two programs with the same
declarations and the same statements differ in those types alone.
-/

namespace StraightLine

/-! ## Code without its types -/

namespace IR.Instr

def untyped : Instr → Instr
  | read _ var => read .int var
  | write _ var => write .int var
  | arith op _ operands dest => arith op .int operands dest
  | store _ src dest => store .int src dest
  | i => i

theorem untyped_untyped (i : Instr) : i.untyped.untyped = i.untyped := by
  cases i <;> rfl

theorem map_untyped_untyped (code : List Instr) :
    (code.map untyped).map untyped = code.map untyped := by
  simp [untyped_untyped]

end IR.Instr

namespace Effect

theorem ofAssignment_untyped (stem : Text) (ty ty' : NumType) (temps : Nat) (a : Assignment) :
    (ofAssignment stem ty temps a).code.map IR.Instr.untyped =
        (ofAssignment stem ty' temps a).code.map IR.Instr.untyped ∧
      (ofAssignment stem ty temps a).temps = (ofAssignment stem ty' temps a).temps := by
  obtain ⟨target, value | b⟩ := a
  · exact ⟨rfl, rfl⟩
  · by_cases hb : b.hasFloatDivisor = true
    · simp [ofAssignment, hb, IR.Instr.untyped]
    · simp [ofAssignment, hb, IR.Instr.untyped]

theorem writeInstr_untyped (typeOf typeOf' : Text → NumType) (name : Text) :
    (writeInstr typeOf name).untyped = (writeInstr typeOf' name).untyped := by
  by_cases hname : name = IR.newline <;> simp [writeInstr, hname, IR.Instr.untyped]

end Effect

/-- The types that names have show in nothing but the types of the code. -/
theorem Construct.effect_untyped (c : Construct) (options : Options)
    (typeOf typeOf' : Text → NumType) (temps : Nat) :
    (c.effect options typeOf temps).code.map IR.Instr.untyped =
        (c.effect options typeOf' temps).code.map IR.Instr.untyped ∧
      (c.effect options typeOf temps).temps = (c.effect options typeOf' temps).temps := by
  cases c with
  | var type names => exact ⟨rfl, rfl⟩
  | string text => exact ⟨rfl, rfl⟩
  | assign text =>
    simp only [effect, Effect.ofAssign]
    cases Assignment.parse options.policy text with
    | ok a => exact Effect.ofAssignment_untyped _ _ _ temps a
    | error d => exact ⟨rfl, rfl⟩
  | read names => simp [effect, Effect.ofRead, IR.Instr.untyped]
  | write names =>
    simp only [effect, Effect.ofWrite, List.map_map, and_true]
    apply List.map_congr_left
    intro name _
    exact Effect.writeInstr_untyped typeOf typeOf' name

/-! ## What declarations and statements leave alone -/

namespace Traversal

/-- The traversal without scopes, diagnostics and the types of its code. -/
def skeleton (t : Traversal) : Traversal where
  context := { options := t.context.options }
  code := t.code.map IR.Instr.untyped
  records := t.records
  temps := t.temps

theorem skeleton_visit (t : Traversal) (c : Construct) :
    (t.visit c).skeleton = (t.skeleton.visit c).skeleton := by
  obtain ⟨hcode, htemps⟩ := c.effect_untyped t.context.options t.context.typeOf
    t.skeleton.context.typeOf t.temps
  simp only [skeleton, visit, apply, effect, c.effect_records, List.map_append,
    IR.Instr.map_untyped_untyped]
  simp only [skeleton] at hcode htemps
  rw [hcode, htemps]

/-- A declaration changes the context only. -/
theorem visit_declaration (t : Traversal) {c : Construct} (h : c.isDeclaration = true) :
    t.visit c = { t with context := (t.visit c).context } := by
  cases c with
  | var type names =>
    obtain ⟨hcode, hrecords, htemps⟩ := Effect.ofVarDecl_quiet type names
    simp [visit, apply, effect, Construct.effect, hcode, hrecords, htemps]
  | string text => simp [visit, apply, effect, Construct.effect, Effect.ofStringDecl]
  | _ => cases h

theorem skeleton_visit_declaration (t : Traversal) {c : Construct} (h : c.isDeclaration = true) :
    (t.visit c).skeleton = t.skeleton := by
  rw [t.visit_declaration h]
  rfl

theorem skeleton_visitAll (t : Traversal) (program : List Construct) :
    (t.visitAll program).skeleton = (t.visitAll (program.filter (·.isStatement))).skeleton := by
  apply visitAll_filter skeleton (·.isStatement) t
  · intro s s' c h
    rw [skeleton_visit, h, ← skeleton_visit]
  · intro s c _ hc
    exact s.skeleton_visit_declaration (by simpa [Construct.isStatement] using hc)

end Traversal

theorem Construct.symbols_of_statement {c : Construct} (h : c.isDeclaration = false) :
    c.symbols = [] := by
  cases c with
  | var type names => cases h
  | string text => cases h
  | _ => rfl

theorem Traversal.visitAll_scopes_declarations (t : Traversal) (program : List Construct) :
    (t.visitAll program).context.scopes =
      (t.visitAll (program.filter (·.isDeclaration))).context.scopes := by
  apply visitAll_filter (·.context.scopes) (·.isDeclaration) t
  · intro s s' c h
    rw [visit_scopes, visit_scopes, h]
  · intro s c _ hc
    rw [visit_scopes, Construct.symbols_of_statement hc, ScopeStack.declareAll_nil]

/-! ## Compilations -/

/-- However the same declarations and the same statements are interleaved, a compilation differs at most
in the types of its intermediate code and in the order of its diagnostics. -/
theorem Context.compile_interleaved (c : Context) {p q : List Construct}
    (hdecl : p.filter (·.isDeclaration) = q.filter (·.isDeclaration))
    (hstmt : p.filter (·.isStatement) = q.filter (·.isStatement)) :
    (c.compile p).recording = (c.compile q).recording ∧
      (c.compile p).emission = (c.compile q).emission ∧
      (c.compile p).context.scopes = (c.compile q).context.scopes ∧
      (∀ code, Diagnostic.count code (c.compile p).context.diagnostics =
        Diagnostic.count code (c.compile q).context.diagnostics) ∧
      (c.compile p).listing.fromReturn = (c.compile q).listing.fromReturn ∧
      (c.compile p).ir.map IR.Instr.untyped = (c.compile q).ir.map IR.Instr.untyped := by
  let t := Traversal.enter { context := c }
  have hskeleton : (t.visitAll p).skeleton = (t.visitAll q).skeleton := by
    rw [t.skeleton_visitAll p, t.skeleton_visitAll q, hstmt]
  have hscopes : (t.visitAll p).context.scopes = (t.visitAll q).context.scopes := by
    rw [t.visitAll_scopes_declarations p, t.visitAll_scopes_declarations q, hdecl]
  have hdiag : (t.visitAll p).context.diagnostics.Perm (t.visitAll q).context.diagnostics := by
    have hp := t.diagnostics_visitAll_filter (·.isDeclaration) p
    have hq := t.diagnostics_visitAll_filter (·.isDeclaration) q
    have hrest : p.filter (!·.isDeclaration) = q.filter (!·.isDeclaration) := hstmt
    rw [hdecl, hrest] at hp
    exact hp.trans hq.symm
  have hrecording : (c.compile p).recording = (c.compile q).recording :=
    (congrArg Traversal.recording hskeleton :)
  have hemission := emission_congr hscopes hrecording
  refine ⟨hrecording, hemission, hscopes, fun code => hdiag.countP_eq _, ?_, ?_⟩
  · rw [c.fromReturn_compile, c.fromReturn_compile, hemission]
  · exact (congrArg Traversal.code hskeleton :)

def declaredFirst : List Construct :=
  [.var "FLOAT".toList "x".toList, .string "s".toList, .read "x".toList,
    .assign "x := x / 2.0".toList]

def declaredLast : List Construct :=
  [.read "x".toList, .assign "x := x / 2.0".toList, .var "FLOAT".toList "x".toList,
    .string "s".toList]

theorem Context.compile_declared_last :
    declaredFirst.filter (·.isDeclaration) = declaredLast.filter (·.isDeclaration) ∧
      declaredFirst.filter (·.isStatement) = declaredLast.filter (·.isStatement) ∧
      (compile {} declaredFirst).ir ≠ (compile {} declaredLast).ir ∧
      (compile {} declaredFirst).recording = (compile {} declaredLast).recording ∧
      (compile {} declaredFirst).emission = (compile {} declaredLast).emission ∧
      (compile {} declaredFirst).context.scopes = (compile {} declaredLast).context.scopes ∧
      (∀ code, Diagnostic.count code (compile {} declaredFirst).context.diagnostics =
        Diagnostic.count code (compile {} declaredLast).context.diagnostics) ∧
      (compile {} declaredFirst).listing.fromReturn = (compile {} declaredLast).listing.fromReturn ∧
      (compile {} declaredFirst).ir.map IR.Instr.untyped =
        (compile {} declaredLast).ir.map IR.Instr.untyped := by
  have hdecl : declaredFirst.filter (·.isDeclaration) = declaredLast.filter (·.isDeclaration) := rfl
  have hstmt : declaredFirst.filter (·.isStatement) = declaredLast.filter (·.isStatement) := rfl
  exact ⟨hdecl, hstmt, by decide, compile_interleaved {} hdecl hstmt⟩

end StraightLine
