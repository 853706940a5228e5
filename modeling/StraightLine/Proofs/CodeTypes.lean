import StraightLine.Proofs.Acceptance
import StraightLine.Proofs.Declared

/-!
# Types in intermediate code

The types in the code of a statement are those that the declarations before it leave: a name has type
`FLOAT` where it was declared last as such a variable, and type `INT` in all other cases, as a string
constant or without any declaration too.
-/

namespace StraightLine

/-! ## The type of a name -/

theorem ScopeStack.current_foldl_declareAll (s : ScopeStack) (program : List Construct) :
    (program.foldl (fun scopes c => scopes.declareAll c.symbols) s).current.symbols =
      s.current.symbols.insertAll (Construct.declared program) := by
  induction program generalizing s with
  | nil => rfl
  | cons c program ih =>
    rw [List.foldl_cons, ih, declareAll, current_modifyCurrent, ← SymbolTable.insertAll_append]
    rfl

def Construct.typeAfter (program : List Construct) (name : Text) : NumType :=
  if Symbol.lastNamed? (declared program) name = some ⟨name, .num .float⟩ then .float else .int

theorem Construct.typeAfter_eq (program : List Construct) (name : Text) :
    typeAfter program name =
      ((Symbol.lastNamed? (declared program) name).bind (·.numType?)).getD .int := by
  unfold typeAfter
  cases h : Symbol.lastNamed? (declared program) name with
  | none => simp
  | some s =>
    have hname := Symbol.name_of_lastNamed? h
    obtain ⟨n, ty | literal⟩ := s
    · cases ty <;> simp_all [Symbol.numType?]
    · simp [Symbol.numType?]

namespace Traversal

theorem typeOf_visitAll (options : Options) (program : List Construct) (name : Text) :
    (visitAll (enter { context := { options } }) program).context.typeOf name =
      Construct.typeAfter program name := by
  rw [Context.typeOf, ScopeStack.numType?, visitAll_scopes, ScopeStack.current_foldl_declareAll,
    Construct.typeAfter_eq, ← SymbolTable.get?_insertAll]
  rfl

-- The later list of variables counts, a string hides a variable, and what is rejected hides nothing.
example :
    ["a".toList, "b".toList, "c".toList].map (Construct.typeAfter
      [.var "INT".toList "a, b".toList, .var "FLOAT".toList "b ,c, a".toList,
        .string "STRING c := \"1.0\", b \"x\";".toList, .var "REAL".toList "a".toList]) =
      [.float, .float, .int] := by decide

end Traversal

/-! ## The code of a construct -/

def IR.Instr.type? : Instr → Option NumType
  | read ty _ | write ty _ | arith _ ty _ _ | store ty _ _ => some ty
  | start | label _ | link | ret | tinyCode | writeNewline => none

/-- The code of a construct has the types that `typeOf` gives: of each name in a list, and of the target
throughout an accepted assignment. -/
def Construct.Typed (policy : Policy) (typeOf : Text → NumType) :
    Construct → List IR.Instr → Prop
  | var _ _, code | string _, code => code = []
  | read names, code => code = (Text.entries names).map fun name => .read (typeOf name) name
  | write names, code => code = (Text.entries names).map fun name =>
      if name = IR.newline then .writeNewline else .write (typeOf name) name
  | assign text, code =>
    match Assignment.parse policy text with
    | .ok a => (code.length = 2 ∨ code.length = 3) ∧ ∀ i ∈ code, i.type? = some (typeOf a.target)
    | .error _ => code = []

theorem Construct.typed_effect (options : Options) (typeOf : Text → NumType) (temps : Nat)
    (c : Construct) : c.Typed options.policy typeOf (c.effect options typeOf temps).code := by
  cases c with
  | var type names => exact (Effect.ofVarDecl_quiet type names).1
  | string text => rfl
  | read names => rfl
  | write names => rfl
  | assign text =>
    simp only [Typed, effect, Effect.ofAssign]
    cases hparse : Assignment.parse options.policy text with
    | error d => rfl
    | ok a =>
      exact ⟨(Effect.length_code_ofAssignment ..).2,
        Effect.forall_mem_ofAssignment (fun _ _ => rfl) fun _ _ _ => rfl⟩

/-! ## Programs -/

namespace Context

/-- Each construct adds code with the types that names have after the constructs before it. -/
theorem ir_typed (options : Options) (before : List Construct) (c : Construct)
    (after : List Construct) :
    ∃ code rest, (compile { options } (before ++ [c])).ir = (compile { options } before).ir ++ code ∧
      (compile { options } (before ++ c :: after)).ir =
        (compile { options } before).ir ++ code ++ rest ∧
      c.Typed options.policy (Construct.typeAfter before) code := by
  let start : Traversal := Traversal.enter { context := { options } }
  let t := start.visitAll before
  have hir : ∀ program, (compile { options } program).ir = (start.visitAll program).code := fun _ => rfl
  have hcode : (start.visitAll (before ++ [c])).code = t.code ++ (t.effect c).code := by
    rw [Traversal.visitAll_append]
    rfl
  refine ⟨(t.effect c).code, (Traversal.visitAll { t.visit c with code := [] } after).code, hcode, ?_, ?_⟩
  · rw [hir, hir, Traversal.visitAll_append, Traversal.visitAll_cons, Traversal.visitAll_code]
    rfl
  · have htype : t.context.typeOf = Construct.typeAfter before :=
      funext (Traversal.typeOf_visitAll options before)
    have hoptions : t.context.options = options := start.visitAll_options before
    rw [Traversal.effect, htype, hoptions]
    exact c.typed_effect options _ t.temps

end Context

end StraightLine
