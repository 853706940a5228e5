import StraightLine.Compilation

/-!
# What constructs contribute

Symbols, diagnostics and records of a construct depend on its text and the policy alone; only its code
depends on how far the traversal has come. So a traversal adds them up, and a view of a traversal that
some constructs leave alone can be had without them.
-/

namespace StraightLine

/-! ## Assignments -/

namespace Assignment

def sides? (text : Text) : Option (Text × Text) :=
  match (Text.splitOnBecomes (Text.unterminated text)).map Text.trim with
  | [target, value] => some (target, value)
  | _ => none

def record : Assignment → Record
  | ⟨target, .value value⟩ => .move value target
  | ⟨target, .binary b⟩ => .arith b.op b.operands target

theorem needsRegister_record (a : Assignment) : a.record.needsRegister = true := by
  obtain ⟨target, value | b⟩ := a <;> rfl

theorem parse_eq (policy : Policy) (text : Text) :
    parse policy text =
      match sides? text with
      | some (target, value) =>
        if target.isEmpty || (Rhs.classify policy value).isEmpty then
          .error (.invalidAssignment (Text.unterminated text))
        else .ok ⟨target, Rhs.classify policy value⟩
      | none => .error (.invalidAssignment (Text.unterminated text)) := by
  unfold parse sides?
  simp only
  generalize (Text.splitOnBecomes (Text.unterminated text)).map Text.trim = pieces
  rcases pieces with _ | ⟨_, _ | ⟨_, _ | _⟩⟩ <;> rfl

theorem parse_eq_ok_iff {policy : Policy} {text : Text} {a : Assignment} :
    parse policy text = .ok a ↔
      ∃ value, sides? text = some (a.target, value) ∧ a.target ≠ [] ∧
        a.rhs = Rhs.classify policy value ∧ a.rhs.isEmpty = false := by
  rw [parse_eq]
  cases hs : sides? text with
  | none => simp
  | some sides =>
    obtain ⟨target, value⟩ := sides
    obtain ⟨target', rhs⟩ := a
    simp only [Option.some.injEq, Prod.mk.injEq]
    constructor
    · intro h
      split at h
      · cases h
      · rename_i hne
        simp only [Bool.or_eq_true, List.isEmpty_iff, not_or, Bool.not_eq_true] at hne
        cases h
        exact ⟨value, ⟨rfl, rfl⟩, hne.1, rfl, hne.2⟩
    · intro h
      obtain ⟨_, ⟨rfl, rfl⟩, htarget, rfl, hrhs⟩ := h
      simp [htarget, hrhs]

theorem eq_of_parse_error {policy : Policy} {text : Text} {d : Diagnostic}
    (h : parse policy text = .error d) : d = .invalidAssignment (Text.unterminated text) := by
  rw [parse_eq] at h
  split at h
  · split at h
    · cases h; rfl
    · cases h
  · cases h; rfl

end Assignment

/-! ## One construct -/

namespace Effect

theorem ofVarDecl_quiet (type names : Text) :
    (ofVarDecl type names).code = [] ∧ (ofVarDecl type names).records = [] ∧
      (ofVarDecl type names).temps = 0 := by
  unfold ofVarDecl
  split <;> simp

theorem ofAssignment_parts (stem : Text) (ty : NumType) (temps : Nat) (a : Assignment) :
    (ofAssignment stem ty temps a).symbols = [] ∧
      (ofAssignment stem ty temps a).diagnostics = [] ∧
      (ofAssignment stem ty temps a).records = [a.record] := by
  obtain ⟨target, value | b⟩ := a <;> exact ⟨rfl, rfl, rfl⟩

/-- All instructions of an assignment are of two kinds and of one type. -/
theorem forall_mem_ofAssignment {stem : Text} {ty : NumType} {temps : Nat} {a : Assignment}
    {P : IR.Instr → Prop} (hstore : ∀ src dest, P (.store ty src dest))
    (harith : ∀ op operands dest, P (.arith op ty operands dest)) :
    ∀ i ∈ (ofAssignment stem ty temps a).code, P i := by
  obtain ⟨target, value | b⟩ := a
  · simp [ofAssignment, hstore]
  · by_cases hb : b.hasFloatDivisor = true <;> simp [ofAssignment, hb, hstore, harith]

end Effect

namespace Construct

def isDeclaration : Construct → Bool
  | var _ _ | string _ => true
  | assign _ | read _ | write _ => false

def isStatement (c : Construct) : Bool := !c.isDeclaration

def symbols : Construct → List Symbol
  | var type names => (Effect.ofVarDecl type names).symbols
  | string text => (Effect.ofStringDecl text).symbols
  | assign _ | read _ | write _ => []

def diagnostics (policy : Policy) : Construct → List Diagnostic
  | var type names => (Effect.ofVarDecl type names).diagnostics
  | string text => (Effect.ofStringDecl text).diagnostics
  | assign text =>
    match Assignment.parse policy text with
    | .ok _ => []
    | .error d => [d]
  | read _ | write _ => []

def records (policy : Policy) : Construct → List Record
  | var _ _ | string _ => []
  | assign text =>
    match Assignment.parse policy text with
    | .ok a => [a.record]
    | .error _ => []
  | read names => (Text.entries names).map .read
  | write names => (Text.entries names).map Effect.writeRecord

section
variable (c : Construct) (options : Options) (typeOf : Text → NumType) (temps : Nat)

theorem effect_symbols : (c.effect options typeOf temps).symbols = c.symbols := by
  cases c with
  | assign text =>
    simp only [effect, Effect.ofAssign, symbols]
    cases Assignment.parse options.policy text with
    | ok a => exact (Effect.ofAssignment_parts ..).1
    | error d => rfl
  | _ => rfl

theorem effect_diagnostics :
    (c.effect options typeOf temps).diagnostics = c.diagnostics options.policy := by
  cases c with
  | assign text =>
    simp only [effect, Effect.ofAssign, diagnostics]
    cases Assignment.parse options.policy text with
    | ok a => exact (Effect.ofAssignment_parts ..).2.1
    | error d => rfl
  | _ => rfl

theorem effect_records : (c.effect options typeOf temps).records = c.records options.policy := by
  cases c with
  | var type names => exact (Effect.ofVarDecl_quiet type names).2.1
  | assign text =>
    simp only [effect, Effect.ofAssign, records]
    cases Assignment.parse options.policy text with
    | ok a => exact (Effect.ofAssignment_parts ..).2.2
    | error d => rfl
  | _ => rfl

end

end Construct

/-! ## A whole traversal -/

theorem ScopeStack.declareAll_nil (s : ScopeStack) : s.declareAll [] = s := by
  obtain ⟨root, inner, nextId⟩ := s
  cases inner <;> rfl

namespace Traversal

theorem visitAll_options (t : Traversal) (program : List Construct) :
    (t.visitAll program).context.options = t.context.options := by
  induction program generalizing t with
  | nil => rfl
  | cons c program ih => exact ih (t.visit c)

theorem visit_scopes (t : Traversal) (c : Construct) :
    (t.visit c).context.scopes = t.context.scopes.declareAll c.symbols := by
  simp only [visit, apply, effect, c.effect_symbols]

theorem visitAll_scopes (t : Traversal) (program : List Construct) :
    (t.visitAll program).context.scopes =
      program.foldl (fun scopes c => scopes.declareAll c.symbols) t.context.scopes := by
  induction program generalizing t with
  | nil => rfl
  | cons c program ih => rw [visitAll_cons, ih, visit_scopes, List.foldl_cons]

theorem visitAll_diagnostics (t : Traversal) (program : List Construct) :
    (t.visitAll program).context.diagnostics =
      t.context.diagnostics ++ program.flatMap (·.diagnostics t.context.options.policy) := by
  induction program generalizing t with
  | nil => simp
  | cons c program ih =>
    have hc : (t.visit c).context.diagnostics =
        t.context.diagnostics ++ c.diagnostics t.context.options.policy := by
      simp only [visit, apply, effect, c.effect_diagnostics]
    rw [visitAll_cons, ih, hc, List.flatMap_cons, List.append_assoc]
    rfl

theorem visitAll_records (t : Traversal) (program : List Construct) :
    (t.visitAll program).records =
      t.records ++ program.flatMap (·.records t.context.options.policy) := by
  induction program generalizing t with
  | nil => simp
  | cons c program ih =>
    have hc : (t.visit c).records = t.records ++ c.records t.context.options.policy := by
      simp only [visit, apply, effect, c.effect_records]
    rw [visitAll_cons, ih, hc, List.flatMap_cons, List.append_assoc]
    rfl

/-- What was emitted before has no part in what comes. -/
theorem visitAll_code (t : Traversal) (program : List Construct) :
    (t.visitAll program).code = t.code ++ ({ t with code := [] }.visitAll program).code := by
  induction program generalizing t with
  | nil => simp
  | cons c program ih =>
    rw [visitAll_cons, visitAll_cons, ih, ih (visit { t with code := [] } c)]
    simp [visit, apply, effect]

/-- A view that does not show the constructs outside `keep` is had without them. -/
theorem visitAll_filter {α : Type} (view : Traversal → α) (keep : Construct → Bool) (t : Traversal)
    (hstep : ∀ s s' c, view s = view s' → view (s.visit c) = view (s'.visit c))
    (hskip : ∀ s c, s.context.options = t.context.options → keep c = false →
      view (s.visit c) = view s)
    (program : List Construct) :
    view (t.visitAll program) = view (t.visitAll (program.filter keep)) := by
  -- The two traversals part at the first construct that is left out and stay alike in the view.
  have key : ∀ s s' : Traversal, s.context.options = t.context.options → view s = view s' →
      view (s.visitAll program) = view (s'.visitAll (program.filter keep)) := by
    induction program with
    | nil => exact fun _ _ _ h => h
    | cons c program ih =>
      intro s s' hs h
      by_cases hc : keep c = true
      · rw [List.filter_cons_of_pos hc, visitAll_cons, visitAll_cons]
        exact ih _ _ hs (hstep s s' c h)
      · rw [List.filter_cons_of_neg hc, visitAll_cons]
        exact ih _ _ hs ((hskip s c hs (by simpa using hc)).trans h)
  exact key t t rfl rfl

theorem diagnostics_visitAll_filter (t : Traversal) (keep : Construct → Bool)
    (program : List Construct) :
    (t.visitAll program).context.diagnostics.Perm
      ((t.visitAll (program.filter keep)).context.diagnostics ++
        (program.filter (!keep ·)).flatMap (·.diagnostics t.context.options.policy)) := by
  rw [visitAll_diagnostics, visitAll_diagnostics, List.append_assoc, ← List.flatMap_append]
  exact ((List.filter_append_perm keep program).symm.flatMap_right _).append_left _

end Traversal

namespace Context

theorem records_compile (c : Context) (program : List Construct) :
    (c.compile program).recording.records = program.flatMap (·.records c.options.policy) :=
  Traversal.visitAll_records (Traversal.enter { context := c }) program

theorem options_compile (c : Context) (program : List Construct) :
    (c.compile program).context.options = c.options :=
  Traversal.visitAll_options (Traversal.enter { context := c }) program

/-- Programs compiled in one context have the same code if they leave the same scopes and records. -/
theorem emission_congr {c : Context} {p q : List Construct}
    (hscopes : (c.compile p).context.scopes = (c.compile q).context.scopes)
    (hrecording : (c.compile p).recording = (c.compile q).recording) :
    (c.compile p).emission = (c.compile q).emission := by
  have hemission : ∀ program, (c.compile program).emission =
      (c.compile program).recording.emit (c.compile program).context.options
        (c.compile program).context.scopes.root.symbols := fun _ => rfl
  rw [hemission, hemission, options_compile, options_compile, hscopes, hrecording]

end Context

end StraightLine
