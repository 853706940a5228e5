import StraightLine.Proofs.Interleaving
import StraightLine.Proofs.Rejection

/-!
# Programs compiled one after the other

A program finds the symbols of the programs before it declared and their diagnostics still to be told,
and nothing else of them is left. So it compiles as if their declarations stood in front of it.
-/

namespace StraightLine

/-! ## Compilations without their diagnostics -/

def Context.silent (c : Context) : Context := { c with diagnostics := [] }

def Compilation.silent (c : Compilation) : Compilation := { c with context := c.context.silent }

namespace Traversal

theorem silent_visitAll_congr {t t' : Traversal} (h : t.silent = t'.silent)
    (program : List Construct) : (t.visitAll program).silent = (t'.visitAll program).silent := by
  induction program generalizing t t' with
  | nil => exact h
  | cons c program ih =>
    apply ih
    rw [silent_visit, h, ← silent_visit]

theorem visitAll_declarations (t : Traversal) {ds : List Construct}
    (h : ∀ d ∈ ds, d.isDeclaration = true) :
    t.visitAll ds = { t with context := (t.visitAll ds).context } := by
  induction ds generalizing t with
  | nil => rfl
  | cons d ds ih =>
    have hd := t.visit_declaration (h d (by simp))
    rw [visitAll_cons, ih (t.visit d) fun d' hd' => h d' (by simp [hd']), hd]

end Traversal

namespace Context

theorem silent_compile_eq {c c' : Context} {p p' : List Construct}
    (h : ((Traversal.enter { context := c }).visitAll p).silent =
      ((Traversal.enter { context := c' }).visitAll p').silent) :
    (c.compile p).silent = (c'.compile p').silent :=
  -- Emission looks at the scopes and the options of the context only.
  congrArg (fun t : Traversal =>
    Compilation.mk t.context t.code t.recording (t.context.emit t.recording)) h

/-! ## Declarations in front of a program -/

/-- To compile a program where only declarations were compiled before is to compile it with them in
front. -/
theorem silent_compile_append (c : Context) {ds : List Construct}
    (h : ∀ d ∈ ds, d.isDeclaration = true) {c' : Context}
    (hc' : c'.silent = (c.compile ds).context.silent) (p : List Construct) :
    (c'.compile p).silent = (c.compile (ds ++ p)).silent := by
  apply silent_compile_eq
  rw [Traversal.visitAll_append, Traversal.visitAll_declarations _ h]
  apply Traversal.silent_visitAll_congr
  exact congrArg (fun c => Traversal.enter { context := c }) hc'

theorem context_compile_declarations (c : Context) (p : List Construct) :
    (c.compile p).context.silent = (c.compile (p.filter (·.isDeclaration))).context.silent := by
  have hscopes : (c.compile p).context.scopes =
      (c.compile (p.filter (·.isDeclaration))).context.scopes :=
    Traversal.visitAll_scopes_declarations _ p
  unfold silent
  rw [hscopes, options_compile, options_compile]

/-- The compilations of programs, each with the declarations of the programs before it in front. -/
def compileEach (c : Context) (declared : List Construct) : List (List Construct) → List Compilation
  | [] => []
  | p :: programs =>
    c.compile (declared ++ p) :: c.compileEach (declared ++ p.filter (·.isDeclaration)) programs

theorem silent_compileAll (c : Context) {declared : List Construct}
    (hdeclared : ∀ d ∈ declared, d.isDeclaration = true) {c' : Context}
    (hc' : c'.silent = (c.compile declared).context.silent) (programs : List (List Construct)) :
    (c'.compileAll programs).map Compilation.silent =
      (c.compileEach declared programs).map Compilation.silent := by
  -- What the programs so far have declared is all that the induction has to know of them.
  induction programs generalizing declared c' with
  | nil => rfl
  | cons p programs ih =>
    have hp := c.silent_compile_append hdeclared hc' p
    have hcontext : (c'.compile p).context.silent =
        (c.compile (declared ++ p.filter (·.isDeclaration))).context.silent := by
      have hfilter : (declared ++ p).filter (·.isDeclaration) =
          declared ++ p.filter (·.isDeclaration) := by
        rw [List.filter_append, List.filter_eq_self.mpr hdeclared]
      rw [← hfilter, ← context_compile_declarations]
      exact (congrArg Compilation.context hp :)
    have hnext : ∀ d ∈ declared ++ p.filter (·.isDeclaration), d.isDeclaration = true := by
      intro d hd
      rcases List.mem_append.mp hd with hd | hd
      · exact hdeclared d hd
      · exact (List.mem_filter.mp hd).2
    simp only [compileAll, compileEach, List.map_cons, hp, ih hnext hcontext]

theorem diagnostics_compile (c : Context) (p : List Construct) :
    (c.compile p).context.diagnostics =
      c.diagnostics ++ p.flatMap (·.diagnostics c.options.policy) :=
  Traversal.visitAll_diagnostics (Traversal.enter { context := c }) p

/-! ## Two programs -/

/-- Of two programs compiled one after the other, the second has the code that it has behind the
declarations of the first, whether or not the first one has code, and adds its own diagnostics. -/
theorem compile_in_succession (options : Options) (p q : List Construct) :
    ∃ first second, compileAll { options } [p, q] = [first, second] ∧
      first = compile { options } p ∧
      second.listing = (compile { options } (p.filter (·.isDeclaration) ++ q)).listing ∧
      second.recording = (compile { options } (p.filter (·.isDeclaration) ++ q)).recording ∧
      second.emission = (compile { options } (p.filter (·.isDeclaration) ++ q)).emission ∧
      second.context.scopes =
        (compile { options } (p.filter (·.isDeclaration) ++ q)).context.scopes ∧
      second.context.options = options ∧
      second.context.diagnostics =
        first.context.diagnostics ++ (compile { options } q).context.diagnostics ∧
      second.context.diagnostics.length =
        first.context.diagnostics.length + (compile { options } q).context.diagnostics.length := by
  let fresh : Context := { options }
  let second := (fresh.compile p).context.compile q
  have hall := fresh.silent_compileAll (List.forall_mem_nil _) rfl [p, q]
  simp only [compileAll, compileEach, List.nil_append, List.map_cons, List.map_nil,
    List.cons.injEq, and_true] at hall
  have hsecond : second.silent = (fresh.compile (p.filter (·.isDeclaration) ++ q)).silent := hall.2
  have hoptions : (fresh.compile p).context.options = options := fresh.options_compile p
  have hdiagnostics : second.context.diagnostics =
      (fresh.compile p).context.diagnostics ++ (fresh.compile q).context.diagnostics := by
    rw [diagnostics_compile, fresh.diagnostics_compile q, hoptions]
    rfl
  refine ⟨fresh.compile p, second, rfl, rfl, ?_, ?_, ?_, ?_, ?_, hdiagnostics, ?_⟩
  · exact (congrArg Compilation.listing hsecond :)
  · exact (congrArg Compilation.recording hsecond :)
  · exact (congrArg Compilation.emission hsecond :)
  · exact (congrArg (·.context.scopes) hsecond :)
  · rw [options_compile, hoptions]
  · rw [hdiagnostics, List.length_append]

end Context

end StraightLine
