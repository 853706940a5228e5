import StraightLine.Proofs.Effects
import Mathlib.Data.List.Flatten
import Mathlib.Data.List.Basic

/-!
# Rejected constructs

A construct that is rejected as a whole has no effect but what is told about it, so a program can be
compiled without it and only the diagnostics show the difference.
-/

namespace StraightLine

namespace Construct

/-- Nothing of the construct is accepted. A string declaration is rejected segment by segment, and one
good segment is enough to keep it. -/
def rejected (policy : Policy) : Construct → Bool
  | var type _ => Text.trim type ≠ NumType.int.keyword && Text.trim type ≠ NumType.float.keyword
  | string text => (Declaration.segments text).all fun segment => !(Declaration.string segment).isOk
  | assign text => !(Assignment.parse policy text).isOk
  | read _ | write _ => false

def complaints : Construct → List Diagnostic
  | var type _ => [.unknownType (Text.trim type)]
  | string text => (Declaration.segments text).map fun segment => .invalidString (Text.trim segment)
  | assign text => [.invalidAssignment (Text.unterminated text)]
  | read _ | write _ => []

example : [var "int".toList "a".toList, var " INT ".toList "a".toList,
    string "STRING s, t := \"u\"".toList, string "s = 1, t".toList, assign "x := ()".toList].map
      (rejected .legacy) = [true, false, false, true, true] := by decide

end Construct

/-! ## One construct -/

theorem Declaration.vars_of_rejected {type : Text} (names : Text)
    (hint : Text.trim type ≠ NumType.int.keyword) (hfloat : Text.trim type ≠ NumType.float.keyword) :
    vars type names = .error (.unknownType (Text.trim type)) := by
  simp [vars, NumType.ofKeyword?, hint, hfloat]

theorem Declaration.string_of_rejected {segment : Text} (h : (string segment).isOk = false) :
    string segment = .error (.invalidString (Text.trim segment)) := by
  unfold string at h ⊢
  split
  · rename_i name literal hcut
    by_cases hname : (Text.trim name).isEmpty = true
    · simp [hname]
    · simp [hcut, hname, Except.isOk, Except.toBool] at h
  · rfl

theorem Effect.ofStringDecl_of_rejected {text : Text}
    (h : ∀ segment ∈ Declaration.segments text, (Declaration.string segment).isOk = false) :
    ofStringDecl text = { diagnostics := (Construct.string text).complaints } := by
  have hall : Declaration.strings text =
      (Declaration.segments text).map fun segment => .error (.invalidString (Text.trim segment)) :=
    List.map_congr_left fun segment hs => Declaration.string_of_rejected (h segment hs)
  simp only [ofStringDecl, hall, Construct.complaints, List.filterMap_map, Function.comp_def]
  simp

theorem Construct.effect_of_rejected {c : Construct} (options : Options)
    (h : c.rejected options.policy = true) (typeOf : Text → NumType) (temps : Nat) :
    c.effect options typeOf temps = { diagnostics := c.complaints } := by
  cases c with
  | var type names =>
    simp only [rejected, ne_eq, decide_not, Bool.and_eq_true, Bool.not_eq_true',
      decide_eq_false_iff_not] at h
    simp only [effect, Effect.ofVarDecl, Declaration.vars_of_rejected names h.1 h.2, complaints]
  | string text =>
    simp only [rejected, List.all_eq_true, Bool.not_eq_true'] at h
    exact Effect.ofStringDecl_of_rejected h
  | assign text =>
    simp only [effect, Effect.ofAssign, complaints]
    cases hparse : Assignment.parse options.policy text with
    | ok a => simp [rejected, hparse, Except.isOk, Except.toBool] at h
    | error d => rw [Assignment.eq_of_parse_error hparse]
  | read names => cases h
  | write names => cases h

/-! ## A whole program -/

namespace Traversal

def silent (t : Traversal) : Traversal := { t with context := { t.context with diagnostics := [] } }

theorem silent_visit (t : Traversal) (c : Construct) :
    (t.visit c).silent = (t.silent.visit c).silent := rfl

theorem silent_visit_rejected (t : Traversal) {c : Construct}
    (h : c.rejected t.context.options.policy = true) : (t.visit c).silent = t.silent := by
  simp [silent, visit, apply, effect, Construct.effect_of_rejected _ h, ScopeStack.declareAll_nil]

theorem silent_visitAll (t : Traversal) (program : List Construct) :
    (t.visitAll program).silent =
      (t.visitAll (program.filter (!·.rejected t.context.options.policy))).silent := by
  apply visitAll_filter silent (!·.rejected t.context.options.policy) t
  · intro s s' c h
    rw [silent_visit, h, ← silent_visit]
  · intro s c hs hc
    apply s.silent_visit_rejected
    simpa [hs] using hc

end Traversal

theorem Construct.diagnostics_of_rejected {policy : Policy} {c : Construct}
    (h : c.rejected policy = true) : c.diagnostics policy = c.complaints := by
  rw [← c.effect_diagnostics { policy } (fun _ => .int) 0, effect_of_rejected { policy } h]

theorem Construct.flatMap_diagnostics_rejected (policy : Policy) (program : List Construct) :
    (program.filter (·.rejected policy)).flatMap (·.diagnostics policy) =
      (program.filter (·.rejected policy)).flatMap (·.complaints) :=
  List.flatMap_congr fun _ hc => diagnostics_of_rejected (List.mem_filter.mp hc).2

namespace Context

def accepted (c : Context) (program : List Construct) : List Construct :=
  program.filter (!·.rejected c.options.policy)

/-- Without its rejected constructs a program compiles to the same, and the diagnostics lack exactly what
is told about them. -/
theorem compile_without_rejected (c : Context) (program : List Construct) :
    (c.compile (c.accepted program)).listing = (c.compile program).listing ∧
      (c.compile (c.accepted program)).recording = (c.compile program).recording ∧
      (c.compile (c.accepted program)).emission = (c.compile program).emission ∧
      (c.compile (c.accepted program)).context.scopes = (c.compile program).context.scopes ∧
      (c.compile (c.accepted program)).context.options = (c.compile program).context.options ∧
      (c.compile (c.accepted program)).context.diagnostics.Sublist
        (c.compile program).context.diagnostics ∧
      (c.compile program).context.diagnostics.Perm
        ((c.compile (c.accepted program)).context.diagnostics ++
          (program.filter (·.rejected c.options.policy)).flatMap (·.complaints)) := by
  let t := Traversal.enter { context := c }
  have hsilent : (t.visitAll (c.accepted program)).silent = (t.visitAll program).silent :=
    (t.silent_visitAll program).symm
  have hscopes : (c.compile (c.accepted program)).context.scopes =
      (c.compile program).context.scopes := (congrArg (·.context.scopes) hsilent :)
  have hrecording : (c.compile (c.accepted program)).recording = (c.compile program).recording :=
    (congrArg Traversal.recording hsilent :)
  have hir : (c.compile (c.accepted program)).ir = (c.compile program).ir :=
    (congrArg Traversal.code hsilent :)
  have hemission := emission_congr hscopes hrecording
  refine ⟨?_, hrecording, hemission, hscopes, ?_, ?_, ?_⟩
  · rw [Compilation.listing, Compilation.listing, hir, hemission]
  · rw [options_compile, options_compile]
  · have hwhole : (c.compile program).context.diagnostics = _ := t.visitAll_diagnostics program
    have hkept : (c.compile (c.accepted program)).context.diagnostics = _ := t.visitAll_diagnostics _
    rw [hwhole, hkept]
    exact (List.filter_sublist.flatMap _).append_left _
  · have hperm := t.diagnostics_visitAll_filter (!·.rejected c.options.policy) program
    simp only [Bool.not_not] at hperm
    rw [← Construct.flatMap_diagnostics_rejected]
    exact hperm

end Context

end StraightLine
