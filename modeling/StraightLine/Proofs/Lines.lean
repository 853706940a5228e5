import StraightLine.Proofs.Effects

/-!
# Lines of a listing

A traversal emits instructions that work on names, and none that ends its part of the listing. The
lines of the two kinds of code are told apart by their first character, so the line `;RET` marks where
the code for the machine begins.
-/

namespace StraightLine

/-! ## Texts of lines -/

namespace IR.Instr

def isWork : Instr → Bool
  | start | label _ | link | ret | tinyCode => false
  | read _ _ | write _ _ | writeNewline | arith _ _ _ _ | store _ _ _ => true

theorem head?_render (i : Instr) : i.render.head? = some ';' := rfl

theorem render_eq_ret_iff {i : Instr} : i.render = ret.render ↔ i = .ret := by
  constructor
  · intro h
    -- The fourth character is enough to tell every other name from this one.
    have h3 : i.render[3]? = some 'T' := by rw [h]; rfl
    cases i with
    | ret => rfl
    | arith op ty operands dest => cases op <;> exact absurd (Option.some.inj h3) (by decide)
    | _ => exact absurd (Option.some.inj h3) (by decide)
  · rintro rfl
    rfl

end IR.Instr

theorem Tiny.Instr.head?_render (i : Tiny.Instr) : i.render.head? ≠ some ';' := by
  intro h
  cases i with
  | arith op operand reg => cases op <;> exact absurd (Option.some.inj h) (by decide)
  | _ => exact absurd (Option.some.inj h) (by decide)

theorem IR.Instr.render_ne_tiny (i : IR.Instr) (j : Tiny.Instr) : i.render ≠ j.render := by
  intro h
  exact j.head?_render (h ▸ i.head?_render)

/-! ## Intermediate code of a program -/

theorem Construct.isWork_of_mem_effect {c : Construct} {options : Options}
    {typeOf : Text → NumType} {temps : Nat} {i : IR.Instr}
    (h : i ∈ (c.effect options typeOf temps).code) : i.isWork = true := by
  cases c with
  | var type names => simp [effect, (Effect.ofVarDecl_quiet type names).1] at h
  | string text => simp [effect, Effect.ofStringDecl] at h
  | assign text =>
    simp only [effect, Effect.ofAssign] at h
    split at h
    · exact Effect.forall_mem_ofAssignment (P := (·.isWork = true)) (fun _ _ => rfl)
        (fun _ _ _ => rfl) i h
    · simp at h
  | read names =>
    obtain ⟨name, -, rfl⟩ := List.mem_map.mp h
    rfl
  | write names =>
    obtain ⟨name, -, rfl⟩ := List.mem_map.mp h
    by_cases hname : name = IR.newline <;> simp [Effect.writeInstr, hname, IR.Instr.isWork]

theorem Traversal.isWork_of_mem_visitAll {t : Traversal} {program : List Construct} {i : IR.Instr}
    (h : i ∈ (t.visitAll program).code) : i ∈ t.code ∨ i.isWork = true := by
  induction program generalizing t with
  | nil => exact .inl h
  | cons c program ih =>
    rcases ih h with hc | hi
    · rcases List.mem_append.mp hc with ht | he
      · exact .inl ht
      · exact .inr (Construct.isWork_of_mem_effect he)
    · exact .inr hi

namespace Context

variable (c : Context) (program : List Construct)

theorem compile_ir :
    (c.compile program).ir = IR.header ++ (Traversal.visitAll { context := c } program).code :=
  Traversal.visitAll_code (Traversal.enter { context := c }) program

theorem ret_not_mem_ir : .ret ∉ (c.compile program).ir := by
  intro h
  rcases Traversal.isWork_of_mem_visitAll h with hheader | hwork
  · simp [Traversal.enter, IR.header] at hheader
  · cases hwork

theorem render_ret_not_mem_ir : IR.Instr.ret.render ∉ (c.compile program).ir.map IR.Instr.render := by
  intro h
  obtain ⟨i, hi, heq⟩ := List.mem_map.mp h
  rw [IR.Instr.render_eq_ret_iff.mp heq] at hi
  exact c.ret_not_mem_ir program hi

end Context

/-! ## Code for the machine -/

def Listing.fromReturn (l : Listing) : List Text := l.texts.dropWhile (· ≠ IR.Instr.ret.render)

theorem Compilation.texts_listing (c : Compilation) :
    c.listing.texts = c.ir.map IR.Instr.render ++
      match c.emission with
      | .ok e => e.listing.texts
      | .error _ => [] := by
  unfold listing Listing.texts
  rw [List.map_append, List.map_map]
  cases c.emission <;> rfl

theorem Context.fromReturn_compile (c : Context) (program : List Construct) :
    (c.compile program).listing.fromReturn =
      match (c.compile program).emission with
      | .ok e => e.listing.texts
      | .error _ => [] := by
  have hir : ∀ line ∈ (c.compile program).ir.map IR.Instr.render,
      decide (line ≠ IR.Instr.ret.render) = true := by
    intro line hline
    rw [decide_eq_true_eq]
    exact fun h => c.render_ret_not_mem_ir program (h ▸ hline)
  rw [Listing.fromReturn, Compilation.texts_listing, List.dropWhile_append_of_pos hir]
  cases (c.compile program).emission <;> rfl

end StraightLine
