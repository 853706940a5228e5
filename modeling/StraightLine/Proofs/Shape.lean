import StraightLine.Proofs.Declared
import StraightLine.Proofs.Registers

/-!
# The shape of a listing

A listing with code has marked lines of intermediate code, the two marks that divide it, a line for each
declared name, the lines of the blocks and the line that ends the run. No text of a program makes one
of these lines look like another, so the lines that declare a name or end the run can be counted.
-/

namespace StraightLine

/-! ## Lines that cannot be taken for others -/

theorem IR.Instr.render_eq_tinyCode_iff {i : Instr} : i.render = tinyCode.render ↔ i = .tinyCode := by
  constructor
  · intro h
    have h1 : i.render[1]? = some 't' := by rw [h]; rfl
    cases i with
    | tinyCode => rfl
    | arith op ty operands dest => cases op <;> exact absurd (Option.some.inj h1) (by decide)
    | _ => exact absurd (Option.some.inj h1) (by decide)
  · rintro rfl
    rfl

namespace Tiny.Instr

theorem render_var (name : Text) : (var name).render = "var ".toList ++ name := by
  simp [render, words, Text.unwords, List.intercalate]

theorem render_str (name value : Text) :
    (str name value).render = "str ".toList ++ name ++ " \"".toList ++ value ++ "\"".toList := by
  simp [render, words, Text.unwords, List.intercalate]

theorem eq_halt_of_render {i : Instr} (h : i.render = halt.render) : i = .halt := by
  -- The system calls differ in their fifth character and all else in the second one.
  have h1 : i.render[1]? = some 'y' := by rw [h]; rfl
  have h4 : i.render[4]? = some 'h' := by rw [h]; rfl
  cases i with
  | halt => rfl
  | arith op operand reg => cases op <;> exact absurd (Option.some.inj h1) (by decide)
  | readInt name => exact absurd (Option.some.inj h4) (by decide)
  | writeInt name => exact absurd (Option.some.inj h4) (by decide)
  | writeNewline => exact absurd (Option.some.inj h4) (by decide)
  | _ => exact absurd (Option.some.inj h1) (by decide)

theorem eq_var_of_render {i : Instr} {name : Text} (h : i.render = (var name).render) :
    i = .var name := by
  have h0 : i.render[0]? = some 'v' := by rw [h]; rfl
  cases i with
  | var name' =>
    rw [render_var, render_var] at h
    rw [List.append_cancel_left h]
  | arith op operand reg => cases op <;> exact absurd (Option.some.inj h0) (by decide)
  | _ => exact absurd (Option.some.inj h0) (by decide)

theorem count_map_render {j : Instr} (hj : ∀ i : Instr, i.render = j.render → i = j)
    (code : List Instr) : (code.map render).count j.render = code.count j := by
  rw [List.count, List.countP_map, List.count]
  apply List.countP_congr
  intro i _
  simp only [Function.comp_apply, beq_iff_eq]
  exact ⟨hj i, congrArg render⟩

end Tiny.Instr

/-! ## Lines of declarations -/

/-- The line that declares a symbol; the quotes of a literal are left out, for two of the line's own. -/
def Symbol.line (s : Symbol) : Text :=
  match s.kind with
  | .num _ => "var ".toList ++ s.name
  | .str literal =>
    "str ".toList ++ s.name ++ " \"".toList ++ literal.filter (· ≠ '"') ++ "\"".toList

theorem Symbol.render_declaration (s : Symbol) : s.declaration.render = s.line := by
  unfold declaration line
  cases s.kind with
  | num ty => exact Tiny.Instr.render_var s.name
  | str literal => exact Tiny.Instr.render_str s.name _

theorem Symbol.declaration_eq_var_iff {s : Symbol} {name : Text} :
    s.declaration = .var name ↔ s.name = name ∧ s.isString = false := by
  unfold declaration isString literal?
  cases s.kind <;> simp

theorem Symbol.count_halt_declaration (symbols : List Symbol) :
    (symbols.map declaration).count .halt = 0 := by
  rw [List.count_eq_zero]
  intro hmem
  obtain ⟨s, -, hs⟩ := List.mem_map.mp hmem
  unfold declaration at hs
  split at hs <;> cases hs

theorem SymbolTable.count_declaration {t : SymbolTable} (hnodup : t.names.Nodup) (name : Text) :
    (t.symbols.map Symbol.declaration).count (.var name) =
      if (t.get? name).any (!·.isString) then 1 else 0 := by
  obtain ⟨symbols⟩ := t
  unfold get?
  induction symbols with
  | nil => rfl
  | cons s symbols ih =>
    obtain ⟨hs, hnodup⟩ := List.nodup_cons.mp hnodup
    rw [List.map_cons, List.count_cons, ih hnodup]
    by_cases hname : s.name = name
    · -- No later symbol has this name, so the line is there only if this one is a variable.
      have hnone : symbols.find? (·.name = name) = none := by
        rw [List.find?_eq_none]
        intro u hu
        simp only [decide_eq_true_eq]
        exact fun e => hs (List.mem_map.mpr ⟨u, hu, e.trans hname.symm⟩)
      simp [hnone, hname, Symbol.declaration_eq_var_iff]
    · simp [hname, Symbol.declaration_eq_var_iff]

/-! ## Whole listings -/

structure Listing.Shape (declared : List Symbol) (lines ir declarations instructions : List Text) :
    Prop where
  parts : lines = ir ++ [";RET".toList, ";tiny code".toList] ++ declarations ++ instructions ++
    ["sys halt".toList]
  marked : ∀ line ∈ ir, line.head? = some ';' ∧ line ≠ ";RET".toList ∧ line ≠ ";tiny code".toList
  unmarked : ∀ line ∈ declarations ++ instructions ++ ["sys halt".toList], line.head? ≠ some ';'
  haltOnce : lines.count "sys halt".toList = 1
  declares : List.Forall₂ (fun name line =>
    ∃ s, Symbol.lastNamed? declared name = some s ∧ line = s.line)
    (declared.map (·.name)).eraseDups declarations
  works : ∀ line ∈ instructions, ∃ i : Tiny.Instr, i.isWork = true ∧ line = i.render
  varCount : ∀ name, lines.count ("var ".toList ++ name) =
    if (Symbol.lastNamed? declared name).any (!·.isString) then 1 else 0

theorem SymbolTable.forall₂_line (declared : List Symbol) :
    List.Forall₂ (fun name line => ∃ s, Symbol.lastNamed? declared name = some s ∧ line = s.line)
      (declared.map (·.name)).eraseDups ((insertAll {} declared).symbols.map Symbol.line) := by
  rw [← names_insertAll, names, List.forall₂_map_left_iff, List.forall₂_map_right_iff,
    List.forall₂_same]
  intro s hs
  refine ⟨s, ?_, rfl⟩
  rw [← get?_insertAll]
  exact get?_of_mem (nodup_names_insertAll declared) hs

namespace Context

theorem texts_of_emission {c : Context} {program : List Construct} {e : Emission}
    (h : (c.compile program).emission = .ok e) :
    (c.compile program).listing.texts =
      ((c.compile program).ir ++ [IR.Instr.ret, .tinyCode]).map IR.Instr.render ++
        e.code.map Tiny.Instr.render := by
  rw [Compilation.texts_listing, h]
  simp [Emission.listing, Listing.texts, Line.render, Function.comp_def]

theorem count_texts {c : Context} {program : List Construct} {e : Emission}
    (h : (c.compile program).emission = .ok e) {j : Tiny.Instr}
    (hj : ∀ i : Tiny.Instr, i.render = j.render → i = j) :
    (c.compile program).listing.texts.count j.render = e.code.count j := by
  rw [texts_of_emission h, List.count_append, Tiny.Instr.count_map_render hj]
  have hir : (((c.compile program).ir ++ [IR.Instr.ret, .tinyCode]).map IR.Instr.render).count
      j.render = 0 := by
    rw [List.count_eq_zero]
    intro hmem
    obtain ⟨i, -, hi⟩ := List.mem_map.mp hmem
    exact i.render_ne_tiny j hi
  rw [hir, Nat.zero_add]

theorem marked_ir (c : Context) (program : List Construct) :
    ∀ line ∈ (c.compile program).ir.map IR.Instr.render,
      line.head? = some ';' ∧ line ≠ ";RET".toList ∧ line ≠ ";tiny code".toList := by
  intro line hline
  obtain ⟨i, hi, rfl⟩ := List.mem_map.mp hline
  have hframe : ¬ (i = .ret ∨ i = .tinyCode) := by
    rcases Traversal.isWork_of_mem_visitAll hi with hheader | hwork
    · simp only [Traversal.enter, IR.header, List.nil_append, List.mem_cons, List.not_mem_nil,
        or_false] at hheader
      rcases hheader with rfl | rfl | rfl <;> simp
    · rintro (rfl | rfl) <;> cases hwork
  refine ⟨i.head?_render, fun h => ?_, fun h => ?_⟩
  · exact hframe (.inl (IR.Instr.render_eq_ret_iff.mp h))
  · exact hframe (.inr (IR.Instr.render_eq_tinyCode_iff.mp h))

theorem exists_code {options : Options} {program : List Construct} {e : Emission}
    (h : (compile { options } program).emission = .ok e) :
    ∃ blocks, (∀ i ∈ blocks, i.isWork = true) ∧
      e.code = (SymbolTable.insertAll {} (Construct.declared program)).symbols.map
        Symbol.declaration ++ blocks ++ [.halt] := by
  obtain ⟨blocks, rs, hall, he⟩ := exists_emitAll h
  rw [root_compile] at he
  exact ⟨blocks, Record.isWork_of_emitAll hall, by rw [he]⟩

/-- What is no work is in the declarations, or it is the end of the run. -/
theorem count_code {symbols : List Symbol} {blocks : List Tiny.Instr}
    (hblocks : ∀ i ∈ blocks, i.isWork = true) {i : Tiny.Instr} (hi : i.isWork = false) :
    (symbols.map Symbol.declaration ++ blocks ++ [Tiny.Instr.halt]).count i =
      (symbols.map Symbol.declaration).count i + [Tiny.Instr.halt].count i := by
  have hnone : blocks.count i = 0 := by
    rw [List.count_eq_zero]
    intro hmem
    rw [hblocks i hmem] at hi
    cases hi
  rw [List.count_append, List.count_append, hnone, Nat.add_zero]

theorem map_render_code (symbols : List Symbol) (blocks : List Tiny.Instr) :
    (symbols.map Symbol.declaration ++ blocks ++ [Tiny.Instr.halt]).map Tiny.Instr.render =
      symbols.map Symbol.line ++ blocks.map Tiny.Instr.render ++ ["sys halt".toList] := by
  rw [List.map_append, List.map_append, List.map_map]
  simp only [Function.comp_def, Symbol.render_declaration]
  rfl

/-- A program with code in a fresh context has a listing of this shape for the symbols it declares. -/
theorem shape_of_emission (options : Options) (program : List Construct) {e : Emission}
    (h : (compile { options } program).emission = .ok e) :
    ∃ ir declarations instructions, Listing.Shape (Construct.declared program)
      (compile { options } program).listing.texts ir declarations instructions := by
  obtain ⟨blocks, hwork, hcode⟩ := exists_code h
  have hnodup := SymbolTable.nodup_names_insertAll (Construct.declared program)
  refine ⟨_, _, blocks.map Tiny.Instr.render, ?_, marked_ir { options } program, ?_, ?_,
    SymbolTable.forall₂_line _, ?_, ?_⟩
  · rw [texts_of_emission h, hcode, map_render_code, List.map_append]
    simp only [List.append_assoc]
    rfl
  · intro line hline
    rw [← map_render_code] at hline
    obtain ⟨i, -, rfl⟩ := List.mem_map.mp hline
    exact i.head?_render
  · have hhalt := count_texts h fun _ => Tiny.Instr.eq_halt_of_render
    rw [hcode, count_code hwork rfl, Symbol.count_halt_declaration] at hhalt
    exact hhalt
  · intro line hline
    obtain ⟨i, hi, rfl⟩ := List.mem_map.mp hline
    exact ⟨i, hwork i hi, rfl⟩
  · intro name
    rw [← Tiny.Instr.render_var, count_texts h fun _ => Tiny.Instr.eq_var_of_render, hcode,
      count_code hwork rfl, SymbolTable.count_declaration hnodup, SymbolTable.get?_insertAll]
    rfl

def redeclared : List Construct :=
  [.var "INT".toList "a, b".toList, .string "STRING b := \"x \"y\"\", a := \"z\";".toList,
    .var "FLOAT".toList "a".toList, .read "a".toList, .assign "a := a + 1".toList]

theorem shape_of_redeclared :
    ∃ e ir declarations instructions, (compile {} redeclared).emission = .ok e ∧
      Listing.Shape (Construct.declared redeclared) (compile {} redeclared).listing.texts
        ir declarations instructions ∧
      (compile {} redeclared).listing.texts.count "var a".toList = 1 ∧
      (compile {} redeclared).listing.texts.count "var b".toList = 0 := by
  obtain ⟨e, he⟩ : ∃ e, (compile {} redeclared).emission = .ok e := ⟨_, rfl⟩
  obtain ⟨ir, declarations, instructions, hshape⟩ := shape_of_emission {} redeclared he
  refine ⟨e, ir, declarations, instructions, he, hshape, ?_, ?_⟩
  · exact (hshape.varCount "a".toList).trans (by decide)
  · exact (hshape.varCount "b".toList).trans (by decide)

end Context

end StraightLine
