import StraightLine.Compilation
import StraightLine.Proofs.SingleOperator
import StraightLine.Proofs.Source

/-!
# Correctness of compilation

A program's texts are read back as its statements under either policy, the traversal records what the
statements amount to, and the code of the records does what they do.
-/

namespace StraightLine

open Tiny (Arithmetic State SameEnd)

/-! ## Expressions with at most one operator -/

namespace Expr.Spelled

variable {level : Level} {e : Expr} {t : Text}

theorem mem_tokens (h : e.Spelled level t) {c : Char} (hc : Text.isBlank c = false) (hl : c ≠ '(')
    (hr : c ≠ ')') : c ∈ t ↔ c ∈ e.tokens := by
  rw [← h.strip, Rhs.mem_strip]
  exact ⟨fun hm => ⟨hm, hl, hr, hc⟩, And.left⟩

theorem mem_symbol (h : e.Spelled level t) (op : Operator) :
    op.symbol ∈ t ↔ op.symbol ∈ e.tokens := by
  rw [← h.strip, Rhs.symbol_mem_strip]

end Expr.Spelled

namespace Rhs

theorem classifyLegacy_leaf {a : Operand} {t : Text} (h : (Expr.leaf [] a).Spelled .sum t) :
    classifyLegacy t = .value a.text := by
  have hnone : legacyPriority.find? (t.contains ·.symbol) = none := by
    rw [List.find?_eq_none]
    intro op _ hop
    exact a.symbol_not_mem op ((h.mem_symbol op).mp (List.contains_iff_mem.mp hop))
  unfold classifyLegacy
  rw [hnone, h.operands]
  exact congrArg Rhs.value (List.append_nil _)

theorem classifyLegacy_node {op : Operator} {a b : Operand} {t : Text}
    (h : (Expr.node op (.leaf [] a) (.leaf [] b)).Spelled .sum t) :
    ∃ lhs rhs, classifyLegacy t = .binary ⟨op, lhs, rhs, [a.text, b.text]⟩ := by
  obtain ⟨p, q, -, rfl, hsides, -⟩ := h.exists_root 0 0
  rw [classifyLegacy_single (symbol_not_mem_of_strip hsides.strip_lhs)
    (symbol_not_mem_of_strip hsides.strip_rhs), h.operands]
  exact ⟨_, _, rfl⟩

end Rhs

namespace Source

def Value.Matches : Value → Rhs → Prop
  | atom a, rhs => rhs = .value a.text
  | binary op _ lhs rhs, c => ∃ l r, c = .binary ⟨op, l, r, [lhs.text, rhs.text]⟩

theorem Value.matches_classify {value : Value} {t : Text} (h : value.tree.Spelled .sum t)
    (policy : Policy) : value.Matches (Rhs.classify policy t) := by
  cases value with
  | atom a =>
    cases policy with
    | legacy => exact Rhs.classifyLegacy_leaf h
    | structural => exact h.classifyStructural_leaf
  | binary op hop lhs rhs =>
    cases policy with
    | legacy => exact Rhs.classifyLegacy_node h
    | structural => exact ⟨_, _, h.classifyStructural_node⟩

theorem Value.Matches.isEmpty {value : Value} {rhs : Rhs} (h : value.Matches rhs) :
    rhs.isEmpty = false := by
  cases value with
  | atom a =>
    rw [Value.Matches] at h
    rw [h, Rhs.isEmpty, List.isEmpty_eq_false_iff]
    exact a.ne_nil
  | binary =>
    obtain ⟨l, r, rfl⟩ := h
    rfl

theorem Value.Matches.records {value : Value} {rhs : Rhs} (h : value.Matches rhs) (stem : Text)
    (ty : NumType) (temps : Nat) (target : Text) :
    (Effect.ofAssignment stem ty temps ⟨target, rhs⟩).records = [value.record target] ∧
      (Effect.ofAssignment stem ty temps ⟨target, rhs⟩).diagnostics = [] := by
  cases value with
  | atom a =>
    rw [Value.Matches] at h
    rw [h]
    exact ⟨rfl, rfl⟩
  | binary =>
    obtain ⟨l, r, rfl⟩ := h
    exact ⟨rfl, rfl⟩

/-! ## Assignments -/

theorem Atom.not_mem (a : Atom) {c : Char} (hc : c ∈ ['"', ',', ';', ':', '=']) : c ∉ a.text :=
  fun h => a.plain c h hc

theorem Value.not_mem_text {value : Value} {t : Text} (h : value.tree.Spelled .sum t) {c : Char}
    (hc : c ∈ [';', ':']) : c ∉ t := by
  have hplain : c ∈ ['"', ',', ';', ':', '='] := by
    simp only [List.mem_cons, List.not_mem_nil, or_false] at hc ⊢
    tauto
  have hother : Text.isBlank c = false ∧ c ≠ '(' ∧ c ≠ ')' ∧ ∀ op : Operator, c ≠ op.symbol := by
    obtain rfl | hc := List.mem_cons.mp hc
    · exact ⟨by decide, by decide, by decide, fun op => by cases op <;> decide⟩
    · cases List.mem_singleton.mp hc
      exact ⟨by decide, by decide, by decide, fun op => by cases op <;> decide⟩
  obtain ⟨hb, hl, hr, hop⟩ := hother
  rw [h.mem_tokens hb hl hr]
  cases value with
  | atom a => exact a.not_mem hplain
  | binary op _ lhs rhs =>
    simp only [Value.tree, Expr.tokens, List.map_nil, List.nil_append, List.mem_append,
      List.mem_cons, not_or]
    exact ⟨lhs.not_mem hplain, hop op, rhs.not_mem hplain⟩

theorem Atom.isBlank (a : Atom) : ∀ c ∈ a.text, Text.isBlank c = false :=
  fun c hc => Rhs.isBlank_of_not_separator (a.solid c hc)

/-- The text of an assignment is cut into its target and a spelling of its value. -/
theorem sides_of_spelled {target : Ident} {value : Value} {lhs rhs ending : Text}
    (hl : Text.Padded target.text lhs) (hr : value.tree.Spelled .sum rhs) (he : Ending ending) :
    ∃ t, (Text.splitOnBecomes (Text.unterminated (lhs ++ ':' :: '=' :: (rhs ++ ending)))).map
      Text.trim = [target.text, t] ∧ value.tree.Spelled .sum t := by
  obtain ⟨u, v, hu, hv, rfl⟩ := hl
  have hcolon : ':' ∉ target.text ++ v := by
    rw [List.mem_append, not_or]
    refine ⟨target.not_mem (by decide), fun h => ?_⟩
    exact absurd (hv _ h) (by decide)
  have hsemi : ';' ∉ target.text ++ v ++ ':' :: '=' :: rhs := by
    have hr' : ';' ∉ rhs := Value.not_mem_text hr (by decide)
    have hv' : ';' ∉ v := fun h => absurd (hv _ h) (by decide)
    simp only [List.mem_append, List.mem_cons, not_or]
    exact ⟨⟨target.not_mem (by decide), hv'⟩, by decide, by decide, hr'⟩
  have hhead : ∀ c ∈ (target.text ++ v ++ ':' :: '=' :: rhs).head?, Text.isBlank c = false := by
    obtain ⟨c, w, hw⟩ := List.exists_cons_of_ne_nil target.ne_nil
    have hc := target.isBlank c (by rw [hw]; exact List.mem_cons_self ..)
    rw [hw]
    rintro d hd
    cases hd
    exact hc
  -- The blanks before a semicolon go with it, so in either case the value loses the blanks at its end.
  have hcut : Text.unterminated (u ++ target.text ++ v ++ ':' :: '=' :: (rhs ++ ending)) =
      target.text ++ v ++ ':' :: '=' :: Text.trimEnd rhs := by
    have hwhole : u ++ target.text ++ v ++ ':' :: '=' :: (rhs ++ ending) =
        u ++ (target.text ++ v ++ ':' :: '=' :: rhs) ++ ending := by simp
    rw [hwhole, Text.unterminated_append hu (by simp) hhead hsemi he, List.append_cons,
      Text.trimEnd_append_cons (by decide), ← List.append_cons]
  have hrhs : ':' ∉ Text.trimEnd rhs := Value.not_mem_text hr.trimEnd (by decide)
  have htrim : Text.trim (target.text ++ v) = target.text :=
    Text.trim_of_padded target.isBlank ⟨[], v, by simp [Text.Blank], hv, rfl⟩
  refine ⟨Text.trim (Text.trimEnd rhs), ?_, hr.trimEnd.trim⟩
  rw [hcut, Text.splitOnBecomes_append hcolon, Text.splitOnBecomes_of_not_mem hrhs, List.map_cons,
    List.map_singleton, htrim]

theorem parse_of_spelled {target : Ident} {value : Value} {lhs rhs ending : Text}
    (hl : Text.Padded target.text lhs) (hr : value.tree.Spelled .sum rhs) (he : Ending ending)
    (policy : Policy) :
    ∃ c, Assignment.parse policy (lhs ++ ':' :: '=' :: (rhs ++ ending)) = .ok ⟨target.text, c⟩ ∧
      value.Matches c := by
  obtain ⟨t, hsides, ht⟩ := sides_of_spelled hl hr he
  have hmatch := Value.matches_classify ht policy
  refine ⟨Rhs.classify policy t, ?_, hmatch⟩
  unfold Assignment.parse
  simp only [hsides]
  rw [if_neg]
  rw [hmatch.isEmpty, Bool.or_false, List.isEmpty_iff]
  exact target.ne_nil

/-! ## Lists -/

theorem Atom.entry (a : Atom) : Text.Entry a.text := ⟨a.ne_nil, a.isBlank, a.not_mem (by decide)⟩

theorem Item.entry (i : Item) : Text.Entry i.text := by
  cases i with
  | ident x => exact x.entry
  | newline => exact ⟨by decide, Text.isBlank_of_all (by decide), by decide⟩

theorem entries_idents {names : List Ident} {list : Text}
    (h : Text.Listed (names.map (·.text)) list) : Text.entries list = names.map (·.text) := by
  refine Text.entries_of_listed (fun w hw => ?_) h
  obtain ⟨x, -, rfl⟩ := List.mem_map.mp hw
  exact x.entry

theorem entries_items {items : List Item} {list : Text}
    (h : Text.Listed (items.map (·.text)) list) : Text.entries list = items.map (·.text) := by
  refine Text.entries_of_listed (fun w hw => ?_) h
  obtain ⟨i, -, rfl⟩ := List.mem_map.mp hw
  exact i.entry

theorem Item.writeRecord_text (i : Item) : Effect.writeRecord i.text = i.record := by
  cases i with
  | ident x => exact if_neg x.ne_newline
  | newline => exact if_pos rfl

/-! ## Traversals -/

/-- Whatever the traversal has reached, a statement raises no diagnostic and leaves its records. -/
theorem Stmt.Spelled.effect {stmt : Stmt} {c : Construct} (h : stmt.Spelled c) (options : Options)
    (typeOf : Text → NumType) (temps : Nat) :
    (c.effect options typeOf temps).diagnostics = [] ∧
      (c.effect options typeOf temps).records = stmt.records := by
  cases h with
  | @declare ty names keyword list hk hl =>
    have hty : NumType.ofKeyword? keyword = some ty := by
      rw [NumType.ofKeyword?_eq_some_iff]
      exact Text.trim_of_padded (Text.isBlank_of_all (by cases ty <;> decide)) hk
    simp only [Construct.effect, Effect.ofVarDecl, Declaration.vars, hty, Stmt.records, and_self]
  | read hl =>
    refine ⟨rfl, ?_⟩
    simp only [Construct.effect, Effect.ofRead, entries_idents hl, Stmt.records, List.map_map]
    rfl
  | write hl =>
    refine ⟨rfl, ?_⟩
    simp only [Construct.effect, Effect.ofWrite, entries_items hl, Stmt.records, List.map_map]
    exact List.map_congr_left fun i _ => i.writeRecord_text
  | @assign target value lhs rhs ending hl hr he =>
    obtain ⟨c, hparse, hmatch⟩ := parse_of_spelled hl hr he options.policy
    have hrecords := hmatch.records options.tempStem (typeOf target.text) temps target.text
    simp only [Construct.effect, Effect.ofAssign, hparse]
    exact ⟨hrecords.2, hrecords.1⟩

theorem visitAll_of_spelled {program : List Stmt} {constructs : List Construct}
    (h : List.Forall₂ Stmt.Spelled program constructs) (t : Traversal) :
    (t.visitAll constructs).context.diagnostics = t.context.diagnostics ∧
      (t.visitAll constructs).context.options = t.context.options ∧
      (t.visitAll constructs).records = t.records ++ program.flatMap Stmt.records := by
  induction h generalizing t with
  | nil => simp
  | @cons stmt c program constructs hc _ ih =>
    obtain ⟨hdiag, hrecords⟩ := hc.effect t.context.options t.context.typeOf t.temps
    obtain ⟨ihd, iho, ihr⟩ := ih (t.visit c)
    rw [Traversal.visitAll_cons, ihd, iho, ihr]
    have hd : (t.visit c).context.diagnostics = t.context.diagnostics ++ (t.effect c).diagnostics := rfl
    have hr : (t.visit c).records = t.records ++ (t.effect c).records := rfl
    refine ⟨?_, rfl, ?_⟩
    · rw [hd, Traversal.effect, hdiag, List.append_nil]
    · rw [hr, Traversal.effect, hrecords, List.append_assoc, List.flatMap_cons]

/-! ## Compilation -/

/-- A program compiles without a diagnostic, and its code does from every state what the program does. -/
theorem compile_correct {V : Type} (A : Arithmetic V) (options : Options)
    (horder : options.order = .program) {program : List Stmt} {constructs : List Construct}
    (hspelled : List.Forall₂ Stmt.Spelled program constructs)
    (hfree : ∀ stmt ∈ program, ∀ x ∈ stmt.atoms, ¬ Text.Numbered options.registerStem x) :
    (Context.compile { options } constructs).context.diagnostics = [] ∧
      ∃ e, (Context.compile { options } constructs).emission = .ok e ∧
        ∀ s : State V, SameEnd options.registerStem
          (Tiny.run (A.reserving options.registerStem) s e.code) (exec A s program) := by
  obtain ⟨hdiag, hoptions, hrecords⟩ :=
    visitAll_of_spelled hspelled (Traversal.enter { context := { options } })
  have hcheck : ∀ r ∈ program.flatMap Stmt.records, r.check = .ok () := by
    intro r hr
    obtain ⟨stmt, -, hr⟩ := List.mem_flatMap.mp hr
    exact Stmt.check_of_mem hr
  have htexts : ∀ r ∈ program.flatMap Stmt.records, ∀ x ∈ r.texts,
      ¬ Text.Numbered options.registerStem x := by
    intro r hr x hx
    obtain ⟨stmt, hstmt, hr⟩ := List.mem_flatMap.mp hr
    exact hfree stmt hstmt x (Stmt.texts_subset_atoms hr hx)
  refine ⟨hdiag, ?_⟩
  let t := (Traversal.enter { context := { options } }).visitAll constructs
  have hm : t.recording.records = program.flatMap Stmt.records := hrecords
  obtain ⟨e, he, hrun⟩ := Recording.exists_emit_run (m := t.recording) options
    (hm ▸ hcheck) (hm ▸ htexts) t.context.scopes.root.symbols
  refine ⟨e, ?_, fun s => ?_⟩
  · rw [← he]
    exact congrArg (t.recording.emit · t.context.scopes.root.symbols) hoptions
  · have := hrun A s
    rwa [horder, hm, Order.arrange, execAll_records] at this

/-! ### A difference -/

def minuend : Ident where
  text := ['a']
  ne_nil := by decide
  solid := List.forall_mem_singleton.mpr (by decide)
  plain := List.forall_mem_singleton.mpr (by decide)
  ne_newline := by decide

def result : Ident where
  text := ['b']
  ne_nil := by decide
  solid := List.forall_mem_singleton.mpr (by decide)
  plain := List.forall_mem_singleton.mpr (by decide)
  ne_newline := by decide

def three : Atom where
  text := ['3']
  ne_nil := by decide
  solid := List.forall_mem_singleton.mpr (by decide)
  plain := List.forall_mem_singleton.mpr (by decide)

def difference : List Stmt :=
  [.declare .int [minuend, result], .read [minuend],
    .assign result (.binary .sub (by decide) minuend.toAtom three), .write [.ident result, .newline]]

def differenceTexts : List Construct :=
  [.var " INT".toList "a ,b".toList, .read "a".toList, .assign "b :=(a-( 3)) ; ".toList,
    .write "b, newline".toList]

theorem spelled_difference : List.Forall₂ Stmt.Spelled difference differenceTexts := by
  have word : ∀ w : Text, Text.Padded w w := fun w => ⟨[], [], by decide, by decide, by simp⟩
  have before : ∀ w : Text, Text.Padded w (' ' :: w) :=
    fun w => ⟨[' '], [], by decide, by decide, by simp⟩
  have after : ∀ w : Text, Text.Padded w (w ++ [' ']) :=
    fun w => ⟨[], [' '], by decide, by decide, by simp⟩
  have hthree : (Expr.leaf [] three.toOperand).Spelled .product "( 3)".toList :=
    .tighter (.paren (.blankBefore (by decide) (.tighter (.tighter (.operand _)))))
  have hsub : (Expr.node .sub (.leaf [] minuend.toOperand) (.leaf [] three.toOperand)).Spelled .sum
      "a-( 3)".toList :=
    .node .sub (.tighter (.tighter (.operand _))) hthree
  have hvalue : (Expr.node .sub (.leaf [] minuend.toOperand) (.leaf [] three.toOperand)).Spelled .sum
      "(a-( 3))".toList := .tighter (.tighter (.paren hsub))
  refine .cons (.declare (before _) ⟨_, .cons (after _) (.cons (word _) .nil), rfl⟩) ?_
  refine .cons (.read ⟨_, .cons (word _) .nil, rfl⟩) ?_
  refine .cons ?_ (.cons (.write ⟨_, .cons (word _) (.cons (before _) .nil), rfl⟩) .nil)
  exact @Stmt.Spelled.assign result (.binary .sub (by decide) minuend.toAtom three) _ _ _ (after _)
    (.blankAfter (by decide : Text.isBlank ' ' = true) hvalue) (.inr ⟨[' '], by decide, rfl⟩)

theorem compile_difference :
    (∀ stmt ∈ difference, ∀ x ∈ stmt.atoms, ¬ Text.Numbered ['r'] x) ∧
      (Context.compile { options := { order := .program } } differenceTexts).context.diagnostics = [] ∧
      ∃ e, (Context.compile { options := { order := .program } } differenceTexts).emission = .ok e ∧
        ∀ s : State Int, SameEnd ['r'] (Tiny.run (Arithmetic.decimal.reserving ['r']) s e.code)
          (exec Arithmetic.decimal s difference) := by
  have hfree : ∀ stmt ∈ difference, ∀ x ∈ stmt.atoms, ¬ Text.Numbered ['r'] x := by decide
  exact ⟨hfree, compile_correct Arithmetic.decimal { order := .program } rfl spelled_difference hfree⟩

end Source

end StraightLine
