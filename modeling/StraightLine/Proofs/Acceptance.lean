import StraightLine.Proofs.Registers

/-!
# Accepted assignments

Whether an assignment is accepted can be read off its characters. The legacy policy wants something
before the only `:=` and an operand after it. The structural policy is also content with operators that
have no operand at all, unless one of them has a closing parenthesis before it.
-/

namespace StraightLine

namespace Rhs

/-! ## Texts without operands -/

def HasOperand (t : Text) : Prop := ∃ c ∈ t, isSeparator c = false

structure BareOperators (t : Text) : Prop where
  noOperand : ¬ HasOperand t
  operator : ∃ op : Operator, op.symbol ∈ t
  notClosed : ∀ op : Operator, ¬ [')', op.symbol] <:+: t.filter (!Text.isBlank ·)

theorem not_hasOperand_iff {t : Text} : ¬ HasOperand t ↔ ∀ c ∈ t, isSeparator c = true := by
  simp [HasOperand]

theorem operands_ne_nil_iff {t : Text} : operands t ≠ [] ↔ HasOperand t := by
  rw [ne_eq, operands_eq_nil_iff, ← not_hasOperand_iff, not_not]

theorem isSeparator_cases {c : Char} (h : isSeparator c = true) :
    Text.isBlank c = true ∨ c = '(' ∨ c = ')' ∨ ∃ op : Operator, c = op.symbol := by
  simp only [isSeparator, isMark, Bool.or_eq_true, decide_eq_true_eq, List.mem_cons,
    List.not_mem_nil, or_false] at h
  rcases h with (hb | rfl | rfl | rfl | rfl | rfl) | rfl
  · exact .inl hb
  · exact .inr (.inr (.inr ⟨.mul, rfl⟩))
  · exact .inr (.inr (.inr ⟨.add, rfl⟩))
  · exact .inr (.inr (.inr ⟨.sub, rfl⟩))
  · exact .inr (.inl rfl)
  · exact .inr (.inr (.inl rfl))
  · exact .inr (.inr (.inr ⟨.div, rfl⟩))

theorem infix_cons_rparen {d : Char} {u : Text} :
    [')', d] <:+: ')' :: u ↔ u.head? = some d ∨ [')', d] <:+: u := by
  rw [List.infix_cons_iff, List.cons_prefix_cons]
  cases u with
  | nil => simp
  | cons e u => simp [List.cons_prefix_cons, @eq_comm Char d e]

/-- Where no operand stands, only a closing parenthesis makes an operator a joint. -/
theorem jointsFrom_eq_nil_iff {t : Text} (h : ∀ c ∈ t, isSeparator c = true) (pos depth : Nat)
    (after : Bool) :
    jointsFrom pos depth after t = [] ↔
      (after = true → ∀ op : Operator, (t.filter (!Text.isBlank ·)).head? ≠ some op.symbol) ∧
        ∀ op : Operator, ¬ [')', op.symbol] <:+: t.filter (!Text.isBlank ·) := by
  induction t generalizing pos depth after with
  | nil => simp [jointsFrom]
  | cons c t ih =>
    have ih := ih fun d hd => h d (List.mem_cons_of_mem _ hd)
    rcases isSeparator_cases (h c (by simp)) with hb | rfl | rfl | ⟨op, rfl⟩
    · rw [jointsFrom_blank _ _ _ hb, ih, List.filter_cons_of_neg (by simp [hb])]
    · rw [jointsFrom_lparen, ih, List.filter_cons_of_pos (by decide)]
      have hhead : ∀ op : Operator, '(' ≠ op.symbol := fun op => by cases op <;> decide
      simp [Text.pair_infix_cons_of_ne, hhead]
    · rw [jointsFrom_rparen, ih, List.filter_cons_of_pos (by decide)]
      have hhead : ∀ op : Operator, ')' ≠ op.symbol := fun op => by cases op <;> decide
      simp [infix_cons_rparen, hhead, forall_and]
    · rw [List.filter_cons_of_pos (by simp [op.isBlank_symbol])]
      have hne : op.symbol ≠ ')' := by cases op <;> decide
      cases after with
      | true =>
        rw [jointsFrom_symbol]
        simp only [List.head?_cons, List.cons_ne_nil, false_iff]
        intro hall
        exact hall.1 trivial op rfl
      | false =>
        rw [jointsFrom_leading, ih]
        simp [Text.pair_infix_cons_of_ne hne]

/-! ## Bare operators as a value -/

theorem root?_eq_none_iff {js : List Joint} : root? js = none ↔ js = [] := by
  cases js with
  | nil => simp [root?]
  | cons j js =>
    have hsome : root? (j :: js) ≠ none := by
      unfold root?
      split
      · simp
      · split <;> simp
    simp [hsome]

theorem exists_classifyStructural_value_iff {t : Text} :
    (∃ w, classifyStructural t = .value w) ↔ jointsFrom 0 0 false t = [] := by
  unfold classifyStructural Token.scan
  rw [joints_scanFrom, ← root?_eq_none_iff]
  cases root? (jointsFrom 0 0 false t) <;> simp

theorem strip_ne_nil_iff {t : Text} (h : ¬ HasOperand t) :
    strip t ≠ [] ↔ ∃ op : Operator, op.symbol ∈ t := by
  constructor
  · intro hne
    obtain ⟨c, hc⟩ := List.exists_mem_of_ne_nil _ hne
    obtain ⟨hmem, hl, hr, hb⟩ := mem_strip.mp hc
    rcases isSeparator_cases (not_hasOperand_iff.mp h c hmem) with hb' | rfl | rfl | ⟨op, rfl⟩
    · rw [hb'] at hb
      cases hb
    · exact absurd rfl hl
    · exact absurd rfl hr
    · exact ⟨op, hmem⟩
  · rintro ⟨op, hop⟩
    exact List.ne_nil_of_mem (symbol_mem_strip.mpr hop)

theorem isEmpty_classifyStructural_iff (t : Text) :
    (classifyStructural t).isEmpty = false ↔ HasOperand t ∨ BareOperators t := by
  by_cases hop : HasOperand t
  · simp [hop, isEmpty_classifyStructural (operands_ne_nil_iff.mpr hop)]
  · have hsep := not_hasOperand_iff.mp hop
    have hjoints := exists_classifyStructural_value_iff.trans (jointsFrom_eq_nil_iff hsep 0 0 false)
    cases hc : classifyStructural t with
    | value w =>
      have hnot := (hjoints.mp ⟨w, hc⟩).2
      rw [isEmpty, classifyStructural_eq_value hc, List.isEmpty_eq_false_iff, strip_ne_nil_iff hop]
      constructor
      · intro hsymbol
        exact .inr ⟨hop, hsymbol, hnot⟩
      · rintro (h | h)
        · exact absurd h hop
        · exact h.operator
    | binary b =>
      have hops : b.operands = [] := by
        rw [operands_of_classify (show classify .structural t = .binary b from hc)]
        by_contra hne
        exact hop (operands_ne_nil_iff.mp hne)
      constructor
      · intro h
        simp [isEmpty, hops] at h
      · rintro (h | h)
        · exact absurd h hop
        · obtain ⟨w, hw⟩ := hjoints.mpr ⟨by simp, h.notClosed⟩
          rw [hc] at hw
          cases hw

theorem isEmpty_classifyLegacy_iff (t : Text) :
    (classifyLegacy t).isEmpty = false ↔ HasOperand t := by
  rw [isEmpty_classifyLegacy, List.isEmpty_eq_false_iff, operands_ne_nil_iff]

/-! ## Blanks around a value -/

theorem hasOperand_trim {t : Text} : HasOperand (Text.trim t) ↔ HasOperand t := by
  constructor
  · rintro ⟨c, hc, hsep⟩
    exact ⟨c, (Text.trim_isInfix t).subset hc, hsep⟩
  · rintro ⟨c, hc, hsep⟩
    exact ⟨c, (Text.mem_trim_iff (isBlank_of_not_separator hsep)).mpr hc, hsep⟩

theorem bareOperators_trim {t : Text} : BareOperators (Text.trim t) ↔ BareOperators t := by
  have hoperator : (∃ op : Operator, op.symbol ∈ Text.trim t) ↔ ∃ op : Operator, op.symbol ∈ t :=
    exists_congr fun op => Text.mem_trim_iff op.isBlank_symbol
  constructor
  · intro h
    exact ⟨hasOperand_trim.not.mp h.noOperand, hoperator.mp h.operator,
      Text.filter_trim t ▸ h.notClosed⟩
  · intro h
    exact ⟨hasOperand_trim.not.mpr h.noOperand, hoperator.mpr h.operator,
      (Text.filter_trim t).symm ▸ h.notClosed⟩

end Rhs

/-! ## Assignments by their characters -/

namespace Assignment

/-- The only `:=` has something before it, and what comes after it is as `P` says. -/
def Shaped (P : Text → Prop) (s : Text) : Prop :=
  ∃ b a, Text.CutOnce s b a ∧ (∃ c ∈ b, Text.isBlank c = false) ∧ P a

theorem Shaped.congr {P Q : Text → Prop} (h : ∀ a, P a ↔ Q a) {s : Text} :
    Shaped P s ↔ Shaped Q s := by
  simp only [Shaped, h]

theorem sides?_eq_some_iff {text target value : Text} :
    sides? text = some (target, value) ↔
      ∃ b a, Text.CutOnce (Text.unterminated text) b a ∧ Text.trim b = target ∧
        Text.trim a = value := by
  have hpieces : sides? text = some (target, value) ↔
      (Text.splitOnBecomes (Text.unterminated text)).map Text.trim = [target, value] := by
    unfold sides?
    split
    · rename_i h
      simp [h]
    · rename_i hnot
      constructor
      · intro h
        cases h
      · intro h
        exact absurd h (hnot target value)
  rw [hpieces]
  constructor
  · intro h
    obtain ⟨b, bs, hsplit, rfl, hbs⟩ := List.map_eq_cons_iff.mp h
    obtain ⟨a, as, rfl, rfl, has⟩ := List.map_eq_cons_iff.mp hbs
    cases List.map_eq_nil_iff.mp has
    exact ⟨b, a, Text.splitOnBecomes_eq_pair_iff.mp hsplit, rfl, rfl⟩
  · rintro ⟨b, a, hcut, rfl, rfl⟩
    rw [Text.splitOnBecomes_eq_pair_iff.mpr hcut]
    rfl

theorem exists_parse_iff {policy : Policy} {text : Text} :
    (∃ a, parse policy text = .ok a) ↔
      Shaped (fun v => (Rhs.classify policy (Text.trim v)).isEmpty = false)
        (Text.unterminated text) := by
  constructor
  · rintro ⟨⟨target, rhs⟩, hparse⟩
    obtain ⟨value, hsides, htarget, rfl, hne⟩ := parse_eq_ok_iff.mp hparse
    obtain ⟨b, a, hcut, rfl, rfl⟩ := sides?_eq_some_iff.mp hsides
    exact ⟨b, a, hcut, Text.trim_ne_nil_iff.mp htarget, hne⟩
  · rintro ⟨b, a, hcut, hb, hne⟩
    refine ⟨⟨Text.trim b, Rhs.classify policy (Text.trim a)⟩, parse_eq_ok_iff.mpr ?_⟩
    exact ⟨Text.trim a, sides?_eq_some_iff.mpr ⟨b, a, hcut, rfl, rfl⟩, Text.trim_ne_nil_iff.mpr hb,
      rfl, hne⟩

theorem exists_parse_legacy_iff {text : Text} :
    (∃ a, parse .legacy text = .ok a) ↔ Shaped Rhs.HasOperand (Text.unterminated text) := by
  rw [exists_parse_iff]
  apply Shaped.congr
  intro a
  rw [Rhs.classify, Rhs.isEmpty_classifyLegacy_iff, Rhs.hasOperand_trim]

theorem exists_parse_structural_iff {text : Text} :
    (∃ a, parse .structural text = .ok a) ↔
      Shaped (fun a => Rhs.HasOperand a ∨ Rhs.BareOperators a) (Text.unterminated text) := by
  rw [exists_parse_iff]
  apply Shaped.congr
  intro a
  rw [Rhs.classify, Rhs.isEmpty_classifyStructural_iff, Rhs.hasOperand_trim, Rhs.bareOperators_trim]

end Assignment

/-! ## What an assignment does to a traversal -/

theorem Effect.length_code_ofAssignment (stem : Text) (ty : NumType) (temps : Nat) (a : Assignment) :
    (ofAssignment stem ty temps a).code.length = (ofAssignment stem ty temps a).temps + 1 ∧
      ((ofAssignment stem ty temps a).code.length = 2 ∨
        (ofAssignment stem ty temps a).code.length = 3) := by
  obtain ⟨target, value | b⟩ := a
  · exact ⟨rfl, .inl rfl⟩
  · cases hb : b.hasFloatDivisor <;> simp [ofAssignment, hb]

namespace Traversal

/-- `t'` is `t` with one record more, for which there are two or three instructions; all of them but the
last have a new temporary. -/
def OneRecordMore (t t' : Traversal) : Prop :=
  ∃ code r, (code.length = 2 ∨ code.length = 3) ∧
    t' = { t with
      code := t.code ++ code
      records := t.records ++ [r]
      temps := t.temps + (code.length - 1) }

theorem visit_assign_eq {t : Traversal} {text : Text} {a : Assignment}
    (h : Assignment.parse t.context.options.policy text = .ok a) :
    t.visit (.assign text) =
      t.apply (.ofAssignment t.context.options.tempStem (t.context.typeOf a.target) t.temps a) := by
  simp only [visit, effect, Construct.effect, Effect.ofAssign, h]

theorem visit_assign_of_ok {t : Traversal} {text : Text} {a : Assignment}
    (h : Assignment.parse t.context.options.policy text = .ok a) :
    OneRecordMore t (t.visit (.assign text)) := by
  obtain ⟨hsymbols, hdiagnostics, hrecords⟩ :=
    Effect.ofAssignment_parts t.context.options.tempStem (t.context.typeOf a.target) t.temps a
  obtain ⟨hlength, hlines⟩ :=
    Effect.length_code_ofAssignment t.context.options.tempStem (t.context.typeOf a.target) t.temps a
  refine ⟨_, a.record, hlines, ?_⟩
  rw [visit_assign_eq h]
  simp only [apply, hsymbols, hdiagnostics, hrecords, hlength, ScopeStack.declareAll_nil,
    List.append_nil, Nat.add_sub_cancel]

theorem visit_assign_of_not_ok {t : Traversal} {text : Text}
    (h : ¬ ∃ a, Assignment.parse t.context.options.policy text = .ok a) :
    t.visit (.assign text) =
      { t with context := t.context.report (.invalidAssignment (Text.unterminated text)) } := by
  cases hparse : Assignment.parse t.context.options.policy text with
  | ok a => exact absurd ⟨a, hparse⟩ h
  | error d =>
    simp only [visit, effect, Construct.effect, Effect.ofAssign, hparse, apply,
      Assignment.eq_of_parse_error hparse, ScopeStack.declareAll_nil, List.append_nil,
      Context.report, Nat.add_zero]

/-- The legacy policy accepts an assignment for a target before its only `:=` and an operand after it.
What is accepted leaves one record, what is not leaves one diagnostic, and all else stays. -/
theorem visit_assign_legacy {t : Traversal} (hpolicy : t.context.options.policy = .legacy)
    (text : Text) :
    ((t.visit (.assign text)).context.diagnostics = t.context.diagnostics ↔
        Assignment.Shaped Rhs.HasOperand (Text.unterminated text)) ∧
      (Assignment.Shaped Rhs.HasOperand (Text.unterminated text) →
        OneRecordMore t (t.visit (.assign text))) ∧
      (¬ Assignment.Shaped Rhs.HasOperand (Text.unterminated text) →
        t.visit (.assign text) =
          { t with context := t.context.report (.invalidAssignment (Text.unterminated text)) }) := by
  rw [← Assignment.exists_parse_legacy_iff, ← hpolicy]
  refine ⟨⟨?_, ?_⟩, ?_, visit_assign_of_not_ok⟩
  · intro hsame
    by_contra hnot
    rw [visit_assign_of_not_ok hnot] at hsame
    simp [Context.report] at hsame
  · rintro ⟨a, hparse⟩
    obtain ⟨code, r, -, hvisit⟩ := visit_assign_of_ok hparse
    rw [hvisit]
  · rintro ⟨a, hparse⟩
    exact visit_assign_of_ok hparse

/-- The first colon belongs to the target; a second `:=` spoils the assignment. -/
theorem visit_assign_doubleColon :
    Assignment.Shaped Rhs.HasOperand "x::=a/2.5".toList ∧
      OneRecordMore { context := {} } (visit { context := {} } (.assign " x::=a/2.5; ".toList)) ∧
      ¬ Assignment.Shaped Rhs.HasOperand "x:=a:=;".toList ∧
      visit { context := {} } (.assign "x:=a:=;;".toList) =
        { context := Context.report {} (.invalidAssignment "x:=a:=;".toList) } := by
  have haccept := visit_assign_legacy (t := { context := {} }) rfl " x::=a/2.5; ".toList
  have hreject := visit_assign_legacy (t := { context := {} }) rfl "x:=a:=;;".toList
  have hgood := haccept.1.mp rfl
  have hbad := hreject.1.not.mp (by decide)
  exact ⟨hgood, haccept.2.1 hgood, hbad, hreject.2.2 hbad⟩

end Traversal

/-! ## The policies compared -/

namespace Assignment

theorem shaped_or {P Q : Text → Prop} {s : Text} :
    Shaped (fun a => P a ∨ Q a) s ↔ Shaped P s ∨ Shaped Q s := by
  constructor
  · rintro ⟨b, a, hcut, hb, hp | hq⟩
    · exact .inl ⟨b, a, hcut, hb, hp⟩
    · exact .inr ⟨b, a, hcut, hb, hq⟩
  · rintro (⟨b, a, hcut, hb, hp⟩ | ⟨b, a, hcut, hb, hq⟩)
    · exact ⟨b, a, hcut, hb, .inl hp⟩
    · exact ⟨b, a, hcut, hb, .inr hq⟩

theorem not_shaped_hasOperand {s : Text} (h : Shaped Rhs.BareOperators s) :
    ¬ Shaped Rhs.HasOperand s := by
  obtain ⟨b, a, hcut, -, hbare⟩ := h
  rintro ⟨b', a', hcut', -, hoperand⟩
  obtain ⟨-, rfl⟩ := hcut.unique hcut'
  exact hbare.noOperand hoperand

end Assignment

namespace Context

def ReportsAssignment (c : Context) (policy : Policy) (text : Text) : Prop :=
  Diagnostic.count .invalidAssignment
      (Traversal.visit { context := c.under policy } (.assign text)).context.diagnostics =
    Diagnostic.count .invalidAssignment c.diagnostics + 1

instance (c : Context) (policy : Policy) (text : Text) :
    Decidable (c.ReportsAssignment policy text) :=
  inferInstanceAs (Decidable (_ = _))

theorem reportsAssignment_iff {c : Context} {policy : Policy} {text : Text} :
    c.ReportsAssignment policy text ↔ ¬ ∃ a, Assignment.parse policy text = .ok a := by
  unfold ReportsAssignment
  by_cases h : ∃ a, Assignment.parse policy text = .ok a
  · obtain ⟨a, hparse⟩ := h
    obtain ⟨code, r, -, hvisit⟩ :=
      Traversal.visit_assign_of_ok (t := { context := c.under policy }) hparse
    rw [hvisit]
    simp [hparse, under]
  · rw [Traversal.visit_assign_of_not_ok h]
    simp [h, report, under, Diagnostic.count, Diagnostic.invalidAssignment]

/-- The policies reject the same assignments but for operators without operands, which the structural
policy takes for a value. -/
theorem reportsAssignment_alike_iff (c : Context) (text : Text) :
    ((c.ReportsAssignment .structural text ↔ c.ReportsAssignment .legacy text) ↔
        ¬ Assignment.Shaped Rhs.BareOperators (Text.unterminated text)) ∧
      (Assignment.Shaped Rhs.BareOperators (Text.unterminated text) →
        c.ReportsAssignment .legacy text ∧ ¬ c.ReportsAssignment .structural text) := by
  rw [reportsAssignment_iff, reportsAssignment_iff, Assignment.exists_parse_legacy_iff,
    Assignment.exists_parse_structural_iff, Assignment.shaped_or]
  have hbare := Assignment.not_shaped_hasOperand (s := Text.unterminated text)
  tauto

theorem bare_minus_accepted_by_structural :
    ReportsAssignment {} .legacy "x := -".toList ∧ ¬ ReportsAssignment {} .structural "x := -".toList ∧
      (Traversal.visit { context := under {} .structural } (.assign "x := -".toList)).records =
        [.move ['-'] ['x']] := by
  decide

end Context

end StraightLine
