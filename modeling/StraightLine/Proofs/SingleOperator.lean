import StraightLine.Proofs.RootOperator

/-!
# Texts with a single operator

A text is scanned with two things kept from the part already read: the nesting depth, and whether an
operand or a closing parenthesis came last. With only one operator in the text neither the priorities of
the legacy policy nor the order of the joints matters, and both policies cut the text at that operator.
-/

namespace StraightLine

/-! ## Operator characters -/

namespace Operator

def isSymbol (c : Char) : Bool := (ofChar? c).isSome

theorem isSymbol_iff {c : Char} : isSymbol c = true ↔ ∃ op : Operator, c = op.symbol := by
  simp only [isSymbol, Option.isSome_iff_exists, ofChar?_eq_some_iff]

theorem ofChar?_of_not_mem {t : Text} (h : ∀ op : Operator, op.symbol ∉ t) {c : Char} (hc : c ∈ t) :
    ofChar? c = none := by
  cases ho : ofChar? c with
  | none => rfl
  | some op => exact absurd (ofChar?_eq_some_iff.mp ho ▸ hc) (h op)

end Operator

namespace Rhs

/-! ## The state of a scan -/

def nesting (depth : Nat) : Text → Nat
  | [] => depth
  | c :: t => nesting (if c = '(' then depth + 1 else if c = ')' then depth - 1 else depth) t

def closes (c : Char) : Bool := c ≠ '(' && !Operator.isSymbol c

/-- An operator after the text has something to join, given whether it has before the text. -/
def ready (after : Bool) (t : Text) : Bool :=
  (t.filter (!Text.isBlank ·)).getLast?.elim after closes

theorem ready_cons_blank (after : Bool) {c : Char} (hc : Text.isBlank c = true) (t : Text) :
    ready after (c :: t) = ready after t := by
  simp [ready, hc]

theorem ready_cons (after : Bool) {c : Char} (hc : Text.isBlank c = false) (t : Text) :
    ready after (c :: t) = ready (closes c) t := by
  unfold ready
  rw [List.filter_cons_of_pos (by simp [hc]), List.getLast?_cons]
  cases (t.filter (!Text.isBlank ·)).getLast? <;> rfl

/-- The joints of the second part are found from where the first part leaves the scan. -/
theorem jointsFrom_append (pos depth : Nat) (after : Bool) (s t : Text) :
    jointsFrom pos depth after (s ++ t) =
      jointsFrom pos depth after s ++
        jointsFrom (pos + s.length) (nesting depth s) (ready after s) t := by
  induction s generalizing pos depth after with
  | nil => rfl
  | cons c s ih =>
    have hpos : pos + (c :: s).length = pos + 1 + s.length := by simp only [List.length_cons]; omega
    rw [hpos]
    by_cases hl : c = '('
    · subst hl
      rw [ready_cons _ (by decide)]
      exact ih (pos + 1) (depth + 1) false
    by_cases hr : c = ')'
    · subst hr
      rw [ready_cons _ (by decide)]
      exact ih (pos + 1) (depth - 1) true
    by_cases hb : Text.isBlank c = true
    · simp only [List.cons_append, jointsFrom_blank _ _ _ hb, nesting, hl, hr, if_false,
        ready_cons_blank _ hb, ih]
    rw [ready_cons _ (by simpa using hb)]
    cases ho : Operator.ofChar? c with
    | none => simp [jointsFrom, nesting, closes, Operator.isSymbol, hl, hr, hb, ho, ih]
    | some o =>
      cases after <;> simp [jointsFrom, nesting, closes, Operator.isSymbol, hl, hr, hb, ho, ih]

theorem jointsFrom_of_no_operator {t : Text} (h : ∀ op : Operator, op.symbol ∉ t) (pos depth : Nat)
    (after : Bool) : jointsFrom pos depth after t = [] := by
  induction t generalizing pos depth after with
  | nil => rfl
  | cons c t ih =>
    have hrest : ∀ op : Operator, op.symbol ∉ t := fun op hop => h op (List.mem_cons_of_mem _ hop)
    have hc : Operator.ofChar? c = none := Operator.ofChar?_of_not_mem h (List.mem_cons_self ..)
    unfold jointsFrom
    split
    · exact ih hrest ..
    · split
      · exact ih hrest ..
      · split
        · exact ih hrest ..
        · rw [hc]; exact ih hrest ..

/-! ## The operator of each policy -/

section
variable {p q : Text} {op : Operator}

theorem find?_legacyPriority {t : Text} (h : ∀ op' : Operator, op'.symbol ∈ t ↔ op' = op) :
    legacyPriority.find? (t.contains ·.symbol) = some op := by
  cases hf : legacyPriority.find? (t.contains ·.symbol) with
  | none =>
    have hall := List.find?_eq_none.mp hf op (by cases op <;> decide)
    exact absurd (List.contains_iff_mem.mpr ((h op).mpr rfl)) hall
  | some op' =>
    have hop := List.find?_some hf
    rw [(h op').mp (List.contains_iff_mem.mp hop)]

variable (hp : ∀ op : Operator, op.symbol ∉ p) (hq : ∀ op : Operator, op.symbol ∉ q)
include hp hq

theorem classifyLegacy_single :
    classifyLegacy (p ++ op.symbol :: q) =
      .binary ⟨op, Text.trim p, Text.trim q, operands (p ++ op.symbol :: q)⟩ := by
  have hmem : ∀ op' : Operator, op'.symbol ∈ p ++ op.symbol :: q ↔ op' = op := by
    intro op'
    simp only [List.mem_append, List.mem_cons, hp, hq, false_or, or_false]
    exact ⟨Operator.symbol_injective, congrArg Operator.symbol⟩
  have hpass : ∀ {s : Text}, (∀ op : Operator, op.symbol ∉ s) →
      ∀ c ∈ s, decide (c ≠ op.symbol) = true := by
    intro s hs c hc
    have hne : c ≠ op.symbol := fun e => hs op (e ▸ hc)
    exact decide_eq_true hne
  have hlhs : (p ++ op.symbol :: q).takeWhile (· ≠ op.symbol) = p := by
    rw [List.takeWhile_append_of_pos (hpass hp)]
    simp
  have hrest : ((p ++ op.symbol :: q).dropWhile (· ≠ op.symbol)).drop 1 = q := by
    rw [List.dropWhile_append_of_pos (hpass hp)]
    simp
  have hrhs : q.takeWhile (· ≠ op.symbol) = q := List.takeWhile_eq_self_iff.mpr (hpass hq)
  unfold classifyLegacy
  rw [find?_legacyPriority hmem]
  simp only [hlhs, hrest, hrhs]

theorem classifyStructural_single (hready : ready false p = true) :
    classifyStructural (p ++ op.symbol :: q) =
      .binary ⟨op, strip p, strip q, operands (p ++ op.symbol :: q)⟩ := by
  have hjoints : jointsFrom 0 0 false (p ++ op.symbol :: q) =
      [⟨op, .op op, p.length, p.length + 1, nesting 0 p⟩] := by
    rw [jointsFrom_append, jointsFrom_of_no_operator hp, hready, jointsFrom_symbol,
      jointsFrom_of_no_operator hq, Nat.zero_add]
    rfl
  rw [classifyStructural_of_root (by rw [hjoints]; rfl), operands_append_cons op.isSeparator_symbol]

end

end Rhs

/-! ## Operands around the operator -/

theorem Operand.symbol_not_mem (a : Operand) (op : Operator) : op.symbol ∉ a.text :=
  fun h => Rhs.symbol_ne_of_not_separator (a.solid _ h) op rfl

theorem Rhs.symbol_not_mem_of_strip {t : Text} {a : Operand} (h : strip t = a.text) (op : Operator) :
    op.symbol ∉ t := by
  rw [← symbol_mem_strip, h]
  exact a.symbol_not_mem op

end StraightLine
