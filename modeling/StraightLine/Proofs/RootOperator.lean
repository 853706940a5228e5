import StraightLine.Proofs.Expression

/-!
# The root operator of an expression text

`classifyStructural` never builds a tree: it compares the joints of a flat list of tokens. The joints
are read here straight off the characters, from any position and depth, so that the joints of a text
are put together from those of its parts. Every joint inside an operand of the root is then as low as
the operand's level in the grammar demands, which leaves the root's own joint as the highest.
-/

namespace StraightLine.Rhs

/-! ## Joints by characters -/

/-- The joints of a text that starts at `pos` inside `depth` parentheses, given whether an operand or
a closing parenthesis is the last token before it. -/
def jointsFrom (pos depth : Nat) (after : Bool) : Text → List Joint
  | [] => []
  | c :: t =>
    if c = '(' then jointsFrom (pos + 1) (depth + 1) false t
    else if c = ')' then jointsFrom (pos + 1) (depth - 1) true t
    else if Text.isBlank c then jointsFrom (pos + 1) depth after t
    else match Operator.ofChar? c with
      | some o =>
        if after then ⟨o, .op o, pos, pos + 1, depth⟩ :: jointsFrom (pos + 1) depth false t
        else jointsFrom (pos + 1) depth false t
      | none => jointsFrom (pos + 1) depth true t

theorem joints_consOperand (after : Bool) (pos depth : Nat) (ts : List Token) :
    joints after (Token.consOperand pos depth ts) = joints true ts := by
  unfold Token.consOperand
  split
  · split <;> rfl
  · rfl

theorem joints_scanFrom (t : Text) (pos depth : Nat) (after : Bool) :
    joints after (Token.scanFrom pos depth t) = jointsFrom pos depth after t := by
  induction t generalizing pos depth after with
  | nil => rfl
  | cons c t ih =>
    unfold Token.scanFrom jointsFrom
    split
    · rw [← ih]; rfl
    · split
      · rw [← ih]; rfl
      · split
        · rw [← ih]
        · cases Operator.ofChar? c with
          | some o => cases after <;> (simp only [joints]; rw [← ih]; rfl)
          | none => exact (joints_consOperand ..).trans (ih ..)

section
variable (pos depth : Nat)

theorem jointsFrom_lparen (after : Bool) (t : Text) :
    jointsFrom pos depth after ('(' :: t) = jointsFrom (pos + 1) (depth + 1) false t := rfl

theorem jointsFrom_rparen (after : Bool) (t : Text) :
    jointsFrom pos depth after (')' :: t) = jointsFrom (pos + 1) (depth - 1) true t := rfl

theorem jointsFrom_blank (after : Bool) {c : Char} (hc : Text.isBlank c = true) (t : Text) :
    jointsFrom pos depth after (c :: t) = jointsFrom (pos + 1) depth after t := by
  obtain ⟨hl, hr⟩ := ne_paren_of_isBlank hc
  rw [jointsFrom, if_neg hl, if_neg hr, if_pos hc]

theorem jointsFrom_symbol (op : Operator) (t : Text) :
    jointsFrom pos depth true (op.symbol :: t) =
      ⟨op, .op op, pos, pos + 1, depth⟩ :: jointsFrom (pos + 1) depth false t := by
  cases op <;> rfl

/-- After an operator, an opening parenthesis or nothing, an operator joins nothing. -/
theorem jointsFrom_leading (op : Operator) (t : Text) :
    jointsFrom pos depth false (op.symbol :: t) = jointsFrom (pos + 1) depth false t := by
  cases op <;> rfl

theorem jointsFrom_sign (s : Sign) (t : Text) :
    jointsFrom pos depth false (s.symbol :: t) = jointsFrom (pos + 1) depth false t := by
  cases s <;> rfl

theorem jointsFrom_solid (after : Bool) {c : Char} (hc : isSeparator c = false) (t : Text) :
    jointsFrom pos depth after (c :: t) = jointsFrom (pos + 1) depth true t := by
  obtain ⟨hl, hr⟩ := ne_paren_of_not_separator hc
  rw [jointsFrom, if_neg hl, if_neg hr, if_neg (by simp [isBlank_of_not_separator hc]),
    ofChar?_of_not_separator hc]

end

theorem jointsFrom_operand (after : Bool) {w : Text} (hne : w ≠ [])
    (hw : ∀ c ∈ w, isSeparator c = false) (pos depth : Nat) (rest : Text) :
    jointsFrom pos depth after (w ++ rest) = jointsFrom (pos + w.length) depth true rest := by
  induction w generalizing pos after with
  | nil => exact absurd rfl hne
  | cons c w ih =>
    rw [List.cons_append, jointsFrom_solid _ _ _ (hw c (by simp))]
    cases w with
    | nil => rfl
    | cons d w =>
      rw [ih true (by simp) (fun b hb => hw b (List.mem_cons_of_mem _ hb)), List.length_cons,
        List.length_cons, Nat.add_assoc, Nat.add_comm 1]; rfl

/-! ## The highest joint -/

/-- Depth and precedence in one number; a joint is above those with a greater one. -/
def Joint.key (j : Joint) : Nat := 2 * j.token.depth + j.op.precedence

theorem Joint.above_iff {a b : Joint} : a.above b = true ↔ a.key < b.key := by
  have ha : 1 ≤ a.op.precedence ∧ a.op.precedence ≤ 2 := by cases a.op <;> decide
  have hb : 1 ≤ b.op.precedence ∧ b.op.precedence ≤ 2 := by cases b.op <;> decide
  unfold Joint.above Joint.key
  simp only [Bool.or_eq_true, Bool.and_eq_true, decide_eq_true_eq]
  omega

theorem mem_of_root? {js : List Joint} {j : Joint} (h : root? js = some j) : j ∈ js := by
  induction js generalizing j with
  | nil => cases h
  | cons i js ih =>
    unfold root? at h
    cases hr : root? js with
    | none => rw [hr] at h; cases h; exact List.mem_cons_self ..
    | some r =>
      rw [hr] at h
      simp only at h
      split at h
      · cases h; exact List.mem_cons_self ..
      · cases h; exact List.mem_cons_of_mem _ (ih hr)

theorem root?_cons {j : Joint} {js : List Joint} (h : ∀ b ∈ js, j.key < b.key) :
    root? (j :: js) = some j := by
  unfold root?
  cases hr : root? js with
  | none => rfl
  | some r => simp only [if_pos (Joint.above_iff.mpr (h r (mem_of_root? hr)))]

/-- The root is the last of the highest joints. -/
theorem root?_append_cons {is js : List Joint} {j : Joint} (hi : ∀ a ∈ is, j.key ≤ a.key)
    (hj : ∀ b ∈ js, j.key < b.key) : root? (is ++ j :: js) = some j := by
  induction is with
  | nil => exact root?_cons hj
  | cons a is ih =>
    have hna : ¬ a.above j = true := by
      rw [Joint.above_iff]
      exact Nat.not_lt.mpr (hi a (by simp))
    rw [List.cons_append, root?, ih fun b hb => hi b (List.mem_cons_of_mem _ hb)]
    simp only [if_neg hna]

/-- The text is cut where its root stands. -/
theorem classifyStructural_of_root {op : Operator} {p q : Text} {d : Nat}
    (h : root? (jointsFrom 0 0 false (p ++ op.symbol :: q)) =
      some ⟨op, .op op, p.length, p.length + 1, d⟩) :
    classifyStructural (p ++ op.symbol :: q) =
      .binary ⟨op, strip p, strip q, operands p ++ operands q⟩ := by
  have hdrop : (p ++ op.symbol :: q).drop (p.length + 1) = q := by
    rw [← List.drop_drop, List.drop_left]; rfl
  unfold classifyStructural Token.scan
  rw [joints_scanFrom, h]
  simp only [List.take_left, hdrop]

end StraightLine.Rhs

/-! ## Joints of a spelled tree -/

namespace StraightLine.Expr.Spelled

open Rhs

/-- A spelling leaves the depth as it found it and ends an operand. -/
theorem jointsFrom_append {level : Level} {e : Expr} {t : Text} (h : e.Spelled level t)
    (pos depth : Nat) (rest : Text) :
    jointsFrom pos depth false (t ++ rest) =
      jointsFrom pos depth false t ++ jointsFrom (pos + t.length) depth true rest := by
  induction h generalizing pos depth rest with
  | operand a =>
    have hnil := jointsFrom_operand false a.ne_nil a.solid pos depth []
    rw [List.append_nil] at hnil
    rw [jointsFrom_operand false a.ne_nil a.solid, hnil]; rfl
  | sign s _ ih =>
    rw [List.cons_append, jointsFrom_sign, jointsFrom_sign, ih, List.length_cons, Nat.add_assoc,
      Nat.add_comm 1]
  | @paren e t _ ih =>
    rw [List.cons_append, List.append_assoc, jointsFrom_lparen, jointsFrom_lparen, ih, ih,
      List.singleton_append, jointsFrom_rparen, jointsFrom_rparen]
    simp only [jointsFrom, List.append_nil, List.length_cons, List.length_append, List.length_nil]
    rw [Nat.add_sub_cancel, show pos + 1 + t.length + 1 = pos + (t.length + (0 + 1) + 1) by omega]
  | @node op l r s t _ _ ihl ihr =>
    rw [List.append_assoc, List.cons_append, ihl, ihl, jointsFrom_symbol, jointsFrom_symbol, ihr,
      List.append_assoc, List.cons_append, List.length_append, List.length_cons,
      show pos + s.length + 1 + t.length = pos + (s.length + (t.length + 1)) by omega]
  | tighter _ ih => exact ih pos depth rest
  | blankBefore hc _ ih =>
    rw [List.cons_append, jointsFrom_blank _ _ _ hc, jointsFrom_blank _ _ _ hc, ih, List.length_cons,
      Nat.add_assoc, Nat.add_comm 1]
  | blankAfter hc _ ih =>
    rw [List.append_assoc, ih, ih, List.singleton_append, jointsFrom_blank _ _ _ hc,
      jointsFrom_blank _ _ _ hc, List.length_append, List.length_singleton]
    simp only [jointsFrom, List.append_nil]
    rw [Nat.add_assoc]

theorem jointsFrom_node {op : Operator} {l : Expr} {s : Text} (hl : l.Spelled op.level s) (t : Text)
    (pos depth : Nat) :
    jointsFrom pos depth false (s ++ op.symbol :: t) =
      jointsFrom pos depth false s ++
        ⟨op, .op op, pos + s.length, pos + s.length + 1, depth⟩ ::
          jointsFrom (pos + s.length + 1) depth false t := by
  rw [hl.jointsFrom_append, jointsFrom_symbol]

theorem jointsFrom_paren {e : Expr} {t : Text} (h : e.Spelled .sum t) (pos depth : Nat) :
    jointsFrom pos depth false ('(' :: (t ++ [')'])) = jointsFrom (pos + 1) (depth + 1) false t := by
  rw [jointsFrom_lparen, h.jointsFrom_append, jointsFrom_rparen, jointsFrom, List.append_nil]

theorem jointsFrom_blankAfter {level : Level} {e : Expr} {c : Char} {t : Text}
    (hc : Text.isBlank c = true) (h : e.Spelled level t) (pos depth : Nat) :
    jointsFrom pos depth false (t ++ [c]) = jointsFrom pos depth false t := by
  rw [h.jointsFrom_append, jointsFrom_blank _ _ _ hc, jointsFrom, List.append_nil]

theorem jointsFrom_leaf {level : Level} {signs : List Sign} {a : Operand} {t : Text}
    (h : (leaf signs a).Spelled level t) (pos depth : Nat) : jointsFrom pos depth false t = [] := by
  generalize he : leaf signs a = e at h
  induction h generalizing signs pos depth with
  | operand b =>
    have := jointsFrom_operand false b.ne_nil b.solid pos depth []
    rwa [List.append_nil] at this
  | sign s _ ih => cases he; rw [jointsFrom_sign]; exact ih _ _ rfl
  | paren h ih => rw [h.jointsFrom_paren]; exact ih _ _ he
  | node => cases he
  | tighter _ ih => exact ih _ _ he
  | blankBefore hc _ ih => rw [jointsFrom_blank _ _ _ hc]; exact ih _ _ he
  | blankAfter hc h ih => rw [h.jointsFrom_blankAfter hc]; exact ih _ _ he

end StraightLine.Expr.Spelled

/-! ## The root among the joints -/

namespace StraightLine

/-- The least precedence of the operators outside parentheses in a phrase of the level. A factor has
none there, and the keys inside its parentheses are two higher. -/
def Level.low : Level → Nat
  | sum => 1
  | product => 2
  | factor => 3

theorem Operator.precedence_eq (op : Operator) : op.precedence = op.level.low := by
  cases op <;> rfl

theorem Operator.low_lt_tighter (op : Operator) : op.level.low < op.level.tighter.low := by
  cases op <;> decide

theorem Level.low_le_tighter (level : Level) : level.low ≤ level.tighter.low := by
  cases level <;> decide

namespace Expr

open Rhs

theorem Spelled.le_key {level : Level} {e : Expr} {t : Text} (h : e.Spelled level t)
    (pos depth : Nat) : ∀ j ∈ jointsFrom pos depth false t, 2 * depth + level.low ≤ j.key := by
  induction h generalizing pos depth with
  | operand a =>
    rw [(Spelled.operand a).jointsFrom_leaf]
    exact fun j hj => absurd hj List.not_mem_nil
  | sign s _ ih => rw [jointsFrom_sign]; exact ih _ _
  | paren h ih =>
    intro j hj
    rw [h.jointsFrom_paren] at hj
    have := ih _ _ j hj
    -- One level deeper adds two to the key, as much as lies between a sum and a factor.
    simp only [Level.low] at this ⊢
    omega
  | node op hl _ ihl ihr =>
    intro j hj
    rw [hl.jointsFrom_node] at hj
    obtain hj | hj := List.mem_append.mp hj
    · exact ihl _ _ j hj
    · obtain rfl | hj := List.mem_cons.mp hj
      · rw [Joint.key, op.precedence_eq]
      · have := ihr _ _ j hj
        have := op.low_lt_tighter
        omega
  | @tighter level _ _ _ ih =>
    intro j hj
    have := ih _ _ j hj
    have := level.low_le_tighter
    omega
  | blankBefore hc _ ih => rw [jointsFrom_blank _ _ _ hc]; exact ih _ _
  | blankAfter hc h ih => rw [h.jointsFrom_blankAfter hc]; exact ih _ _

/-- The texts before and after the operator between `l` and `r`. Parentheses around all three leave a
half on each side, so neither text need be balanced. -/
structure Sides (l r : Expr) (s t : Text) : Prop where
  strip_lhs : strip s = l.tokens
  strip_rhs : strip t = r.tokens
  operands_lhs : Rhs.operands s = l.operands
  operands_rhs : Rhs.operands t = r.operands

theorem Sides.paren {l r : Expr} {s t : Text} (h : Sides l r s t) :
    Sides l r ('(' :: s) (t ++ [')']) where
  strip_lhs := h.strip_lhs
  strip_rhs := by rw [strip_append, h.strip_rhs]; exact List.append_nil _
  operands_lhs := by rw [operands_cons (by decide), h.operands_lhs]
  operands_rhs := by rw [operands_concat (by decide), h.operands_rhs]

theorem Sides.blankBefore {l r : Expr} {s t : Text} {c : Char} (hc : Text.isBlank c = true)
    (h : Sides l r s t) : Sides l r (c :: s) t where
  strip_lhs := by rw [strip_cons_of_blank hc, h.strip_lhs]
  strip_rhs := h.strip_rhs
  operands_lhs := by rw [operands_cons (isSeparator_of_isBlank hc), h.operands_lhs]
  operands_rhs := h.operands_rhs

theorem Sides.blankAfter {l r : Expr} {s t : Text} {c : Char} (hc : Text.isBlank c = true)
    (h : Sides l r s t) : Sides l r s (t ++ [c]) where
  strip_lhs := h.strip_lhs
  strip_rhs := by
    rw [strip_append, strip_cons_of_blank hc, h.strip_rhs]; exact List.append_nil _
  operands_lhs := h.operands_lhs
  operands_rhs := by rw [operands_concat (isSeparator_of_isBlank hc), h.operands_rhs]

theorem Spelled.exists_root {level : Level} {op : Operator} {l r : Expr} {t : Text}
    (h : (Expr.node op l r).Spelled level t) (pos depth : Nat) :
    ∃ s s' d, t = s ++ op.symbol :: s' ∧ Sides l r s s' ∧
      root? (jointsFrom pos depth false t) =
        some ⟨op, .op op, pos + s.length, pos + s.length + 1, d⟩ := by
  generalize he : Expr.node op l r = e at h
  induction h generalizing pos depth with
  | operand => cases he
  | sign => cases he
  | paren h ih =>
    obtain ⟨s, s', d, rfl, hsides, hroot⟩ := ih (pos + 1) (depth + 1) he
    refine ⟨'(' :: s, s' ++ [')'], d, by simp, hsides.paren, ?_⟩
    rw [h.jointsFrom_paren, hroot, List.length_cons, Nat.add_assoc, Nat.add_comm 1]
  | node op' hl hr =>
    cases he
    refine ⟨_, _, depth, rfl, ⟨hl.strip, hr.strip, hl.operands, hr.operands⟩, ?_⟩
    -- To the left a joint may be as high as the root, to the right it is lower: that is associativity.
    rw [hl.jointsFrom_node]
    apply root?_append_cons
    · intro j hj
      rw [Joint.key, op.precedence_eq]
      exact hl.le_key _ _ j hj
    · intro j hj
      have := hr.le_key _ _ j hj
      have := op.low_lt_tighter
      rw [Joint.key, op.precedence_eq]
      simp only
      omega
  | tighter _ ih => exact ih pos depth he
  | blankBefore hc _ ih =>
    obtain ⟨s, s', d, rfl, hsides, hroot⟩ := ih (pos + 1) depth he
    refine ⟨_ :: s, s', d, rfl, hsides.blankBefore hc, ?_⟩
    rw [jointsFrom_blank _ _ _ hc, hroot, List.length_cons, Nat.add_assoc, Nat.add_comm 1]
  | blankAfter hc h ih =>
    obtain ⟨s, s', d, rfl, hsides, hroot⟩ := ih pos depth he
    refine ⟨s, s' ++ [_], d, by simp, hsides.blankAfter hc, ?_⟩
    rw [h.jointsFrom_blankAfter hc, hroot]

/-! ## Classification of a spelled tree -/

theorem Spelled.classifyStructural_leaf {level : Level} {signs : List Sign} {a : Operand} {t : Text}
    (h : (leaf signs a).Spelled level t) :
    classifyStructural t = .value (leaf signs a).tokens := by
  unfold classifyStructural Token.scan
  rw [joints_scanFrom, h.jointsFrom_leaf]
  exact congrArg Rhs.value h.strip

theorem Spelled.classifyStructural_node {level : Level} {op : Operator} {l r : Expr} {t : Text}
    (h : (Expr.node op l r).Spelled level t) :
    classifyStructural t = .binary ⟨op, l.tokens, r.tokens, l.operands ++ r.operands⟩ := by
  obtain ⟨s, s', d, rfl, hsides, hroot⟩ := h.exists_root 0 0
  rw [Nat.zero_add] at hroot
  rw [classifyStructural_of_root hroot, hsides.strip_lhs, hsides.strip_rhs, hsides.operands_lhs,
    hsides.operands_rhs]

/-- However a tree is spelled, the structural policy finds its root. -/
theorem classify_structural_spelled {e : Expr} {t : Text} (h : e.Spelled .sum t) :
    classify .structural t =
      match e with
      | leaf signs a => .value (signs.map Sign.symbol ++ a.text)
      | node op l r =>
        .binary { op, lhs := l.tokens, rhs := r.tokens, operands := l.operands ++ r.operands } := by
  cases e with
  | leaf signs a => exact h.classifyStructural_leaf
  | node op l r => exact h.classifyStructural_node

def single (c : Char) (hc : isSeparator c = false) : Operand where
  text := [c]
  ne_nil := List.cons_ne_nil c []
  solid := List.forall_mem_singleton.mpr hc

theorem classify_structural_product_of_sum :
    (node .mul (node .add (leaf [.minus] (single 'a' (by decide))) (leaf [] (single 'b' (by decide))))
      (leaf [] (single 'c' (by decide)))).Spelled .sum "( -a+b)* ((c))".toList ∧
      classify .structural "( -a+b)* ((c))".toList =
        .binary ⟨.mul, "-a+b".toList, "c".toList, ["a".toList, "b".toList, "c".toList]⟩ := by
  have ha := Spelled.sign .minus (.operand (single 'a' (by decide)))
  have hb := Spelled.operand (single 'b' (by decide))
  have hc := Spelled.operand (single 'c' (by decide))
  have hsum := Spelled.node .add (.tighter (.tighter ha)) (.tighter hb)
  have hcc := Spelled.paren (.tighter (.tighter (.paren (.tighter (.tighter hc)))))
  have h := Spelled.node .mul (.tighter (.paren (.blankBefore (c := ' ') (by decide) hsum)))
    (.blankBefore (c := ' ') (by decide) hcc)
  exact ⟨.tighter h, classify_structural_spelled (.tighter h)⟩

end Expr

end StraightLine
