import StraightLine.Proofs.TextLaws
import StraightLine.Rhs.Classify

/-!
# Expression trees and their texts

The grammar has three levels: sums of products of factors, both associating to the left. A factor is
an operand with signs before it or anything in parentheses, and blanks may stand between any two
tokens, so one tree has many texts. Whatever the spelling, stripping the text leaves the tree's tokens
and its operands are the tree's.
-/

namespace StraightLine

structure Operand where
  text : Text
  ne_nil : text ≠ []
  solid : ∀ c ∈ text, Rhs.isSeparator c = false
  deriving DecidableEq

inductive Sign where
  | plus | minus
  deriving DecidableEq, Repr

def Sign.symbol : Sign → Char
  | plus => '+'
  | minus => '-'

inductive Expr where
  | leaf (signs : List Sign) (operand : Operand)
  | node (op : Operator) (lhs rhs : Expr)
  deriving DecidableEq

inductive Level where
  | sum | product | factor
  deriving DecidableEq, Repr

def Level.tighter : Level → Level
  | sum => product
  | product | factor => factor

def Operator.level : Operator → Level
  | add | sub => .sum
  | mul | div => .product

namespace Expr

def tokens : Expr → Text
  | leaf signs a => signs.map Sign.symbol ++ a.text
  | node op l r => l.tokens ++ op.symbol :: r.tokens

def operands : Expr → List Text
  | leaf _ a => [a.text]
  | node _ l r => l.operands ++ r.operands

inductive Spelled : Level → Expr → Text → Prop
  | operand (a : Operand) : Spelled .factor (leaf [] a) a.text
  | sign (s : Sign) {signs : List Sign} {a : Operand} {t : Text} :
      Spelled .factor (leaf signs a) t → Spelled .factor (leaf (s :: signs) a) (s.symbol :: t)
  | paren {e : Expr} {t : Text} : Spelled .sum e t → Spelled .factor e ('(' :: (t ++ [')']))
  | node (op : Operator) {l r : Expr} {s t : Text} :
      Spelled op.level l s → Spelled op.level.tighter r t →
        Spelled op.level (node op l r) (s ++ op.symbol :: t)
  | tighter {level : Level} {e : Expr} {t : Text} : Spelled level.tighter e t → Spelled level e t
  | blankBefore {level : Level} {e : Expr} {c : Char} {t : Text} :
      Text.isBlank c = true → Spelled level e t → Spelled level e (c :: t)
  | blankAfter {level : Level} {e : Expr} {c : Char} {t : Text} :
      Text.isBlank c = true → Spelled level e t → Spelled level e (t ++ [c])

end Expr

/-! ## Characters of a text -/

theorem Sign.isSeparator_symbol (s : Sign) : Rhs.isSeparator s.symbol = true := by
  cases s <;> decide

theorem Sign.isBlank_symbol (s : Sign) : Text.isBlank s.symbol = false := by
  cases s <;> decide

theorem Operator.isSeparator_symbol (op : Operator) : Rhs.isSeparator op.symbol = true := by
  cases op <;> decide

theorem Operator.isBlank_symbol (op : Operator) : Text.isBlank op.symbol = false := by
  cases op <;> decide

theorem Operator.symbol_injective {op op' : Operator} (h : op.symbol = op'.symbol) : op = op' := by
  have h' := Operator.ofChar?_eq_some_iff.mpr h
  rw [Operator.ofChar?_eq_some_iff.mpr rfl] at h'
  exact Option.some.inj h'

theorem Rhs.isSeparator_of_isBlank {c : Char} (h : Text.isBlank c = true) :
    Rhs.isSeparator c = true := by
  simp [Rhs.isSeparator, h]

theorem Rhs.isBlank_of_not_separator {c : Char} (h : Rhs.isSeparator c = false) :
    Text.isBlank c = false := by
  cases hb : Text.isBlank c with
  | false => rfl
  | true => rw [Rhs.isSeparator_of_isBlank hb] at h; cases h

theorem Rhs.symbol_ne_of_not_separator {c : Char} (h : Rhs.isSeparator c = false) (op : Operator) :
    c ≠ op.symbol := by
  rintro rfl
  rw [op.isSeparator_symbol] at h; cases h

theorem Rhs.ofChar?_of_not_separator {c : Char} (h : Rhs.isSeparator c = false) :
    Operator.ofChar? c = none := by
  cases hop : Operator.ofChar? c with
  | none => rfl
  | some op => exact absurd (Operator.ofChar?_eq_some_iff.mp hop) (symbol_ne_of_not_separator h op)

theorem Rhs.ne_paren_of_not_separator {c : Char} (h : Rhs.isSeparator c = false) :
    c ≠ '(' ∧ c ≠ ')' := by
  constructor
  · rintro rfl; exact absurd h (by decide)
  · rintro rfl; exact absurd h (by decide)

theorem Rhs.ne_paren_of_isBlank {c : Char} (h : Text.isBlank c = true) : c ≠ '(' ∧ c ≠ ')' := by
  constructor
  · rintro rfl; exact absurd h (by decide)
  · rintro rfl; exact absurd h (by decide)

/-! ## Stripping -/

theorem Rhs.strip_append (s t : Text) : Rhs.strip (s ++ t) = Rhs.strip s ++ Rhs.strip t :=
  List.filter_append ..

theorem Rhs.strip_cons_of_blank {c : Char} (h : Text.isBlank c = true) (t : Text) :
    Rhs.strip (c :: t) = Rhs.strip t := by
  simp [Rhs.strip, h]

theorem Rhs.mem_strip {c : Char} {t : Text} :
    c ∈ Rhs.strip t ↔ c ∈ t ∧ c ≠ '(' ∧ c ≠ ')' ∧ Text.isBlank c = false := by
  simp [Rhs.strip, and_assoc]

theorem Rhs.symbol_mem_strip {op : Operator} {t : Text} :
    op.symbol ∈ Rhs.strip t ↔ op.symbol ∈ t := by
  have hl : op.symbol ≠ '(' := by cases op <;> decide
  have hr : op.symbol ≠ ')' := by cases op <;> decide
  simp [Rhs.mem_strip, hl, hr, op.isBlank_symbol]

theorem Rhs.strip_eq_self {t : Text} (h : ∀ c ∈ t, Rhs.isSeparator c = false) :
    Rhs.strip t = t := by
  unfold Rhs.strip
  rw [List.filter_eq_self]
  intro c hc
  have hs := h c hc
  obtain ⟨hl, hr⟩ := Rhs.ne_paren_of_not_separator hs
  simp [hl, hr, Rhs.isBlank_of_not_separator hs]

theorem Rhs.strip_cons_sign (s : Sign) (t : Text) :
    Rhs.strip (s.symbol :: t) = s.symbol :: Rhs.strip t := by
  cases s <;> rfl

theorem Rhs.strip_cons_symbol (op : Operator) (t : Text) :
    Rhs.strip (op.symbol :: t) = op.symbol :: Rhs.strip t := by
  cases op <;> rfl

theorem Rhs.strip_paren (t : Text) : Rhs.strip ('(' :: (t ++ [')'])) = Rhs.strip t := by
  have hl : Rhs.strip ('(' :: (t ++ [')'])) = Rhs.strip (t ++ [')']) := rfl
  rw [hl, Rhs.strip_append, show Rhs.strip [')'] = [] from rfl, List.append_nil]

namespace Expr.Spelled

theorem strip {level : Level} {e : Expr} {t : Text} (h : e.Spelled level t) :
    Rhs.strip t = e.tokens := by
  induction h with
  | operand a => exact Rhs.strip_eq_self a.solid
  | sign s _ ih => rw [Rhs.strip_cons_sign, ih]; rfl
  | paren _ ih => rw [Rhs.strip_paren, ih]
  | node op _ _ ihl ihr => rw [Rhs.strip_append, Rhs.strip_cons_symbol, ihl, ihr]; rfl
  | tighter _ ih => exact ih
  | blankBefore hc _ ih => rw [Rhs.strip_cons_of_blank hc, ih]
  | blankAfter hc _ ih =>
    rw [Rhs.strip_append, Rhs.strip_cons_of_blank hc, show Rhs.strip [] = [] from rfl,
      List.append_nil, ih]

end Expr.Spelled

/-! ## Operands -/

theorem Rhs.operands_cons {c : Char} (h : Rhs.isSeparator c = true) (t : Text) :
    Rhs.operands (c :: t) = Rhs.operands t := by
  have := Rhs.operands_append_cons h [] t
  simpa [Rhs.operands] using this

theorem Rhs.operands_concat {c : Char} (h : Rhs.isSeparator c = true) (t : Text) :
    Rhs.operands (t ++ [c]) = Rhs.operands t := by
  have := Rhs.operands_append_cons h t []
  simpa [Rhs.operands] using this

theorem Rhs.operands_paren (t : Text) : Rhs.operands ('(' :: (t ++ [')'])) = Rhs.operands t := by
  rw [Rhs.operands_cons (by decide), Rhs.operands_concat (by decide)]

namespace Expr.Spelled

theorem operands {level : Level} {e : Expr} {t : Text} (h : e.Spelled level t) :
    Rhs.operands t = e.operands := by
  induction h with
  | operand a => exact Text.runs_eq_singleton a.ne_nil a.solid
  | sign s _ ih => rw [Rhs.operands_cons s.isSeparator_symbol, ih]; rfl
  | paren _ ih => rw [Rhs.operands_paren, ih]
  | node op _ _ ihl ihr => rw [Rhs.operands_append_cons op.isSeparator_symbol, ihl, ihr]; rfl
  | tighter _ ih => exact ih
  | blankBefore hc _ ih => rw [Rhs.operands_cons (Rhs.isSeparator_of_isBlank hc), ih]
  | blankAfter hc _ ih => rw [Rhs.operands_concat (Rhs.isSeparator_of_isBlank hc), ih]

end Expr.Spelled

/-! ## Trimming -/

namespace Expr.Spelled

theorem ne_nil {level : Level} {e : Expr} {t : Text} (h : e.Spelled level t) : t ≠ [] := by
  induction h with
  | operand a => exact a.ne_nil
  | sign => simp
  | paren => simp
  | node => simp
  | tighter _ ih => exact ih
  | blankBefore => simp
  | blankAfter => simp

theorem of_cons {level : Level} {e : Expr} {c : Char} {t : Text} (hc : Text.isBlank c = true)
    (h : e.Spelled level (c :: t)) : e.Spelled level t := by
  generalize hs : c :: t = s at h
  -- A text that begins with a blank was given it by `blankBefore`, or begins with a shorter spelling.
  induction h generalizing t with
  | operand a =>
    have hsolid := a.solid c (by rw [← hs]; simp)
    rw [Rhs.isBlank_of_not_separator hsolid] at hc; cases hc
  | sign s =>
    obtain ⟨rfl, -⟩ := List.cons.inj hs
    rw [s.isBlank_symbol] at hc; cases hc
  | paren =>
    obtain ⟨rfl, -⟩ := List.cons.inj hs
    exact absurd hc (by decide)
  | node op hl hr ihl _ =>
    obtain ⟨d, s', rfl⟩ := List.exists_cons_of_ne_nil hl.ne_nil
    obtain ⟨rfl, rfl⟩ := List.cons.inj hs
    exact .node op (ihl rfl) hr
  | tighter _ ih => exact .tighter (ih hs)
  | blankBefore _ h _ =>
    obtain ⟨-, rfl⟩ := List.cons.inj hs
    exact h
  | blankAfter hd h ih =>
    obtain ⟨d, s', rfl⟩ := List.exists_cons_of_ne_nil h.ne_nil
    obtain ⟨rfl, rfl⟩ := List.cons.inj hs
    exact .blankAfter hd (ih rfl)

theorem of_append_blank {level : Level} {e : Expr} {u t : Text} (hu : Text.Blank u)
    (h : e.Spelled level (u ++ t)) : e.Spelled level t := by
  induction u with
  | nil => exact h
  | cons c u ih =>
    refine ih (fun d hd => hu d (List.mem_cons_of_mem _ hd)) ?_
    exact of_cons (hu c (by simp)) h

theorem of_concat {level : Level} {e : Expr} {c : Char} {t : Text} (hc : Text.isBlank c = true)
    (h : e.Spelled level (t ++ [c])) : e.Spelled level t := by
  generalize hs : t ++ [c] = s at h
  induction h generalizing t with
  | operand a =>
    have hsolid := a.solid c (by rw [← hs]; simp)
    rw [Rhs.isBlank_of_not_separator hsolid] at hc; cases hc
  | sign s h ih =>
    obtain ⟨s', rfl, rfl⟩ := Text.exists_concat_of_append (p := [s.symbol]) h.ne_nil hs
    exact .sign s (ih rfl)
  | @paren e s =>
    have hs' : t ++ [c] = ('(' :: s) ++ [')'] := hs
    obtain ⟨-, hd⟩ := List.append_inj' hs' rfl
    cases hd
    exact absurd hc (by decide)
  | @node op l r s₁ s₂ hl hr _ ihr =>
    have hs' : t ++ [c] = (s₁ ++ [op.symbol]) ++ s₂ := by rw [hs, List.append_cons]
    obtain ⟨s', rfl, rfl⟩ := Text.exists_concat_of_append hr.ne_nil hs'
    rw [← List.append_cons]
    exact .node op hl (ihr rfl)
  | tighter _ ih => exact .tighter (ih hs)
  | @blankBefore _ _ d _ hd h ih =>
    obtain ⟨s', rfl, rfl⟩ := Text.exists_concat_of_append (p := [d]) h.ne_nil hs
    exact .blankBefore hd (ih rfl)
  | blankAfter _ h _ =>
    obtain ⟨rfl, -⟩ := List.append_inj' hs rfl
    exact h

theorem of_blank_append {level : Level} {e : Expr} {t u : Text} (hu : Text.Blank u)
    (h : e.Spelled level (t ++ u)) : e.Spelled level t := by
  induction u using List.reverseRecOn with
  | nil => rwa [List.append_nil] at h
  | append_singleton u c ih =>
    refine ih (fun d hd => hu d (List.mem_append_left _ hd)) ?_
    rw [← List.append_assoc] at h
    exact of_concat (hu c (by simp)) h

theorem trimEnd {level : Level} {e : Expr} {t : Text} (h : e.Spelled level t) :
    e.Spelled level (Text.trimEnd t) := by
  obtain ⟨u, hu, ht⟩ := Text.exists_trimEnd_append t
  rw [ht] at h
  exact of_blank_append hu h

theorem trim {level : Level} {e : Expr} {t : Text} (h : e.Spelled level t) :
    e.Spelled level (Text.trim t) := by
  obtain ⟨u, hu, ht⟩ := Text.exists_append_trimStart t
  rw [ht] at h
  exact (of_append_blank hu h).trimEnd

end Expr.Spelled

end StraightLine
