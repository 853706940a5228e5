import StraightLine.Proofs.Acceptance
import StraightLine.Proofs.Correctness

/-!
# The store before a division

A divisor with a decimal point is stored before the division. The structural policy stores the divisor
itself. The legacy policy stores what stands after the `/`, and parentheses there go with it.
-/

namespace StraightLine

/-! ## Runs and what is around them -/

namespace Text

/-- The first run has only separators before it and a separator or nothing after it, and the others come
from what follows. -/
theorem exists_eq_append_of_runs {sep : Char → Bool} {t w : Text} {ws : List Text}
    (h : runs sep t = w :: ws) :
    ∃ u v, t = u ++ w ++ v ∧ (∀ c ∈ u, sep c = true) ∧ (∀ c ∈ v.head?, sep c = true) ∧
      runs sep v = ws := by
  induction t with
  | nil => cases h
  | cons c t ih =>
    by_cases hc : sep c = true
    · rw [runs_cons hc] at h
      obtain ⟨u, v, rfl, hu, hend, hv⟩ := ih h
      exact ⟨c :: u, v, rfl, List.forall_mem_cons.mpr ⟨hc, hu⟩, hend, hv⟩
    · -- The run is all there is up to the next separator.
      have hne : (c :: t).takeWhile (!sep ·) ≠ [] := by simp [hc]
      have hrun : ∀ d ∈ (c :: t).takeWhile (!sep ·), sep d = false := by
        intro d hd
        simpa using List.mem_takeWhile_imp hd
      have hend : ∀ d ∈ ((c :: t).dropWhile (!sep ·)).head?, sep d = true := by
        intro d hd
        have hhead := List.head?_dropWhile_not (!sep ·) (c :: t)
        rw [Option.mem_def.mp hd] at hhead
        simpa using hhead
      have hcut := List.takeWhile_append_dropWhile (p := (!sep ·)) (l := c :: t)
      rw [← hcut, runs_append hne hrun hend] at h
      cases h
      exact ⟨[], _, by simp, by simp, hend, rfl⟩

end Text

/-! ## The divisor of each policy -/

def Expr.quotient (l r : Operand) : Expr := .node .div (.leaf [] l) (.leaf [] r)

theorem Expr.Spelled.exists_slash {level : Level} {l r : Operand} {t : Text}
    (h : (quotient l r).Spelled level t) :
    ∃ p q, t = p ++ '/' :: q ∧ Rhs.strip p = l.text ∧ Rhs.strip q = r.text ∧
      Rhs.operands q = [r.text] := by
  obtain ⟨p, q, -, ht, hsides, -⟩ := h.exists_root 0 0
  exact ⟨p, q, ht, hsides.strip_lhs, hsides.strip_rhs, hsides.operands_rhs⟩

namespace Rhs

theorem classifyLegacy_quotient {l r : Operand} {p q : Text}
    (h : (Expr.quotient l r).Spelled .sum (p ++ '/' :: q)) (hp : strip p = l.text)
    (hq : strip q = r.text) :
    classifyLegacy (p ++ '/' :: q) =
      .binary ⟨.div, Text.trim p, Text.trim q, [l.text, r.text]⟩ := by
  have hoperands : operands (p ++ Operator.div.symbol :: q) = [l.text, r.text] := h.operands
  have hcut : classifyLegacy (p ++ Operator.div.symbol :: q) = _ :=
    classifyLegacy_single (symbol_not_mem_of_strip hp) (symbol_not_mem_of_strip hq)
  rw [hoperands] at hcut
  exact hcut

/-- What is stored for the divisor `r` when `q` stands after the `/`. -/
def divisorText (r : Operand) (q : Text) : Policy → Text
  | .legacy => Text.trim q
  | .structural => r.text

theorem classify_quotient {l r : Operand} {p q : Text}
    (h : (Expr.quotient l r).Spelled .sum (p ++ '/' :: q)) (hp : strip p = l.text)
    (hq : strip q = r.text) (policy : Policy) :
    ∃ lhs, classify policy (p ++ '/' :: q) =
      .binary ⟨.div, lhs, divisorText r q policy, [l.text, r.text]⟩ := by
  cases policy with
  | legacy => exact ⟨_, classifyLegacy_quotient h hp hq⟩
  | structural => exact ⟨_, h.classifyStructural_node⟩

theorem point_mem_divisorText {r : Operand} {q : Text} (hq : strip q = r.text) (policy : Policy) :
    '.' ∈ divisorText r q policy ↔ '.' ∈ r.text := by
  cases policy with
  | legacy =>
    rw [divisorText, Text.mem_trim_iff (by decide), ← hq, mem_strip]
    exact ⟨fun h => ⟨h, by decide, by decide, by decide⟩, And.left⟩
  | structural => rfl

/-- Only parentheses after the `/` keep the text there from being the divisor itself. -/
theorem trim_eq_divisor_iff {r : Operand} {q : Text} (hstrip : strip q = r.text)
    (hq : operands q = [r.text]) : Text.trim q = r.text ↔ '(' ∉ q ∧ ')' ∉ q := by
  constructor
  · intro h
    have hparen : ∀ c, Text.isBlank c = false → isSeparator c = true → c ∉ q := by
      intro c hb hsep hmem
      rw [← Text.mem_trim_iff hb, h] at hmem
      rw [r.solid c hmem] at hsep
      cases hsep
    exact ⟨hparen '(' (by decide) (by decide), hparen ')' (by decide) (by decide)⟩
  · intro h
    obtain ⟨u, v, hcut, hu, -, hv⟩ := Text.exists_eq_append_of_runs hq
    -- What separates the divisor from the ends is neither a parenthesis nor an operator.
    have hblank : ∀ c ∈ q, isSeparator c = true → Text.isBlank c = true := by
      intro c hc hsep
      rcases isSeparator_cases hsep with hb | rfl | rfl | ⟨op, rfl⟩
      · exact hb
      · exact absurd hc h.1
      · exact absurd hc h.2
      · exact absurd hc (symbol_not_mem_of_strip hstrip op)
    apply Text.trim_of_padded fun c hc => isBlank_of_not_separator (r.solid c hc)
    refine ⟨u, v, fun c hc => hblank c ?_ (hu c hc), fun c hc => hblank c ?_ ?_, hcut⟩
    · simp [hcut, hc]
    · simp [hcut, hc]
    · exact operands_eq_nil_iff.mp hv c hc

end Rhs

/-! ## The code of a division -/

/-- The code of a division of `l` by `r`. If `r` has a decimal point there is one store before the division,
of `source`, and else none. -/
def IR.Divides (l r source : Text) (code : List Instr) : Prop :=
  ∃ ty stored dest target,
    code = (if '.' ∈ r then [.store ty source stored] else []) ++
      [.arith .div ty [l, r] dest, .store ty dest target]

theorem Effect.divides_ofAssignment {b : Binary} {l r : Text} (hop : b.op = .div)
    (hoperands : b.operands = [l, r]) (hpoint : '.' ∈ b.rhs ↔ '.' ∈ r) (stem : Text) (ty : NumType)
    (temps : Nat) (target : Text) :
    IR.Divides l r b.rhs (ofAssignment stem ty temps ⟨target, .binary b⟩).code := by
  have hfloat : b.hasFloatDivisor = true ↔ '.' ∈ r := by
    simp [Binary.hasFloatDivisor, Binary.divisor?, hop, hpoint]
  simp only [ofAssignment, hop, hoperands, hfloat]
  exact ⟨ty, _, _, target, rfl⟩

namespace Traversal

/-- A divisor with a decimal point is stored before the division, once and as the policy spells it. The
legacy policy spells it as the operand exactly when no parenthesis stands after the `/`. -/
theorem visit_quotient (t : Traversal) {text b a : Text} {l r : Operand}
    (hcut : Text.CutOnce (Text.unterminated text) b a) (hb : ∃ c ∈ b, Text.isBlank c = false)
    (h : (Expr.quotient l r).Spelled .sum a) :
    ∃ p q code, Text.trim a = p ++ '/' :: q ∧ Rhs.strip p = l.text ∧ Rhs.strip q = r.text ∧
      (t.visit (.assign text)).code = t.code ++ code ∧
      IR.Divides l.text r.text (Rhs.divisorText r q t.context.options.policy) code ∧
      (Rhs.divisorText r q .legacy = r.text ↔ '(' ∉ q ∧ ')' ∉ q) := by
  have htrim := h.trim
  obtain ⟨p, q, hslash, hp, hq, hoperands⟩ := htrim.exists_slash
  rw [hslash] at htrim
  obtain ⟨lhs, hclassify⟩ := Rhs.classify_quotient htrim hp hq t.context.options.policy
  have hparse : Assignment.parse t.context.options.policy text = .ok ⟨Text.trim b, .binary
      ⟨.div, lhs, Rhs.divisorText r q t.context.options.policy, [l.text, r.text]⟩⟩ := by
    apply Assignment.parse_eq_ok_iff.mpr
    refine ⟨Text.trim a, Assignment.sides?_eq_some_iff.mpr ⟨b, a, hcut, rfl, rfl⟩,
      Text.trim_ne_nil_iff.mpr hb, ?_, rfl⟩
    rw [hslash, hclassify]
  refine ⟨p, q, _, hslash, hp, hq, congrArg Traversal.code (visit_assign_eq hparse), ?_,
    Rhs.trim_eq_divisor_iff hq hoperands⟩
  exact Effect.divides_ofAssignment rfl rfl (Rhs.point_mem_divisorText hq _) _ _ _ _

/-! ### A divisor in parentheses -/

def dividend : Operand := Expr.single 'a' (by decide)

def twoAndAHalf : Operand where
  text := "2.5".toList
  ne_nil := by decide
  solid := by
    have hall : "2.5".toList.all (!Rhs.isSeparator ·) = true := by decide
    intro c hc
    simpa using List.all_eq_true.mp hall c hc

theorem spelled_parenthesised :
    (Expr.quotient dividend twoAndAHalf).Spelled .sum " (a /(2.5))".toList := by
  have ha : (Expr.leaf [] dividend).Spelled .product "a".toList := .tighter (.operand _)
  have hl : (Expr.leaf [] dividend).Spelled .product "a ".toList :=
    .blankAfter (by decide : Text.isBlank ' ' = true) ha
  have hr : (Expr.leaf [] twoAndAHalf).Spelled .factor "(2.5)".toList :=
    .paren (.tighter (.tighter (.operand _)))
  exact .blankBefore (by decide) (.tighter (.tighter (.paren (.tighter (.node .div hl hr)))))

theorem cutOnce_parenthesised :
    Text.CutOnce (Text.unterminated "x := (a /(2.5));".toList) "x ".toList " (a /(2.5))".toList :=
  Text.splitOnBecomes_eq_pair_iff.mp (by decide)

theorem visit_quotient_structural :
    Text.CutOnce (Text.unterminated "x := (a /(2.5));".toList) "x ".toList " (a /(2.5))".toList ∧
      (Expr.quotient dividend twoAndAHalf).Spelled .sum " (a /(2.5))".toList ∧
      IR.Divides "a".toList "2.5".toList "2.5".toList
        (visit { context := Context.under {} .structural } (.assign "x := (a /(2.5));".toList)).code := by
  obtain ⟨p, q, code, -, -, -, hcode, hdivides, -⟩ :=
    visit_quotient { context := Context.under {} .structural } cutOnce_parenthesised
      ⟨'x', by decide, by decide⟩ spelled_parenthesised
  rw [hcode]
  exact ⟨cutOnce_parenthesised, spelled_parenthesised, hdivides⟩

/-- Both closing parentheses are stored with the divisor. -/
theorem visit_quotient_legacy :
    Text.CutOnce (Text.unterminated "x := (a /(2.5));".toList) "x ".toList " (a /(2.5))".toList ∧
      (Expr.quotient dividend twoAndAHalf).Spelled .sum " (a /(2.5))".toList ∧
      (visit { context := {} } (.assign "x := (a /(2.5));".toList)).code =
        [.store .int "(2.5))".toList "$T1".toList,
          .arith .div .int ["a".toList, "2.5".toList] "$T2".toList,
          .store .int "$T2".toList "x".toList] ∧
      ¬ IR.Divides "a".toList "2.5".toList "2.5".toList
        (visit { context := {} } (.assign "x := (a /(2.5));".toList)).code := by
  have hcode : (visit { context := {} } (.assign "x := (a /(2.5));".toList)).code =
      [.store .int "(2.5))".toList "$T1".toList,
        .arith .div .int ["a".toList, "2.5".toList] "$T2".toList,
        .store .int "$T2".toList "x".toList] := by decide
  refine ⟨cutOnce_parenthesised, spelled_parenthesised, hcode, ?_⟩
  intro hdivides
  obtain ⟨ty, stored, dest, target, h⟩ := hdivides
  rw [hcode, if_pos (by decide)] at h
  cases h

end Traversal

end StraightLine
