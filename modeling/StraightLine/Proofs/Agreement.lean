import StraightLine.Proofs.Divisor
import StraightLine.Proofs.WellFormed

/-!
# Where the policies agree

The structural policy reads operands from the two sides of the root, the legacy policy from the whole text.
Every cut at an operator falls between two operands, so they read the same ones. On the operator itself
they agree where the text has only one and it is not a sign.
-/

namespace StraightLine

namespace Text

/-! ## Words and what separates them -/

theorem flatten_splitOnP (sep : Char → Bool) (t : Text) :
    (t.splitOnP sep).flatten = t.filter (!sep ·) := by
  induction t with
  | nil => simp
  | cons c t ih =>
    obtain ⟨piece, pieces, hsplit⟩ := List.exists_cons_of_ne_nil (List.splitOnP_ne_nil sep t)
    rw [hsplit] at ih
    by_cases hc : sep c = true <;>
      simp [List.splitOnP_cons_eq_if_modifyHead, hc, hsplit, ← ih]

theorem flatten_runs (sep : Char → Bool) (t : Text) : (runs sep t).flatten = t.filter (!sep ·) := by
  rw [← flatten_splitOnP]
  exact List.flatten_filter_not_isEmpty

theorem filter_unwords {ws : List Text} (h : ∀ w ∈ ws, ' ' ∉ w) :
    (unwords ws).filter (· ≠ ' ') = ws.flatten := by
  induction ws with
  | nil => rfl
  | cons w ws ih =>
    have hw : w.filter (· ≠ ' ') = w := by
      rw [List.filter_eq_self]
      intro c hc
      have hne : c ≠ ' ' := fun e => h w (by simp) (e ▸ hc)
      simpa using hne
    have hws := ih fun v hv => h v (List.mem_cons_of_mem _ hv)
    cases ws with
    | nil => rw [unwords_singleton, hw]; simp
    | cons v ws =>
      rw [unwords_cons_cons, List.filter_append, hw, List.filter_cons_of_neg (by simp), hws]
      rfl

theorem trim_of_words_length_le_one {t : Text} (h : (words t).length ≤ 1) :
    trim t = t.filter (!isBlank ·) := by
  have hflat : (words t).flatten = t.filter (!isBlank ·) := flatten_runs isBlank t
  have hsolid : ∀ w ∈ words t, ∀ c ∈ w, isBlank c = false := fun _ hw => sep_of_mem_runs hw
  cases hws : words t with
  | nil =>
    have hpadded : Padded [] t := ⟨t, [], runs_eq_nil_iff.mp hws, by simp [Blank], by simp⟩
    simp [← hflat, hws, trim_of_padded (by simp) hpadded]
  | cons w ws =>
    rw [hws] at h hsolid
    obtain rfl : ws = [] := by simpa using h
    obtain ⟨u, v, ht, hu, -, hv⟩ := exists_eq_append_of_runs hws
    have hpadded : Padded w t := ⟨u, v, hu, runs_eq_nil_iff.mp hv, ht⟩
    simp [← hflat, hws, trim_of_padded (hsolid w (by simp)) hpadded]

end Text

namespace Rhs

/-! ## Operands -/

theorem strip_eq_flatten {t : Text} (h : ∀ op : Operator, op.symbol ∉ t) :
    strip t = (operands t).flatten := by
  unfold operands strip
  rw [Text.flatten_runs]
  apply List.filter_congr
  intro c hc
  by_cases hsep : isSeparator c = true
  · rcases isSeparator_cases hsep with hb | rfl | rfl | ⟨op, rfl⟩
    · simp [hsep, hb]
    · rfl
    · rfl
    · exact absurd hc (h op)
  · have hsep : isSeparator c = false := by simpa using hsep
    obtain ⟨hl, hr⟩ := ne_paren_of_not_separator hsep
    simp [hsep, hl, hr, isBlank_of_not_separator hsep]

theorem classifyStructural_of_legacy_value {t w : Text} (h : classifyLegacy t = .value w) :
    classifyStructural t = .value (strip t) := by
  cases hs : classifyStructural t with
  | value u => rw [classifyStructural_eq_value hs]
  | binary b =>
    obtain ⟨b', hb'⟩ := exists_classifyLegacy_of_structural hs
    rw [h] at hb'
    cases hb'

theorem no_operator_of_value {t w : Text} (h : classifyLegacy t = .value w) (op : Operator) :
    op.symbol ∉ t := by
  intro hop
  obtain ⟨b, hb⟩ := exists_classifyLegacy_binary hop
  rw [h] at hb
  cases hb

/-- Whatever operator a policy finds, the operands are those of the whole text. An operator of the
structural policy has one of the legacy policy beside it, and a value of the legacy policy is one of the
structural policy, written without the spaces. -/
theorem classify_same_operands (t : Text) :
    (∀ policy b, classify policy t = .binary b → b.operands = operands t) ∧
      (∀ b, classify .structural t = .binary b →
        ∃ b', classify .legacy t = .binary b' ∧ b'.operands = b.operands) ∧
      ∀ w, classify .legacy t = .value w →
        classify .structural t = .value (w.filter (· ≠ ' ')) := by
  refine ⟨fun policy b => operands_of_classify, ?_, ?_⟩
  · intro b hb
    obtain ⟨b', hb'⟩ := exists_classifyLegacy_of_structural hb
    refine ⟨b', hb', ?_⟩
    rw [operands_of_classify (show classify .legacy t = .binary b' from hb'), operands_of_classify hb]
  · intro w hw
    have hspace : ∀ v ∈ operands t, ' ' ∉ v := by
      intro v hv
      exact (isOperand_of_mem_operands hv).not_mem (by decide)
    rw [classifyLegacy_eq_value hw, Text.filter_unwords hspace,
      ← strip_eq_flatten (no_operator_of_value hw)]
    exact classifyStructural_of_legacy_value hw

/-! ## A single operator -/

theorem no_operator_of_countP {p q : Text} {op : Operator}
    (h : (p ++ op.symbol :: q).countP Operator.isSymbol = 1) (op' : Operator) :
    op'.symbol ∉ p ∧ op'.symbol ∉ q := by
  have hsymbol : ∀ o : Operator, Operator.isSymbol o.symbol = true :=
    fun o => Operator.isSymbol_iff.mpr ⟨o, rfl⟩
  rw [List.countP_append, List.countP_cons_of_pos (hsymbol op)] at h
  have hp : p.countP Operator.isSymbol = 0 := by omega
  have hq : q.countP Operator.isSymbol = 0 := by omega
  exact ⟨fun hmem => List.countP_eq_zero.mp hp _ hmem (hsymbol op'),
    fun hmem => List.countP_eq_zero.mp hq _ hmem (hsymbol op')⟩

theorem ready_of_getLast? {p : Text} {c : Char} (hp : ∀ op : Operator, op.symbol ∉ p)
    (hlast : (p.filter (!Text.isBlank ·)).getLast? = some c) (hc : c ≠ '(') : ready false p = true := by
  have hmem : c ∈ p := List.mem_of_mem_filter (List.mem_of_getLast? hlast)
  simp [ready, hlast, closes, Operator.isSymbol, hc, Operator.ofChar?_of_not_mem hp hmem]

theorem trim_eq_strip {p : Text} (hl : '(' ∉ p) (hr : ')' ∉ p) (h : (Text.words p).length ≤ 1) :
    Text.trim p = strip p := by
  rw [Text.trim_of_words_length_le_one h]
  apply List.filter_congr
  intro c hc
  have hcl : c ≠ '(' := fun e => hl (e ▸ hc)
  have hcr : c ≠ ')' := fun e => hr (e ▸ hc)
  simp [hcl, hcr]

/-- Both policies cut a text at its only operator unless that is a sign. What they make of the two sides
differs only by parentheses and by blanks between words. -/
theorem classify_single_operator {t p q : Text} {op : Operator} {c : Char}
    (ht : t = p ++ op.symbol :: q) (hone : t.countP Operator.isSymbol = 1)
    (hlast : (p.filter (!Text.isBlank ·)).getLast? = some c) (hc : c ≠ '(') :
    classify .legacy t = .binary ⟨op, Text.trim p, Text.trim q, operands t⟩ ∧
      classify .structural t = .binary ⟨op, strip p, strip q, operands t⟩ ∧
      ('(' ∉ t → ')' ∉ t → (Text.words p).length ≤ 1 → (Text.words q).length ≤ 1 →
        classify .legacy t = classify .structural t) := by
  subst ht
  have hp : ∀ op : Operator, op.symbol ∉ p := fun op' => (no_operator_of_countP hone op').1
  have hq : ∀ op : Operator, op.symbol ∉ q := fun op' => (no_operator_of_countP hone op').2
  have hlegacy : classifyLegacy (p ++ op.symbol :: q) = _ := classifyLegacy_single hp hq
  have hstructural : classifyStructural (p ++ op.symbol :: q) = _ :=
    classifyStructural_single hp hq (ready_of_getLast? hp hlast hc)
  refine ⟨hlegacy, hstructural, ?_⟩
  intro hl hr hwp hwq
  simp only [List.mem_append, List.mem_cons, not_or] at hl hr
  rw [classify, classify, hlegacy, hstructural, trim_eq_strip hl.1 hr.1 hwp,
    trim_eq_strip hl.2.2 hr.2.2 hwq]

/-- Neither parenthesis has a partner; after the `/` there is nothing at all. -/
theorem classify_single_unbalanced :
    classify .legacy ")\u3000-(x y".toList =
        .binary ⟨.sub, ")".toList, "(x y".toList, ["x".toList, "y".toList]⟩ ∧
      classify .structural ")\u3000-(x y".toList =
        .binary ⟨.sub, [], "xy".toList, ["x".toList, "y".toList]⟩ ∧
      classify .legacy " a /".toList = classify .structural " a /".toList := by
  have hminus : ")\u3000-(x y".toList = ")\u3000".toList ++ Operator.sub.symbol :: "(x y".toList := rfl
  have hslash : " a /".toList = " a ".toList ++ Operator.div.symbol :: [] := rfl
  obtain ⟨hlegacy, hstructural, -⟩ :=
    classify_single_operator hminus (by decide) rfl (by decide : ')' ≠ '(')
  obtain ⟨-, -, hsame⟩ := classify_single_operator hslash (by decide) rfl (by decide : 'a' ≠ '(')
  exact ⟨hlegacy, hstructural, hsame (by decide) (by decide) (by decide) (by decide)⟩

end Rhs

end StraightLine
