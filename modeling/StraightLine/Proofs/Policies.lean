import StraightLine.Proofs.Effects
import StraightLine.Proofs.RootOperator

/-!
# The two policies compared

Both policies find the same operands in a right-hand side. Where the structural policy finds an operator
the legacy policy finds one too, and what the legacy policy accepts the structural policy accepts.
-/

namespace StraightLine

namespace Text

theorem runs_cons {sep : Char → Bool} {c : Char} (h : sep c = true) (t : Text) :
    runs sep (c :: t) = runs sep t := by
  simpa using runs_append_cons h [] t

/-- A run at the start of a text ends where a separator follows. -/
theorem runs_append {sep : Char → Bool} {w t : Text} (hne : w ≠ []) (hw : ∀ c ∈ w, sep c = false)
    (ht : ∀ c ∈ t.head?, sep c = true) : runs sep (w ++ t) = w :: runs sep t := by
  have hone : runs sep w = [w] := runs_eq_singleton hne hw
  cases t with
  | nil => rw [List.append_nil, hone, runs_nil]
  | cons c t =>
    have hc := ht c rfl
    rw [runs_append_cons hc, hone, runs_cons hc]
    rfl

theorem runs_eq_nil_iff {sep : Char → Bool} {t : Text} :
    runs sep t = [] ↔ ∀ c ∈ t, sep c = true := by
  induction t with
  | nil => simp
  | cons c t ih =>
    by_cases hc : sep c = true
    · simp [runs_cons hc, ih, hc]
    · have hne : runs sep (c :: t) ≠ [] := by
        obtain ⟨piece, pieces, hsplit⟩ := List.exists_cons_of_ne_nil (List.splitOnP_ne_nil sep t)
        simp [runs, List.splitOnP_cons_eq_if_modifyHead, hc, hsplit]
      simp [hne, hc]

theorem ne_nil_of_mem_runs {sep : Char → Bool} {t w : Text} (h : w ∈ runs sep t) : w ≠ [] := by
  simpa using (List.mem_filter.mp h).2

theorem unwords_eq_nil_iff {ws : List Text} (h : ∀ w ∈ ws, w ≠ []) : unwords ws = [] ↔ ws = [] := by
  cases ws with
  | nil => simp [unwords]
  | cons w ws =>
    have hw := h w (by simp)
    cases ws <;> simp [unwords, List.intercalate, hw]

end Text

namespace Rhs

/-! ## Operands -/

theorem exists_split_of_mem_jointsFrom {t : Text} {pos depth : Nat} {after : Bool} {j : Joint}
    (h : j ∈ jointsFrom pos depth after t) :
    ∃ s s', t = s ++ j.op.symbol :: s' ∧ j.token.start = pos + s.length ∧
      j.token.stop = pos + s.length + 1 := by
  induction t generalizing pos depth after with
  | nil => cases h
  | cons c t ih =>
    -- Every branch but that of the joint itself goes on one character further.
    have further : ∀ {depth : Nat} {after : Bool}, j ∈ jointsFrom (pos + 1) depth after t →
        ∃ s s', c :: t = s ++ j.op.symbol :: s' ∧ j.token.start = pos + s.length ∧
          j.token.stop = pos + s.length + 1 := by
      intro depth after hj
      obtain ⟨s, s', rfl, hstart, hstop⟩ := ih hj
      refine ⟨c :: s, s', rfl, ?_, ?_⟩ <;> simp only [List.length_cons] <;> omega
    unfold jointsFrom at h
    split at h
    · exact further h
    · split at h
      · exact further h
      · split at h
        · exact further h
        · split at h
          · rename_i o ho
            split at h
            · rcases List.mem_cons.mp h with rfl | h
              · exact ⟨[], t, by simp [Operator.ofChar?_eq_some_iff.mp ho], rfl, rfl⟩
              · exact further h
            · exact further h
          · exact further h

theorem classifyStructural_eq_binary {t : Text} {b : Binary} (h : classifyStructural t = .binary b) :
    ∃ s s', t = s ++ b.op.symbol :: s' ∧ b.operands = operands s ++ operands s' := by
  unfold classifyStructural Token.scan at h
  rw [joints_scanFrom] at h
  split at h
  · rename_i op tok hroot
    obtain ⟨s, s', rfl, hstart, hstop⟩ := exists_split_of_mem_jointsFrom (mem_of_root? hroot)
    cases h
    refine ⟨s, s', rfl, ?_⟩
    simp only [Nat.zero_add] at hstart hstop
    simp [hstart, hstop, ← List.drop_drop]
  · cases h

theorem classifyLegacy_eq_binary {t : Text} {b : Binary} (h : classifyLegacy t = .binary b) :
    b.op.symbol ∈ t ∧ b.operands = operands t := by
  unfold classifyLegacy at h
  split at h
  · rename_i op hop
    have hmem := List.find?_some hop
    cases h
    exact ⟨List.contains_iff_mem.mp hmem, rfl⟩
  · cases h

/-- Under either policy the operands of an operation are those of its text. -/
theorem operands_of_classify {policy : Policy} {t : Text} {b : Binary}
    (h : classify policy t = .binary b) : b.operands = operands t := by
  cases policy with
  | legacy => exact (classifyLegacy_eq_binary h).2
  | structural =>
    obtain ⟨s, s', rfl, hop⟩ := classifyStructural_eq_binary h
    rw [hop, operands_append_cons b.op.isSeparator_symbol]

theorem exists_classifyLegacy_binary {t : Text} {op : Operator} (h : op.symbol ∈ t) :
    ∃ b, classifyLegacy t = .binary b := by
  unfold classifyLegacy
  split
  · exact ⟨_, rfl⟩
  · rename_i hnone
    have hop := List.find?_eq_none.mp hnone op (by cases op <;> decide)
    exact absurd (List.contains_iff_mem.mpr h) hop

theorem exists_classifyLegacy_of_structural {t : Text} {b : Binary}
    (h : classifyStructural t = .binary b) : ∃ b', classifyLegacy t = .binary b' := by
  obtain ⟨s, s', rfl, -⟩ := classifyStructural_eq_binary h
  exact exists_classifyLegacy_binary (by simp : b.op.symbol ∈ _)

/-! ## Acceptance -/

theorem operands_eq_nil_iff {t : Text} : operands t = [] ↔ ∀ c ∈ t, isSeparator c = true :=
  Text.runs_eq_nil_iff

theorem isEmpty_classifyLegacy (t : Text) : (classifyLegacy t).isEmpty = (operands t).isEmpty := by
  unfold classifyLegacy
  split
  · rfl
  · have hwords : Text.unwords (operands t) = [] ↔ operands t = [] :=
      Text.unwords_eq_nil_iff fun w hw => Text.ne_nil_of_mem_runs hw
    rw [Bool.eq_iff_iff]
    simpa [isEmpty] using hwords

theorem classifyStructural_eq_value {t w : Text} (h : classifyStructural t = .value w) :
    w = strip t := by
  unfold classifyStructural at h
  split at h
  · cases h
  · cases h; rfl

theorem strip_ne_nil {t : Text} (h : operands t ≠ []) : strip t ≠ [] := by
  intro hnil
  apply h
  rw [operands_eq_nil_iff]
  intro c hc
  by_contra hsep
  simp only [Bool.not_eq_true] at hsep
  obtain ⟨hl, hr⟩ := ne_paren_of_not_separator hsep
  have hmem := mem_strip.mpr ⟨hc, hl, hr, isBlank_of_not_separator hsep⟩
  rw [hnil] at hmem
  cases hmem

theorem isEmpty_classifyStructural {t : Text} (h : operands t ≠ []) :
    (classifyStructural t).isEmpty = false := by
  cases hc : classifyStructural t with
  | binary b =>
    have hops := operands_of_classify (show classify .structural t = .binary b from hc)
    simp [isEmpty, hops, h]
  | value w => simp [isEmpty, classifyStructural_eq_value hc, strip_ne_nil h]

end Rhs

namespace Assignment

theorem parse_structural_of_legacy {text : Text} {a : Assignment} (h : parse .legacy text = .ok a) :
    ∃ rhs, parse .structural text = .ok ⟨a.target, rhs⟩ := by
  obtain ⟨value, hsides, htarget, hrhs, hne⟩ := parse_eq_ok_iff.mp h
  have hops : Rhs.operands value ≠ [] := by
    rw [hrhs, Rhs.classify, Rhs.isEmpty_classifyLegacy] at hne
    simpa using hne
  exact ⟨Rhs.classify .structural value,
    parse_eq_ok_iff.mpr ⟨value, hsides, htarget, rfl, Rhs.isEmpty_classifyStructural hops⟩⟩

/-- An operation of the structural policy is one of the legacy policy, perhaps by another operator. -/
theorem parse_legacy_of_structural {text target : Text} {b : Binary}
    (h : parse .structural text = .ok ⟨target, .binary b⟩) :
    ∃ b', parse .legacy text = .ok ⟨target, .binary b'⟩ := by
  obtain ⟨value, hsides, htarget, hrhs, hne⟩ := parse_eq_ok_iff.mp h
  obtain ⟨b', hb'⟩ := Rhs.exists_classifyLegacy_of_structural hrhs.symm
  have hops : b'.operands = b.operands := by
    rw [(Rhs.classifyLegacy_eq_binary hb').2, Rhs.operands_of_classify hrhs.symm]
  refine ⟨b', parse_eq_ok_iff.mpr ⟨value, hsides, htarget, hb'.symm, ?_⟩⟩
  simpa [Rhs.isEmpty, hops] using hne

end Assignment

end StraightLine
