import StraightLine.Proofs.Acceptance

/-!
# Well-formed records

Whatever texts a traversal is given, what it records has a known shape: operands are free of separators,
values and targets are trimmed, names hold no comma. So the queues of a recording, which flatten records
to texts, lose nothing.
-/

namespace StraightLine

/-! ## Pieces and words -/

namespace Text

theorem sep_of_mem_splitOnP {sep : Char → Bool} {t w : Text} (h : w ∈ t.splitOnP sep) :
    ∀ c ∈ w, sep c = false := by
  induction t generalizing w with
  | nil =>
    rw [List.splitOnP_nil] at h
    rw [List.mem_singleton.mp h]
    simp
  | cons d t ih =>
    rw [List.splitOnP_cons_eq_if_modifyHead] at h
    by_cases hd : sep d = true
    · rw [if_pos hd] at h
      rcases List.mem_cons.mp h with rfl | h
      · simp
      · exact ih h
    · obtain ⟨p, ps, hsplit⟩ := List.exists_cons_of_ne_nil (List.splitOnP_ne_nil sep t)
      rw [if_neg hd, hsplit, List.modifyHead_cons] at h
      rw [hsplit] at ih
      rcases List.mem_cons.mp h with rfl | h
      · intro c hc
        rcases List.mem_cons.mp hc with rfl | hc
        · simpa using hd
        · exact ih (by simp) c hc
      · exact ih (List.mem_cons_of_mem _ h)

theorem sep_of_mem_runs {sep : Char → Bool} {t w : Text} (h : w ∈ runs sep t) :
    ∀ c ∈ w, sep c = false :=
  sep_of_mem_splitOnP (List.mem_filter.mp h).1

structure Word (w : Text) : Prop where
  ne_nil : w ≠ []
  solid : ∀ c ∈ w, isBlank c = false

def words (t : Text) : List Text := runs isBlank t

theorem unwords_cons_cons (w v : Text) (ws : List Text) :
    unwords (w :: v :: ws) = w ++ ' ' :: unwords (v :: ws) := by
  rw [unwords, List.intercalate_cons_cons, List.append_assoc]
  rfl

theorem unwords_singleton (w : Text) : unwords [w] = w := by
  simp [unwords]

/-- Joining with a separator is undone by looking for runs. -/
theorem runs_unwords {sep : Char → Bool} (hsep : sep ' ' = true) {ws : List Text}
    (hne : ∀ w ∈ ws, w ≠ []) (hsolid : ∀ w ∈ ws, ∀ c ∈ w, sep c = false) :
    runs sep (unwords ws) = ws := by
  induction ws with
  | nil => exact runs_nil sep
  | cons w ws ih =>
    have hone : runs sep w = [w] := runs_eq_singleton (hne w (by simp)) (hsolid w (by simp))
    cases ws with
    | nil => rw [unwords_singleton, hone]
    | cons v ws =>
      have hrest := ih (fun u hu => hne u (List.mem_cons_of_mem _ hu))
        fun u hu => hsolid u (List.mem_cons_of_mem _ hu)
      rw [unwords_cons_cons, runs_append_cons hsep, hone, hrest]
      rfl

theorem words_unwords {ws : List Text} (h : ∀ w ∈ ws, Word w) : words (unwords ws) = ws :=
  runs_unwords (by decide) (fun w hw => (h w hw).ne_nil) fun w hw => (h w hw).solid

theorem Word.trimmed {w : Text} (h : Word w) : Trimmed w := trimmed_of_solid h.solid

theorem Trimmed.append {s t : Text} (hs : Trimmed s) (ht : Trimmed t) (hsn : s ≠ []) (htn : t ≠ [])
    (m : Text) : Trimmed (s ++ (m ++ t)) where
  head := by
    rw [List.head?_append_of_ne_nil _ hsn]
    exact hs.head
  last := by
    rw [← List.append_assoc, List.getLast?_append_of_ne_nil _ htn]
    exact ht.last

theorem trimmed_unwords {ws : List Text} (h : ∀ w ∈ ws, Word w) : Trimmed (unwords ws) := by
  induction ws with
  | nil => exact ⟨by simp [unwords], by simp [unwords]⟩
  | cons w ws ih =>
    have hw := h w (by simp)
    cases ws with
    | nil => rw [unwords_singleton]; exact hw.trimmed
    | cons v ws =>
      have hrest := ih fun u hu => h u (List.mem_cons_of_mem _ hu)
      have hne : unwords (v :: ws) ≠ [] := by
        rw [ne_eq, unwords_eq_nil_iff fun u hu => (h u (List.mem_cons_of_mem _ hu)).ne_nil]
        simp
      rw [unwords_cons_cons]
      exact hw.trimmed.append hrest hw.ne_nil hne [' ']

theorem not_mem_unwords {ws : List Text} {c : Char} (hc : c ≠ ' ') (h : ∀ w ∈ ws, c ∉ w) :
    c ∉ unwords ws := by
  induction ws with
  | nil => simp [unwords]
  | cons w ws ih =>
    cases ws with
    | nil => rw [unwords_singleton]; exact h w (by simp)
    | cons v ws =>
      have hrest := ih fun u hu => h u (List.mem_cons_of_mem _ hu)
      rw [unwords_cons_cons]
      simp [h w, hc, hrest]

end Text

/-! ## The shape of a record -/

structure Rhs.IsOperand (w : Text) : Prop where
  ne_nil : w ≠ []
  solid : ∀ c ∈ w, isSeparator c = false

structure Rhs.IsValue (w : Text) : Prop where
  ne_nil : w ≠ []
  trimmed : Text.Trimmed w
  lparen : '(' ∉ w
  rparen : ')' ∉ w

structure Assignment.IsTarget (w : Text) : Prop where
  ne_nil : w ≠ []
  trimmed : Text.Trimmed w
  becomes : ¬ [':', '='] <:+: w

structure Construct.IsName (w : Text) : Prop where
  ne_nil : w ≠ []
  trimmed : Text.Trimmed w
  comma : ',' ∉ w

def Record.WellFormed : Record → Prop
  | move value target => Rhs.IsValue value ∧ Assignment.IsTarget target
  | arith _ operands target =>
    operands ≠ [] ∧ (∀ w ∈ operands, Rhs.IsOperand w) ∧ Assignment.IsTarget target
  | read var => Construct.IsName var
  | write var => Construct.IsName var ∧ var ≠ IR.newline
  | writeNewline => True

/-! ## Right-hand sides -/

namespace Rhs

theorem isOperand_of_mem_operands {t w : Text} (h : w ∈ operands t) : IsOperand w :=
  ⟨Text.ne_nil_of_mem_runs h, Text.sep_of_mem_runs h⟩

theorem IsOperand.word {w : Text} (h : IsOperand w) : Text.Word w :=
  ⟨h.ne_nil, fun c hc => isBlank_of_not_separator (h.solid c hc)⟩

theorem IsOperand.not_mem {w : Text} (h : IsOperand w) {c : Char} (hc : isSeparator c = true) :
    c ∉ w := by
  intro hmem
  rw [h.solid c hmem] at hc
  cases hc

theorem isValue_unwords {ws : List Text} (hne : ws ≠ []) (h : ∀ w ∈ ws, IsOperand w) :
    IsValue (Text.unwords ws) where
  ne_nil := by
    rw [ne_eq, Text.unwords_eq_nil_iff fun w hw => (h w hw).ne_nil]
    exact hne
  trimmed := Text.trimmed_unwords fun w hw => (h w hw).word
  lparen := Text.not_mem_unwords (by decide) fun w hw => (h w hw).not_mem (by decide)
  rparen := Text.not_mem_unwords (by decide) fun w hw => (h w hw).not_mem (by decide)

theorem isValue_strip {t : Text} (hne : strip t ≠ []) : IsValue (strip t) where
  ne_nil := hne
  trimmed := (Text.Word.mk hne fun _ hc => (mem_strip.mp hc).2.2.2).trimmed
  lparen := fun h => (mem_strip.mp h).2.1 rfl
  rparen := fun h => (mem_strip.mp h).2.2.1 rfl

theorem classifyLegacy_eq_value {t w : Text} (h : classifyLegacy t = .value w) :
    w = Text.unwords (operands t) := by
  unfold classifyLegacy at h
  split at h
  · cases h
  · cases h; rfl

theorem isValue_of_classify {policy : Policy} {t w : Text} (h : classify policy t = .value w)
    (hne : w ≠ []) : IsValue w := by
  cases policy with
  | legacy =>
    cases classifyLegacy_eq_value h
    refine isValue_unwords ?_ fun w hw => isOperand_of_mem_operands hw
    intro hnil
    exact hne (by rw [hnil]; rfl)
  | structural =>
    cases classifyStructural_eq_value h
    exact isValue_strip hne

end Rhs

/-! ## Constructs -/

theorem Assignment.isTarget_of_sides {text target value : Text}
    (h : sides? text = some (target, value)) (hne : target ≠ []) : IsTarget target := by
  obtain ⟨b, a, hcut, rfl, -⟩ := sides?_eq_some_iff.mp h
  have hb : b ∈ Text.splitOnBecomes (Text.unterminated text) := by
    rw [Text.splitOnBecomes_eq_pair_iff.mpr hcut]
    simp
  refine ⟨hne, Text.trimmed_trim b, ?_⟩
  intro hbecomes
  exact Text.not_infix_of_mem_splitOnBecomes hb (hbecomes.trans (Text.trim_isInfix b))

theorem Assignment.wellFormed_record {policy : Policy} {text : Text} {a : Assignment}
    (h : parse policy text = .ok a) : a.record.WellFormed := by
  obtain ⟨value, hsides, htarget, hrhs, hne⟩ := parse_eq_ok_iff.mp h
  have hshape := isTarget_of_sides hsides htarget
  obtain ⟨target, w | b⟩ := a
  · have hw : w ≠ [] := by simpa [Rhs.isEmpty] using hne
    exact ⟨Rhs.isValue_of_classify hrhs.symm hw, hshape⟩
  · have hb : b.operands ≠ [] := by simpa [Rhs.isEmpty] using hne
    refine ⟨hb, ?_, hshape⟩
    intro w hw
    rw [Rhs.operands_of_classify hrhs.symm] at hw
    exact Rhs.isOperand_of_mem_operands hw

theorem Construct.isName_of_mem_entries {names w : Text} (h : w ∈ Text.entries names) :
    IsName w := by
  obtain ⟨hmem, hne⟩ := List.mem_filter.mp h
  obtain ⟨piece, hpiece, rfl⟩ := List.mem_map.mp hmem
  refine ⟨by simpa using hne, Text.trimmed_trim piece, ?_⟩
  intro hcomma
  rw [List.splitOn_eq_splitOnP] at hpiece
  have hsep := Text.sep_of_mem_splitOnP hpiece ',' ((Text.trim_isInfix piece).subset hcomma)
  simp at hsep

theorem Construct.wellFormed_of_mem_records {policy : Policy} {c : Construct} {r : Record}
    (h : r ∈ c.records policy) : r.WellFormed := by
  cases c with
  | var | string => cases h
  | assign text =>
    rw [records] at h
    cases hparse : Assignment.parse policy text with
    | error => rw [hparse] at h; cases h
    | ok a =>
      rw [hparse] at h
      cases List.mem_singleton.mp h
      exact Assignment.wellFormed_record hparse
  | read names =>
    obtain ⟨w, hw, rfl⟩ := List.mem_map.mp h
    exact isName_of_mem_entries hw
  | write names =>
    obtain ⟨w, hw, rfl⟩ := List.mem_map.mp h
    unfold Effect.writeRecord
    by_cases hnewline : w = IR.newline
    · rw [if_pos hnewline]
      trivial
    · rw [if_neg hnewline]
      exact ⟨isName_of_mem_entries hw, hnewline⟩

/-! ## Calls of a traversal -/

/-- A traversal is driven by calls: a program begins or ends, a construct of it is visited, or the
records so far are taken. -/
inductive Call where
  | enter
  | visit (c : Construct)
  | exit
  | take
  deriving DecidableEq, Repr

namespace Traversal

def call (t : Traversal) : Call → Traversal
  | .enter => t.enter
  | .visit c => t.visit c
  | .exit => t
  | .take => t.takeRecords

def callAll (t : Traversal) (calls : List Call) : Traversal := calls.foldl call t

theorem wellFormed_call {t : Traversal} (h : ∀ r ∈ t.records, r.WellFormed) (call : Call) :
    ∀ r ∈ (t.call call).records, r.WellFormed := by
  cases call with
  | enter | exit => exact h
  | take => exact fun r hr => absurd hr List.not_mem_nil
  | visit c =>
    intro r hr
    rcases List.mem_append.mp hr with hr | hr
    · exact h r hr
    · rw [effect, c.effect_records] at hr
      exact Construct.wellFormed_of_mem_records hr

theorem wellFormed_callAll {t : Traversal} (h : ∀ r ∈ t.records, r.WellFormed) (calls : List Call) :
    ∀ r ∈ (t.callAll calls).records, r.WellFormed := by
  induction calls generalizing t with
  | nil => exact h
  | cons call calls ih => exact ih (wellFormed_call h call)

end Traversal

/-! ## Queues -/

namespace Record

def operandsOf? (op : Operator) : Record → Option (List Text)
  | arith op' operands _ => if op = op' then some operands else none
  | _ => none

def isWrite : Record → Bool
  | write _ | writeNewline => true
  | _ => false

theorem words_entry? {r : Record} (h : r.WellFormed) (op : Operator) :
    (Queue.entry? (.arith op) r).map Text.words = r.operandsOf? op := by
  cases r with
  | arith op' operands target =>
    by_cases hop : op = op'
    · have hwords := Text.words_unwords fun w hw => (h.2.1 w hw).word
      simp [Queue.entry?, operandsOf?, hop, hwords]
    · simp [Queue.entry?, operandsOf?, hop]
  | _ => rfl

end Record

namespace Recording

theorem words_queue_arith {m : Recording} (h : ∀ r ∈ m.records, r.WellFormed) (op : Operator) :
    (m.queue (.arith op)).map Text.words = m.records.filterMap (·.operandsOf? op) := by
  rw [queue, List.map_filterMap]
  exact List.filterMap_congr fun r hr => Record.words_entry? (h r hr) op

theorem newline_queue_write {m : Recording} (h : ∀ r ∈ m.records, r.WellFormed) :
    List.Forall₂ (fun r entry => entry = IR.newline ↔ r = .writeNewline)
      (m.records.filter (·.isWrite)) (m.queue .write) := by
  obtain ⟨rs, temps⟩ := m
  induction rs with
  | nil => exact .nil
  | cons r rs ih =>
    have ih := ih fun q hq => h q (List.mem_cons_of_mem _ hq)
    cases r with
    | write var =>
      have hvar : var ≠ IR.newline := (h (.write var) (by simp)).2
      exact .cons (by simp [hvar]) ih
    | writeNewline => exact .cons (by simp) ih
    | move | arith | read => exact ih

end Recording

namespace Traversal

/-- Whatever a traversal is called with, its records are well-formed. Words read from a queue of operations
are the operands of these operations, and only a line break is `newline` in the queue of writes. -/
theorem recording_callAll_wellFormed (c : Context) (calls : List Call) :
    (∀ r ∈ (callAll { context := c } calls).recording.records, r.WellFormed) ∧
      (∀ op, ((callAll { context := c } calls).recording.queue (.arith op)).map Text.words =
        (callAll { context := c } calls).recording.records.filterMap (·.operandsOf? op)) ∧
      List.Forall₂ (fun r entry => entry = IR.newline ↔ r = .writeNewline)
        ((callAll { context := c } calls).recording.records.filter (·.isWrite))
        ((callAll { context := c } calls).recording.queue .write) := by
  have h : ∀ r ∈ (callAll { context := c } calls).recording.records, r.WellFormed :=
    wellFormed_callAll (fun r hr => absurd hr List.not_mem_nil) calls
  exact ⟨h, Recording.words_queue_arith h, Recording.newline_queue_write h⟩

end Traversal

end StraightLine
