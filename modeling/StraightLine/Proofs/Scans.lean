import StraightLine.Proofs.Acceptance
import StraightLine.Proofs.SingleOperator

/-!
# Scans of a text

What a scan finds in the rest of a text depends on the part before only through where that ends and how
deeply it is nested. So a scan is taken here as a relation between the text before, the text after and the
tokens found in the latter, and its laws are proved by induction on it. The relation leaves open how wide a
character is: positions may be counted in characters, as `Token.scan` counts them, or in bytes.
-/

namespace StraightLine

/-! ## Positions -/

namespace Text

variable {width : Char → Nat}

def extent (width : Char → Nat) : Text → Nat
  | [] => 0
  | c :: t => width c + extent width t

theorem extent_append (s t : Text) : extent width (s ++ t) = extent width s + extent width t := by
  induction s with
  | nil => simp [extent]
  | cons c s ih => simp only [List.cons_append, extent, ih]; omega

theorem extent_le_of_prefix {s t : Text} (h : s <+: t) : extent width s ≤ extent width t := by
  obtain ⟨r, rfl⟩ := h
  rw [extent_append]
  omega

theorem extent_pos (hwidth : ∀ c, 0 < width c) {t : Text} (h : t ≠ []) : 0 < extent width t := by
  obtain ⟨c, t, rfl⟩ := List.exists_cons_of_ne_nil h
  have := hwidth c
  simp only [extent]
  omega

theorem extent_one (t : Text) : extent (fun _ => 1) t = t.length := by
  induction t with
  | nil => rfl
  | cons c t ih => simp only [extent, ih, List.length_cons]; omega

/-- A character of two texts put together belongs to the second one or the first. -/
theorem split_of_append_eq {w t a b : Text} {c : Char} (h : w ++ t = a ++ c :: b) :
    (∃ r, a = w ++ r ∧ t = r ++ c :: b) ∨ ∃ r, w = a ++ c :: r := by
  obtain ⟨r, ha, ht⟩ | ⟨r, hw, ht⟩ := List.append_eq_append_iff.mp h
  · exact .inl ⟨r, ha, ht⟩
  · cases r with
    | nil => exact .inl ⟨[], by simpa using hw.symm, ht.symm⟩
    | cons d r =>
      cases ht
      exact .inr ⟨r, hw⟩

/-- A character that has a position in common with a stretch of the text belongs to it. -/
theorem mem_of_extent_lt {p q w t : Text} {c : Char} {n : Nat} (hc : p ++ [c] <+: t)
    (hw : q ++ w <+: t) (hlow : extent width p ≤ n) (hhigh : n < extent width (p ++ [c]))
    (hstart : extent width q ≤ n) (hstop : n < extent width (q ++ w)) : c ∈ w := by
  have hends : p ++ [c] <+: q ++ w := by
    rcases List.prefix_or_prefix_of_prefix hc hw with h | h
    · exact h
    · rcases List.prefix_concat_iff.mp h with h | h
      · exact h ▸ List.prefix_refl _
      · have hle : extent width (q ++ w) ≤ extent width p := extent_le_of_prefix h
        omega
  have hbegins : q <+: p := by
    rcases List.prefix_or_prefix_of_prefix ((List.prefix_append ..).trans hw) hc with h | h
    · rcases List.prefix_concat_iff.mp h with h | h
      · rw [h] at hstart
        omega
      · exact h
    · have hle : extent width (p ++ [c]) ≤ extent width q := extent_le_of_prefix h
      omega
  obtain ⟨a, rfl⟩ := hbegins
  rw [List.append_assoc, List.prefix_append_right_inj] at hends
  exact hends.subset (by simp)

end Text

namespace Rhs

theorem nesting_append (depth : Nat) (s t : Text) :
    nesting depth (s ++ t) = nesting (nesting depth s) t := by
  induction s generalizing depth with
  | nil => rfl
  | cons c s ih => exact ih _

theorem nesting_solid {w : Text} (h : ∀ c ∈ w, isSeparator c = false) (depth : Nat) :
    nesting depth w = depth := by
  induction w with
  | nil => rfl
  | cons c w ih =>
    have hc := h c (List.mem_cons_self ..)
    obtain ⟨hl, hr⟩ := ne_paren_of_not_separator hc
    simp only [nesting, if_neg hl, if_neg hr]
    exact ih fun d hd => h d (List.mem_cons_of_mem _ hd)

open Text (extent)

namespace Token

/-! ## What a token stands for -/

def Kind.ofChar? (c : Char) : Option Kind :=
  if c = '(' then some .lparen
  else if c = ')' then some .rparen
  else (Operator.ofChar? c).map .op

def Kind.Reads (kind : Kind) (w : Text) : Prop :=
  if kind = .operand then w ≠ [] ∧ ∀ c ∈ w, isSeparator c = false
  else ∃ c, w = [c] ∧ ofChar? c = some kind

/-- The token for the stretch `w` of a text that has `p` before it. A closing parenthesis has the depth
that it leaves, any other token the depth that it finds. -/
def place (width : Char → Nat) (p w : Text) (kind : Kind) : Token where
  kind
  start := extent width p
  stop := extent width (p ++ w)
  depth := if kind = .rparen then nesting 0 (p ++ w) else nesting 0 p

namespace Kind

variable {kind : Kind} {c : Char} {w : Text}

theorem ofChar?_cases (h : ofChar? c = some kind) :
    c = '(' ∧ kind = .lparen ∨ c = ')' ∧ kind = .rparen ∨
      ∃ op : Operator, c = op.symbol ∧ kind = .op op := by
  unfold ofChar? at h
  split at h
  · cases h
    exact .inl ⟨‹_›, rfl⟩
  · split at h
    · cases h
      exact .inr (.inl ⟨‹_›, rfl⟩)
    · obtain ⟨op, hop, rfl⟩ := Option.map_eq_some_iff.mp h
      exact .inr (.inr ⟨op, Operator.ofChar?_eq_some_iff.mp hop, rfl⟩)

theorem ofChar?_symbol (op : Operator) : ofChar? op.symbol = some (.op op) := by
  cases op <;> rfl

theorem ne_operand_of_ofChar? (h : ofChar? c = some kind) : kind ≠ .operand := by
  obtain ⟨-, rfl⟩ | ⟨-, rfl⟩ | ⟨op, -, rfl⟩ := ofChar?_cases h <;> simp

theorem isSeparator_of_ofChar? (h : ofChar? c = some kind) : isSeparator c = true := by
  obtain ⟨rfl, -⟩ | ⟨rfl, -⟩ | ⟨op, rfl, -⟩ := ofChar?_cases h
  · decide
  · decide
  · exact op.isSeparator_symbol

theorem isBlank_of_ofChar? (h : ofChar? c = some kind) : Text.isBlank c = false := by
  obtain ⟨rfl, -⟩ | ⟨rfl, -⟩ | ⟨op, rfl, -⟩ := ofChar?_cases h
  · decide
  · decide
  · exact op.isBlank_symbol

theorem ofChar?_of_blank (h : Text.isBlank c = true) : ofChar? c = none := by
  cases hc : ofChar? c with
  | none => rfl
  | some kind => rw [isBlank_of_ofChar? hc] at h; cases h

theorem ofChar?_of_solid (h : isSeparator c = false) : ofChar? c = none := by
  cases hc : ofChar? c with
  | none => rfl
  | some kind => rw [isSeparator_of_ofChar? hc] at h; cases h

theorem reads_mark (h : ofChar? c = some kind) : kind.Reads [c] := by
  rw [Reads, if_neg (ne_operand_of_ofChar? h)]
  exact ⟨c, rfl, h⟩

theorem reads_operand : operand.Reads w ↔ w ≠ [] ∧ ∀ c ∈ w, isSeparator c = false := by
  rw [Reads, if_pos rfl]

theorem Reads.cases (h : kind.Reads w) :
    (kind = .operand ∧ w ≠ [] ∧ ∀ c ∈ w, isSeparator c = false) ∨
      ∃ c, w = [c] ∧ ofChar? c = some kind := by
  unfold Reads at h
  split at h
  · exact .inl ⟨‹_›, h⟩
  · exact .inr h

theorem Reads.ne_nil (h : kind.Reads w) : w ≠ [] := by
  obtain ⟨-, hne, -⟩ | ⟨c, rfl, -⟩ := h.cases
  · exact hne
  · simp

theorem Reads.isBlank (h : kind.Reads w) {c : Char} (hc : c ∈ w) : Text.isBlank c = false := by
  obtain ⟨-, -, hw⟩ | ⟨d, rfl, hd⟩ := h.cases
  · exact isBlank_of_not_separator (hw c hc)
  · cases List.mem_singleton.mp hc
    exact isBlank_of_ofChar? hd

/-- A mark is never part of a longer token. -/
theorem Reads.eq_of_mark {a b : Text} {kind' : Kind} (h : kind.Reads (a ++ c :: b))
    (hc : ofChar? c = some kind') : a = [] ∧ b = [] ∧ kind = kind' := by
  obtain ⟨-, -, hw⟩ | ⟨d, hd, hkind⟩ := h.cases
  · have hsep := hw c (by simp)
    rw [isSeparator_of_ofChar? hc] at hsep
    cases hsep
  · rw [List.append_eq_singleton_iff] at hd
    obtain ⟨rfl, hd⟩ | ⟨-, hd⟩ := hd
    · cases hd
      exact ⟨rfl, rfl, Option.some.inj (hkind.symm.trans hc)⟩
    · cases hd

end Kind

/-! ## Scans -/

/-- The tokens of `t` are `toks`, where `p` is the text before it: blanks are passed over, and an operand
goes on up to the next blank or mark. -/
inductive Scans (width : Char → Nat) : Text → Text → List Token → Prop
  | nil {p : Text} : Scans width p [] []
  | blank {p t : Text} {c : Char} {toks : List Token} : Text.isBlank c = true →
      Scans width (p ++ [c]) t toks → Scans width p (c :: t) toks
  | token {p w t : Text} {kind : Kind} {toks : List Token} : kind.Reads w →
      (kind = .operand → ∀ c ∈ t.head?, isSeparator c = true) →
      Scans width (p ++ w) t toks → Scans width p (w ++ t) (place width p w kind :: toks)

namespace Scans

variable {width : Char → Nat} {p t : Text} {toks : List Token}

theorem eq_place_of_mem (h : Scans width p t toks) {tok : Token} (hmem : tok ∈ toks) :
    ∃ q w, p <+: q ∧ q ++ w <+: p ++ t ∧ tok.kind.Reads w ∧ tok = place width q w tok.kind := by
  induction h with
  | nil => cases hmem
  | @blank p t c toks _ _ ih =>
    obtain ⟨q, w, hpq, hqw, hreads, hplace⟩ := ih hmem
    rw [List.append_assoc, List.singleton_append] at hqw
    exact ⟨q, w, (List.prefix_append ..).trans hpq, hqw, hreads, hplace⟩
  | @token p w t kind toks hreads _ _ ih =>
    rcases List.mem_cons.mp hmem with rfl | hmem
    · refine ⟨p, w, List.prefix_refl _, ?_, hreads, rfl⟩
      rw [← List.append_assoc]
      exact List.prefix_append ..
    · obtain ⟨q, v, hpq, hqv, hreads, hplace⟩ := ih hmem
      rw [List.append_assoc] at hqv
      exact ⟨q, v, (List.prefix_append ..).trans hpq, hqv, hreads, hplace⟩

theorem le_start (h : Scans width p t toks) {tok : Token} (hmem : tok ∈ toks) :
    extent width p ≤ tok.start := by
  obtain ⟨q, w, hpq, -, -, hplace⟩ := h.eq_place_of_mem hmem
  rw [hplace]
  exact Text.extent_le_of_prefix hpq

theorem pairwise (h : Scans width p t toks) : toks.Pairwise fun a b => a.stop ≤ b.start := by
  induction h with
  | nil => exact .nil
  | blank _ _ ih => exact ih
  | token _ _ h ih => exact List.pairwise_cons.mpr ⟨fun _ => h.le_start, ih⟩

/-- Every character that is no blank belongs to a token. -/
theorem exists_token (h : Scans width p t toks) {a b : Text} {c : Char} (ht : t = a ++ c :: b)
    (hc : Text.isBlank c = false) :
    ∃ a₁ a₂ b₁ kind, a = a₁ ++ a₂ ∧ kind.Reads (a₂ ++ c :: b₁) ∧
      place width (p ++ a₁) (a₂ ++ c :: b₁) kind ∈ toks := by
  induction h generalizing a b with
  | nil => simp at ht
  | @blank p t d toks hd _ ih =>
    cases a with
    | nil =>
      cases ht
      rw [hc] at hd
      cases hd
    | cons e a =>
      cases ht
      obtain ⟨a₁, a₂, b₁, kind, rfl, hreads, hmem⟩ := ih rfl
      refine ⟨d :: a₁, a₂, b₁, kind, rfl, hreads, ?_⟩
      simpa using hmem
  | @token p w t kind toks hreads _ _ ih =>
    obtain ⟨r, rfl, hrest⟩ | ⟨r, rfl⟩ := Text.split_of_append_eq ht
    · obtain ⟨a₁, a₂, b₁, kind', rfl, hreads', hmem⟩ := ih hrest
      refine ⟨w ++ a₁, a₂, b₁, kind', by simp, hreads', ?_⟩
      exact List.mem_cons_of_mem _ (by simpa using hmem)
    · exact ⟨[], a, r, kind, rfl, hreads, by simp⟩

theorem place_mem_of_mark (h : Scans width p t toks) {a b : Text} {c : Char} {kind : Kind}
    (ht : t = a ++ c :: b) (hc : Kind.ofChar? c = some kind) :
    place width (p ++ a) [c] kind ∈ toks := by
  obtain ⟨a₁, a₂, b₁, kind', rfl, hreads, hmem⟩ := h.exists_token ht (Kind.isBlank_of_ofChar? hc)
  obtain ⟨rfl, rfl, rfl⟩ := hreads.eq_of_mark hc
  simpa using hmem

/-- The operands among the tokens are those of the text, in their order. -/
theorem forall₂_operands (h : Scans width p t toks) :
    List.Forall₂ (fun tok w => ∃ q, q ++ w <+: p ++ t ∧ tok = place width q w .operand)
      (toks.filter (·.kind = .operand)) (operands t) := by
  induction h with
  | nil => exact .nil
  | @blank p t c toks hc _ ih =>
    rw [operands_cons (isSeparator_of_isBlank hc)]
    simpa using ih
  | @token p w t kind toks hreads hnext _ ih =>
    rw [List.append_assoc] at ih
    obtain ⟨rfl, hne, hw⟩ | ⟨c, rfl, hc⟩ := hreads.cases
    · rw [operands, Text.runs_append hne hw (hnext rfl), List.filter_cons_of_pos (by simp [place])]
      refine .cons ⟨p, ?_, rfl⟩ ih
      rw [← List.append_assoc]
      exact List.prefix_append ..
    · have hkind : (place width p [c] kind).kind ≠ .operand := Kind.ne_operand_of_ofChar? hc
      rw [List.filter_cons_of_neg (by simpa using hkind)]
      exact (operands_cons (Kind.isSeparator_of_ofChar? hc) t) ▸ ih

end Scans

/-! ## Scanning by recursion -/

theorem place_one (p w : Text) (kind : Kind) :
    place (fun _ => 1) p w kind =
      ⟨kind, p.length, p.length + w.length,
        if kind = .rparen then nesting (nesting 0 p) w else nesting 0 p⟩ := by
  simp only [place, Text.extent_one, List.length_append, nesting_append]

theorem char_cases (c : Char) :
    isSeparator c = false ∨ Text.isBlank c = true ∨ ∃ kind, Kind.ofChar? c = some kind := by
  cases h : isSeparator c with
  | false => exact .inl rfl
  | true =>
    right
    rcases isSeparator_cases h with hb | rfl | rfl | ⟨op, rfl⟩
    · exact .inl hb
    · exact .inr ⟨_, rfl⟩
    · exact .inr ⟨_, rfl⟩
    · exact .inr ⟨_, Kind.ofChar?_symbol op⟩

section
variable (pos depth : Nat) {c : Char}

theorem scanFrom_mark {kind : Kind} (h : Kind.ofChar? c = some kind) (t : Text) :
    scanFrom pos depth (c :: t) =
      ⟨kind, pos, pos + 1, if kind = .rparen then nesting depth [c] else depth⟩ ::
        scanFrom (pos + 1) (nesting depth [c]) t := by
  obtain ⟨rfl, rfl⟩ | ⟨rfl, rfl⟩ | ⟨op, rfl, rfl⟩ := Kind.ofChar?_cases h
  · rfl
  · rfl
  · cases op <;> rfl

theorem scanFrom_blank (h : Text.isBlank c = true) (t : Text) :
    scanFrom pos depth (c :: t) = scanFrom (pos + 1) (nesting depth [c]) t := by
  obtain ⟨hl, hr⟩ := ne_paren_of_isBlank h
  simp only [scanFrom, nesting, if_neg hl, if_neg hr, if_pos h]

theorem scanFrom_solid (h : isSeparator c = false) (t : Text) :
    scanFrom pos depth (c :: t) = consOperand pos depth (scanFrom (pos + 1) depth t) := by
  obtain ⟨hl, hr⟩ := ne_paren_of_not_separator h
  have hb : ¬ Text.isBlank c = true := by simp [isBlank_of_not_separator h]
  simp only [scanFrom, if_neg hl, if_neg hr, if_neg hb, ofChar?_of_not_separator h]

theorem consOperand_of_apart {toks : List Token}
    (h : ∀ tok ∈ toks, tok.kind = .operand → tok.start ≠ pos + 1) :
    consOperand pos depth toks = ⟨.operand, pos, pos + 1, depth⟩ :: toks := by
  unfold consOperand
  split
  · have hne := h _ (List.mem_cons_self ..) rfl
    rw [if_neg hne]
  · rfl

end

theorem Scans.consOperand {p t : Text} {c : Char} {toks : List Token} (hc : isSeparator c = false)
    (h : Scans (fun _ => 1) (p ++ [c]) t toks) :
    Scans (fun _ => 1) p (c :: t) (consOperand p.length (nesting 0 p) toks) := by
  have hone : Kind.operand.Reads [c] := Kind.reads_operand.mpr ⟨by simp, by simpa using hc⟩
  -- Alone, where no operand begins right after the character.
  have halone : (∀ d ∈ t.head?, isSeparator d = true) →
      (∀ tok ∈ toks, tok.kind = .operand → p.length + 2 ≤ tok.start) →
      Scans (fun _ => 1) p (c :: t) (Token.consOperand p.length (nesting 0 p) toks) := by
    intro hnext hfar
    rw [consOperand_of_apart]
    · have htoken := Scans.token hone (fun _ => hnext) h
      rw [place_one] at htoken
      exact htoken
    · intro tok hmem hkind
      have := hfar tok hmem hkind
      omega
  have hfar : ∀ {d : Char} {t' : Text} {toks' : List Token},
      Scans (fun _ => 1) (p ++ [c] ++ [d]) t' toks' → ∀ tok ∈ toks', p.length + 2 ≤ tok.start := by
    intro d t' toks' h' tok hmem
    have hle := h'.le_start hmem
    simpa [Text.extent_one] using hle
  cases h with
  | nil => exact halone (by simp) (by simp)
  | blank hb h => exact halone (by simpa using isSeparator_of_isBlank hb) fun tok hmem _ => hfar h tok hmem
  | @token _ w t kind toks hreads hnext h =>
    obtain ⟨rfl, -, hw⟩ | ⟨d, rfl, hd⟩ := hreads.cases
    · -- The character begins the operand after it, which is as deeply nested.
      have hdepth : nesting 0 (p ++ [c]) = nesting 0 p := by
        rw [nesting_append, nesting_solid (by simpa using hc)]
      have hlonger : Kind.operand.Reads (c :: w) :=
        Kind.reads_operand.mpr ⟨by simp, by simpa using ⟨hc, hw⟩⟩
      have htoken := Scans.token hlonger hnext (by simpa using h)
      rw [place_one] at htoken
      rw [place_one, hdepth]
      simpa [Token.consOperand, Nat.add_assoc, Nat.add_comm 1] using htoken
    · refine halone (by simpa using Kind.isSeparator_of_ofChar? hd) ?_
      intro tok hmem hkind
      rcases List.mem_cons.mp hmem with rfl | hmem
      · exact absurd hkind (Kind.ne_operand_of_ofChar? hd)
      · exact hfar h tok hmem

theorem scans_scanFrom (p t : Text) :
    Scans (fun _ => 1) p t (scanFrom p.length (nesting 0 p) t) := by
  induction t generalizing p with
  | nil => exact .nil
  | cons c t ih =>
    have hrest := ih (p ++ [c])
    rw [List.length_append, List.length_singleton, nesting_append] at hrest
    obtain hc | hc | ⟨kind, hc⟩ := char_cases c
    · rw [nesting_solid (by simpa using hc)] at hrest
      rw [scanFrom_solid _ _ hc]
      exact hrest.consOperand hc
    · rw [scanFrom_blank _ _ hc]
      exact .blank hc hrest
    · have htoken := Scans.token (Kind.reads_mark hc)
        (fun e => absurd e (Kind.ne_operand_of_ofChar? hc)) hrest
      rw [place_one] at htoken
      rw [scanFrom_mark _ _ hc]
      exact htoken

end Token

end Rhs

end StraightLine
