import StraightLine.Proofs.Scans

/-!
# Tokens and the text they stand for

The tokens of a text come in its order, do not overlap and leave out nothing but blanks; its operands are
those that cutting at the separators gives. This holds of the tokens with places counted in characters and
of those that a single pass finds, which counts in bytes and keeps an operand pending until it ends.
-/

namespace StraightLine.Rhs.Token

open Text (extent)

/-! ## Scanning in one pass over the bytes -/

/-- A pass in progress: the tokens found so far, the depth and the byte reached, and the byte at which the
operand began that is being read. -/
structure Pass where
  found : List Token := []
  depth : Nat := 0
  pos : Nat := 0
  pending : Option Nat := none

namespace Pass

def flush (s : Pass) : Pass :=
  match s.pending with
  | none => s
  | some start =>
    { s with found := s.found ++ [⟨.operand, start, s.pos, s.depth⟩], pending := none }

def push (s : Pass) (kind : Kind) (depth : Nat) : Pass :=
  { s with found := s.found ++ [⟨kind, s.pos, s.pos + 1, depth⟩] }

def mark (s : Pass) : Kind → Pass
  | .lparen => { s.push .lparen s.depth with depth := s.depth + 1 }
  | .rparen => { s.push .rparen (s.depth - 1) with depth := s.depth - 1 }
  | kind => s.push kind s.depth

def step (s : Pass) (c : Char) : Pass :=
  let s :=
    match Kind.ofChar? c with
    | some kind => s.flush.mark kind
    | none =>
      if Text.isBlank c then s.flush else { s with pending := some (s.pending.getD s.pos) }
  { s with pos := s.pos + c.utf8Size }

theorem flush_flush (s : Pass) : s.flush.flush = s.flush := by
  unfold flush
  cases h : s.pending <;> simp [h]

theorem step_flush (s : Pass) {c : Char} (h : isSeparator c = true) : s.flush.step c = s.step c := by
  obtain hc | hc | ⟨kind, hc⟩ := char_cases c
  · rw [h] at hc
    cases hc
  · simp only [step, Kind.ofChar?_of_blank hc, if_pos hc, flush_flush]
  · simp only [step, hc, flush_flush]

/-- An operand that is being read ends before a text that begins with none of its characters. -/
theorem flush_foldl_flush (s : Pass) {t : Text} (h : ∀ c ∈ t.head?, isSeparator c = true) :
    (t.foldl step s.flush).flush = (t.foldl step s).flush := by
  cases t with
  | nil => exact s.flush_flush
  | cons c t => rw [List.foldl_cons, List.foldl_cons, s.step_flush (h c rfl)]

theorem foldl_solid {w : Text} (hne : w ≠ []) (hw : ∀ c ∈ w, isSeparator c = false) (s : Pass) :
    w.foldl step s =
      { s with pos := s.pos + extent Char.utf8Size w, pending := some (s.pending.getD s.pos) } := by
  induction w generalizing s with
  | nil => exact absurd rfl hne
  | cons c w ih =>
    have hc := hw c (List.mem_cons_self ..)
    have hstep : s.step c =
        { s with pos := s.pos + c.utf8Size, pending := some (s.pending.getD s.pos) } := by
      simp only [step, Kind.ofChar?_of_solid hc, isBlank_of_not_separator hc, Bool.false_eq_true,
        if_false]
    rw [List.foldl_cons, hstep]
    cases w with
    | nil => rfl
    | cons d w =>
      rw [ih (by simp) fun b hb => hw b (List.mem_cons_of_mem _ hb)]
      simp only [extent, Option.getD_some, Nat.add_assoc]

def past (p : Text) (found : List Token) : Pass where
  found
  depth := nesting 0 p
  pos := extent Char.utf8Size p

variable {p : Text} {c : Char}

theorem step_past_blank (h : Text.isBlank c = true) (found : List Token) :
    (past p found).step c = past (p ++ [c]) found := by
  obtain ⟨hl, hr⟩ := ne_paren_of_isBlank h
  simp only [step, Kind.ofChar?_of_blank h, if_pos h]
  simp [past, flush, Text.extent_append, extent, nesting_append, nesting, hl, hr]

theorem step_past_mark {kind : Kind} (h : Kind.ofChar? c = some kind) (found : List Token) :
    (past p found).step c = past (p ++ [c]) (found ++ [place Char.utf8Size p [c] kind]) := by
  simp only [step, h, past, flush, place, Text.extent_append, nesting_append]
  obtain ⟨rfl, rfl⟩ | ⟨rfl, rfl⟩ | ⟨op, rfl, rfl⟩ := Kind.ofChar?_cases h
  · rfl
  · rfl
  · cases op <;> rfl

theorem found_of_scans {t : Text} {toks : List Token} (h : Scans Char.utf8Size p t toks)
    (found : List Token) : (t.foldl step (past p found)).flush.found = found ++ toks := by
  induction h generalizing found with
  | nil => simp [past, flush]
  | blank hc _ ih => rw [List.foldl_cons, step_past_blank hc, ih]
  | @token p w t kind toks hreads hnext _ ih =>
    rw [List.append_cons]
    obtain ⟨rfl, hne, hw⟩ | ⟨c, rfl, hc⟩ := hreads.cases
    · -- What is still being read after the operand is flushed by whatever comes next.
      have hflush : (w.foldl step (past p found)).flush =
          past (p ++ w) (found ++ [place Char.utf8Size p w .operand]) := by
        rw [foldl_solid hne hw]
        simp [past, flush, place, Text.extent_append, nesting_append, nesting_solid hw]
      rw [List.foldl_append, ← flush_foldl_flush _ (hnext rfl), hflush, ih]
    · rw [List.singleton_append, List.foldl_cons, step_past_mark hc, ih]

end Pass

def scanBytes (t : Text) : List Token := (t.foldl Pass.step {}).flush.found

example : scanBytes "é*(ü )".toList =
    [⟨.operand, 0, 2, 0⟩, ⟨.op .mul, 2, 3, 0⟩, ⟨.lparen, 3, 4, 0⟩, ⟨.operand, 4, 6, 1⟩,
      ⟨.rparen, 7, 8, 0⟩] := by decide

theorem scanBytes_of_scans {t : Text} {toks : List Token} (h : Scans Char.utf8Size [] t toks) :
    scanBytes t = toks :=
  Pass.found_of_scans h []

/-! ## From characters to bytes -/

def relocate (width : Char → Nat) (t : Text) (tok : Token) : Token :=
  { tok with start := extent width (t.take tok.start), stop := extent width (t.take tok.stop) }

theorem relocate_place (width : Char → Nat) (p w r : Text) (kind : Kind) :
    relocate width (p ++ w ++ r) (place (fun _ => 1) p w kind) = place width p w kind := by
  have hstart : (p ++ w ++ r).take p.length = p := by rw [List.append_assoc, List.take_left]
  have hstop : (p ++ w ++ r).take (p ++ w).length = p ++ w := List.take_left
  simp only [relocate, place, Text.extent_one, hstart, hstop]

theorem Scans.relocate {p t : Text} {toks : List Token} (h : Scans (fun _ => 1) p t toks)
    (width : Char → Nat) : Scans width p t (toks.map (relocate width (p ++ t))) := by
  induction h with
  | nil => exact .nil
  | @blank p t c toks hc _ ih =>
    rw [List.append_cons]
    exact .blank hc ih
  | @token p w t kind toks hreads hnext _ ih =>
    rw [← List.append_assoc, List.map_cons, relocate_place]
    exact .token hreads hnext ih

/-! ## Faithful tokens -/

structure Faithful (width : Char → Nat) (t : Text) (toks : List Token) : Prop where
  nonempty : ∀ tok ∈ toks, tok.start < tok.stop
  increasing : toks.Pairwise fun a b => a.stop ≤ b.start
  stands : ∀ tok ∈ toks, ∃ p w, p ++ w <+: t ∧ tok.kind.Reads w ∧ tok = place width p w tok.kind
  covers : ∀ p c n, p ++ [c] <+: t → extent width p ≤ n → n < extent width (p ++ [c]) →
    ((∃ tok ∈ toks, tok.start ≤ n ∧ n < tok.stop) ↔ Text.isBlank c = false)
  marks : ∀ p c kind, p ++ [c] <+: t → Kind.ofChar? c = some kind → place width p [c] kind ∈ toks
  operands : List.Forall₂ (fun tok w => ∃ p, p ++ w <+: t ∧ tok = place width p w .operand)
    (toks.filter (·.kind = .operand)) (operands t)

theorem Scans.covers_iff {width : Char → Nat} {t : Text} {toks : List Token}
    (h : Scans width [] t toks) {p : Text} {c : Char} {n : Nat} (hc : p ++ [c] <+: t)
    (hlow : extent width p ≤ n) (hhigh : n < extent width (p ++ [c])) :
    (∃ tok ∈ toks, tok.start ≤ n ∧ n < tok.stop) ↔ Text.isBlank c = false := by
  constructor
  · rintro ⟨tok, hmem, hstart, hstop⟩
    obtain ⟨q, w, -, hqw, hreads, hplace⟩ := h.eq_place_of_mem hmem
    rw [hplace] at hstart hstop
    exact hreads.isBlank (Text.mem_of_extent_lt hc hqw hlow hhigh hstart hstop)
  · intro hblank
    obtain ⟨b, hb⟩ := hc
    rw [List.append_assoc, List.singleton_append] at hb
    obtain ⟨a₁, a₂, b₁, kind, rfl, -, hmem⟩ := h.exists_token hb.symm hblank
    refine ⟨_, hmem, ?_, ?_⟩
    · exact (Text.extent_le_of_prefix (List.prefix_append a₁ a₂)).trans hlow
    · exact hhigh.trans_le (Text.extent_le_of_prefix ⟨b₁, by simp⟩)

theorem Scans.faithful {width : Char → Nat} (hwidth : ∀ c, 0 < width c) {t : Text}
    {toks : List Token} (h : Scans width [] t toks) : Faithful width t toks where
  nonempty := by
    intro tok hmem
    obtain ⟨q, w, -, -, hreads, hplace⟩ := h.eq_place_of_mem hmem
    have hpos := Text.extent_pos hwidth hreads.ne_nil
    rw [hplace]
    simp only [place, Text.extent_append]
    omega
  increasing := h.pairwise
  stands := by
    intro tok hmem
    obtain ⟨q, w, -, hqw, hreads, hplace⟩ := h.eq_place_of_mem hmem
    exact ⟨q, w, hqw, hreads, hplace⟩
  covers := fun p c n => h.covers_iff
  marks := by
    rintro p c kind ⟨b, hb⟩ hc
    exact h.place_mem_of_mark (by simpa using hb.symm) hc
  operands := h.forall₂_operands

theorem text_place (p w r : Text) (kind : Kind) :
    (place (fun _ => 1) p w kind).text (p ++ w ++ r) = w := by
  simp [text, place, Text.extent_one]

theorem scan_faithful (t : Text) :
    Faithful (fun _ => 1) t (scan t) ∧ Faithful Char.utf8Size t (scanBytes t) ∧
      scanBytes t = (scan t).map (relocate Char.utf8Size t) ∧
      ((scan t).filter (·.kind = .operand)).map (·.text t) = Rhs.operands t := by
  have hscan : Scans (fun _ => 1) [] t (scan t) := scans_scanFrom [] t
  have hbytes := hscan.relocate Char.utf8Size
  have heq := scanBytes_of_scans hbytes
  refine ⟨hscan.faithful fun _ => Nat.one_pos, ?_, heq, ?_⟩
  · rw [heq]
    exact hbytes.faithful Char.utf8Size_pos
  · rw [← List.forall₂_eq_eq_eq, List.forall₂_map_left_iff]
    apply hscan.forall₂_operands.imp
    rintro tok w ⟨p, ⟨r, hr⟩, rfl⟩
    rw [← show p ++ w ++ r = t from hr]
    exact text_place p w r .operand

end StraightLine.Rhs.Token
