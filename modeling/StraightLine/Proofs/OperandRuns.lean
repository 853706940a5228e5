import StraightLine.Proofs.Divisor
import StraightLine.Proofs.WellFormed

/-!
# Operands as runs of a text

The operands of a text are its maximal runs of characters that are no separators. A run never goes past a
separator and does not depend on which separator stands next to it. So a text may be cut at one, have one
put in the place of another, or be replaced by the list of its operands, and the operands stay.
-/

namespace StraightLine

namespace Text

variable {sep : Char → Bool} {p t : Text}

/-! ## Maximal runs -/

structure Stretch where
  before : Text
  word : Text
  after : Text

namespace Stretch

def extend (s : Stretch) (t : Text) : Stretch := { s with after := s.after ++ t }

def shift (p : Text) (s : Stretch) : Stretch := { s with before := p ++ s.before }

end Stretch

/-- A part without separators that cannot be made longer: at both of its ends there is a separator or the
text ends. -/
structure MaximalRun (sep : Char → Bool) (t : Text) (s : Stretch) : Prop where
  whole : t = s.before ++ s.word ++ s.after
  ne_nil : s.word ≠ []
  solid : ∀ c ∈ s.word, sep c = false
  opens : ∀ c ∈ s.before.getLast?, sep c = true
  closes : ∀ c ∈ s.after.head?, sep c = true

structure RunsInOrder (sep : Char → Bool) (t : Text) (ss : List Stretch) : Prop where
  mem_iff : ∀ s, s ∈ ss ↔ MaximalRun sep t s
  ordered : ss.Pairwise fun r s => r.before.length < s.before.length

theorem RunsInOrder.unique {ss ss' : List Stretch} (h : RunsInOrder sep t ss)
    (h' : RunsInOrder sep t ss') : ss = ss' := by
  have hnodup : ∀ {l : List Stretch}, RunsInOrder sep t l → l.Nodup := by
    intro l hl
    apply hl.ordered.imp
    rintro r s hlt rfl
    exact Nat.lt_irrefl _ hlt
  have hperm : ss.Perm ss' := by
    rw [List.perm_ext_iff_of_nodup (hnodup h) (hnodup h')]
    intro s
    rw [h.mem_iff, h'.mem_iff]
  refine List.Perm.eq_of_pairwise ?_ h.ordered h'.ordered hperm
  intro r s _ _ hrs hsr
  exact absurd hrs (Nat.lt_asymm hsr)

/-! ## Seams

Between two texts that meet at a separator there is a seam. The runs of the two put together are those of
the one and those of the other.
-/

/-- One of the characters that meet is a separator, if there are two. -/
def Seam (sep : Char → Bool) (p t : Text) : Prop :=
  ∀ c ∈ p.getLast?, ∀ d ∈ t.head?, sep c = true ∨ sep d = true

theorem MaximalRun.extend {s : Stretch} (h : MaximalRun sep p s) (hseam : Seam sep p t) :
    MaximalRun sep (p ++ t) (s.extend t) where
  whole := by simp [Stretch.extend, h.whole]
  ne_nil := h.ne_nil
  solid := h.solid
  opens := h.opens
  closes := by
    intro d hd
    rcases hafter : s.after with _ | ⟨e, after⟩
    · -- The run goes up to the end of `p`.
      obtain ⟨w, c, hw⟩ := s.word.eq_nil_or_concat'.resolve_left h.ne_nil
      have hlast : c ∈ p.getLast? := by simp [h.whole, hafter, hw]
      have hc : sep c = false := h.solid c (by simp [hw])
      have hd : d ∈ t.head? := by simpa [Stretch.extend, hafter] using hd
      simpa [hc] using hseam c hlast d hd
    · apply h.closes
      simpa [Stretch.extend, hafter] using hd

theorem MaximalRun.shift {s : Stretch} (h : MaximalRun sep t s) (hseam : Seam sep p t) :
    MaximalRun sep (p ++ t) (s.shift p) where
  whole := by simp [Stretch.shift, h.whole]
  ne_nil := h.ne_nil
  solid := h.solid
  opens := by
    intro c hc
    obtain hbefore | ⟨before, e, hbefore⟩ := s.before.eq_nil_or_concat'
    · obtain ⟨d, w, hw⟩ := List.exists_cons_of_ne_nil h.ne_nil
      have hhead : d ∈ t.head? := by simp [h.whole, hbefore, hw]
      have hd : sep d = false := h.solid d (by simp [hw])
      have hc : c ∈ p.getLast? := by simpa [Stretch.shift, hbefore] using hc
      simpa [hd] using hseam c hc d hhead
    · apply h.opens
      simpa [Stretch.shift, hbefore] using hc
  closes := h.closes

theorem MaximalRun.cases_append {s : Stretch} (h : MaximalRun sep (p ++ t) s) (hseam : Seam sep p t) :
    (∃ r, MaximalRun sep p r ∧ s = r.extend t) ∨ ∃ r, MaximalRun sep t r ∧ s = r.shift p := by
  obtain ⟨before, word, after⟩ := s
  obtain ⟨hwhole, hne, hsolid, hopens, hcloses⟩ := h
  dsimp only at hwhole hne hsolid hopens hcloses
  rw [List.append_assoc, List.append_eq_append_iff] at hwhole
  obtain ⟨b, rfl, ht⟩ | ⟨q, rfl, hq⟩ := hwhole
  · refine .inr ⟨⟨b, word, after⟩, ⟨by simpa using ht, hne, hsolid, ?_, hcloses⟩, rfl⟩
    intro c hc
    exact hopens c (List.mem_getLast?_append_of_mem_getLast? hc)
  · obtain ⟨a, rfl, rfl⟩ | ⟨v, rfl, rfl⟩ := List.append_eq_append_iff.mp hq
    · refine .inl ⟨⟨before, word, a⟩, ⟨by simp, hne, hsolid, hopens, ?_⟩, rfl⟩
      intro c hc
      exact hcloses c (List.mem_head?_append_of_mem_head? hc)
    · -- The run is `q ++ v` with `q` in one text and `v` in the other, so the seam leaves one of them empty.
      obtain rfl | ⟨q, c, rfl⟩ := q.eq_nil_or_concat'
      · refine .inr ⟨⟨[], v, after⟩, ⟨by simp, hne, hsolid, by simp, hcloses⟩, ?_⟩
        simp [Stretch.shift]
      · cases v with
        | nil =>
          refine .inl ⟨⟨before, q ++ [c], []⟩, ⟨by simp, by simp, ?_, hopens, by simp⟩, ?_⟩
          · simpa using hsolid
          · simp [Stretch.extend]
        | cons d v =>
          have hc : sep c = false := hsolid c (by simp)
          have hd : sep d = false := hsolid d (by simp)
          have hmeet := hseam c (by simp) d (by simp)
          simp [hc, hd] at hmeet

theorem RunsInOrder.append {ps ts : List Stretch} (hp : RunsInOrder sep p ps)
    (ht : RunsInOrder sep t ts) (hseam : Seam sep p t) :
    RunsInOrder sep (p ++ t) (ps.map (·.extend t) ++ ts.map (·.shift p)) where
  mem_iff := by
    intro s
    simp only [List.mem_append, List.mem_map, hp.mem_iff, ht.mem_iff]
    constructor
    · rintro (⟨r, hr, rfl⟩ | ⟨r, hr, rfl⟩)
      · exact hr.extend hseam
      · exact hr.shift hseam
    · intro hs
      obtain ⟨r, hr, rfl⟩ | ⟨r, hr, rfl⟩ := hs.cases_append hseam
      · exact .inl ⟨r, hr, rfl⟩
      · exact .inr ⟨r, hr, rfl⟩
  ordered := by
    rw [List.pairwise_append, List.pairwise_map, List.pairwise_map]
    refine ⟨hp.ordered, ht.ordered.imp ?_, ?_⟩
    · intro r s hlt
      simpa [Stretch.shift] using hlt
    · simp only [List.forall_mem_map]
      intro r hr s _
      obtain ⟨hwhole, hne, -⟩ := (hp.mem_iff r).mp hr
      have hpos := List.length_pos_of_ne_nil hne
      have hlen := congrArg List.length hwhole
      simp only [List.length_append] at hlen
      simp only [Stretch.extend, Stretch.shift, List.length_append]
      omega

theorem runsInOrder_of_separators (h : ∀ c ∈ t, sep c = true) : RunsInOrder sep t [] where
  mem_iff := by
    intro s
    refine ⟨fun hs => absurd hs List.not_mem_nil, fun hs => ?_⟩
    obtain ⟨c, w, hw⟩ := List.exists_cons_of_ne_nil hs.ne_nil
    have htrue : sep c = true := h c (by simp [hs.whole, hw])
    rw [hs.solid c (by simp [hw])] at htrue
    cases htrue
  ordered := .nil

theorem runsInOrder_of_solid {w : Text} (hne : w ≠ []) (hw : ∀ c ∈ w, sep c = false) :
    RunsInOrder sep w [⟨[], w, []⟩] where
  mem_iff := by
    intro s
    rw [List.mem_singleton]
    constructor
    · rintro rfl
      exact ⟨by simp, hne, hw, by simp, by simp⟩
    · intro hs
      obtain ⟨before, word, after⟩ := s
      obtain ⟨hwhole, -, -, hopens, hcloses⟩ := hs
      dsimp only at hwhole hopens hcloses
      -- No separator is there for the run to begin or to end at.
      have hbefore : before = [] := by
        obtain hb | ⟨b, c, rfl⟩ := before.eq_nil_or_concat'
        · exact hb
        · have hc := hopens c (by simp)
          rw [hw c (by simp [hwhole])] at hc
          cases hc
      have hafter : after = [] := by
        cases after with
        | nil => rfl
        | cons c a =>
          have hc := hcloses c (by simp)
          rw [hw c (by simp [hwhole])] at hc
          cases hc
      simp [hwhole, hbefore, hafter]
  ordered := List.pairwise_singleton _ _

theorem exists_runsInOrder (sep : Char → Bool) (t : Text) :
    ∃ ss, RunsInOrder sep t ss ∧ ss.map (·.word) = runs sep t := by
  generalize hws : runs sep t = ws
  -- The first run is cut off with the separators before it; what is left has the other runs.
  induction ws generalizing t with
  | nil => exact ⟨[], runsInOrder_of_separators (runs_eq_nil_iff.mp hws), rfl⟩
  | cons w ws ih =>
    have hmem : w ∈ runs sep t := by simp [hws]
    have hne := ne_nil_of_mem_runs hmem
    have hsolid := sep_of_mem_runs hmem
    obtain ⟨u, v, rfl, hu, hend, hv⟩ := exists_eq_append_of_runs hws
    obtain ⟨ss, hss, hwords⟩ := ih v hv
    have hfirst : Seam sep u w := fun c hc _ _ => .inl (hu c (List.mem_of_mem_getLast? hc))
    have hrest : Seam sep (u ++ w) v := fun _ _ d hd => .inr (hend d hd)
    have hhead := (runsInOrder_of_separators hu).append (runsInOrder_of_solid hne hsolid) hfirst
    refine ⟨_, hhead.append hss hrest, ?_⟩
    simp [Stretch.extend, Stretch.shift, Function.comp_def, ← hwords]

theorem runsInOrder_words_iff {ws : List Text} :
    (∃ ss, RunsInOrder sep t ss ∧ ws = ss.map (·.word)) ↔ ws = runs sep t := by
  obtain ⟨ss, hss, hwords⟩ := exists_runsInOrder sep t
  constructor
  · rintro ⟨ss', hss', rfl⟩
    rw [hss'.unique hss, hwords]
  · rintro rfl
    exact ⟨ss, hss, hwords.symm⟩

/-! ## Separators in the place of others -/

theorem splitOnP_map {sep' : Char → Bool} {f : Char → Char} (hsep : ∀ c, sep' (f c) = sep c)
    (hsolid : ∀ c, sep c = false → f c = c) (t : Text) :
    (t.map f).splitOnP sep' = t.splitOnP sep := by
  induction t with
  | nil => rfl
  | cons c t ih =>
    rw [List.map_cons, List.splitOnP_cons_eq_if_modifyHead, List.splitOnP_cons_eq_if_modifyHead, hsep,
      ih]
    cases hc : sep c with
    | true => rfl
    | false => rw [hsolid c hc]

theorem runs_map {sep' : Char → Bool} {f : Char → Char} (hsep : ∀ c, sep' (f c) = sep c)
    (hsolid : ∀ c, sep c = false → f c = c) (t : Text) : runs sep' (t.map f) = runs sep t := by
  rw [runs, splitOnP_map hsep hsolid, runs]

end Text

namespace Rhs

/-! ## Operands -/

theorem isSeparator_iff {c : Char} :
    isSeparator c = true ↔ Text.isBlank c = true ∨ c ∈ ['*', '+', '-', '/', '(', ')'] := by
  simp only [isSeparator, isMark, Bool.or_eq_true, decide_eq_true_eq, List.mem_cons, List.not_mem_nil,
    or_false]
  tauto

theorem not_mark_of_not_separator {c : Char} (h : isSeparator c = false) :
    ¬ isMark c = true ∧ c ≠ '/' := by
  simp only [isSeparator, Bool.or_eq_false_iff, decide_eq_false_iff_not] at h
  exact ⟨by simp [h.1.2], h.2⟩

theorem isSeparator_of_isMark {c : Char} (h : isMark c = true) : isSeparator c = true := by
  rw [isSeparator, h, Bool.or_true, Bool.true_or]

theorem operands_normalize (t : Text) : operands (normalize t) = operands t := by
  refine Text.runs_map ?_ ?_ t
  · intro c
    by_cases hmark : isMark c = true
    · rw [if_pos hmark, isSeparator_of_isMark hmark]
      decide
    · rw [if_neg hmark]
  · intro c hc
    rw [if_neg (not_mark_of_not_separator hc).1]

theorem operands_unwords (t : Text) : operands (Text.unwords (operands t)) = operands t :=
  Text.runs_unwords (by decide) (fun _ => Text.ne_nil_of_mem_runs) fun _ => Text.sep_of_mem_runs

def blankSlashes (t : Text) : Text := t.map fun c => if c = '/' then ' ' else c

theorem words_normalize_blankSlashes (t : Text) :
    Text.words (normalize (blankSlashes t)) = operands t := by
  rw [normalize, blankSlashes, List.map_map]
  refine Text.runs_map ?_ ?_ t
  · intro c
    by_cases hslash : c = '/'
    · subst hslash
      decide
    · by_cases hmark : isMark c = true
      · rw [Function.comp_apply, if_neg hslash, if_pos hmark, isSeparator_of_isMark hmark]
        decide
      · simp [isSeparator, hmark, hslash]
  · intro c hc
    obtain ⟨hmark, hslash⟩ := not_mark_of_not_separator hc
    simp only [Function.comp_apply, if_neg hslash, if_neg hmark]

theorem operands_laws :
    (∀ c, isSeparator c = true ↔ Text.isBlank c = true ∨ c ∈ ['*', '+', '-', '/', '(', ')']) ∧
    ∀ a : Text,
      (∀ b c, isSeparator c = true → operands (a ++ [c] ++ b) = operands a ++ operands b) ∧
      operands (normalize a) = operands a ∧
      operands (Text.unwords (operands a)) = operands a ∧
      (∀ ws, (∃ ss, Text.RunsInOrder isSeparator a ss ∧ ws = ss.map (·.word)) ↔ ws = operands a) ∧
      Text.words (normalize (blankSlashes a)) = operands a := by
  refine ⟨fun c => isSeparator_iff, fun a => ⟨?_, operands_normalize a, operands_unwords a,
    fun ws => Text.runsInOrder_words_iff, words_normalize_blankSlashes a⟩⟩
  intro b c hc
  rw [← List.append_cons]
  exact operands_append_cons hc a b

theorem operands_laws_adjacent :
    isSeparator '-' = true ∧
      operands ("x +".toList ++ ['-'] ++ ")y/ z".toList) =
        operands "x +".toList ++ operands ")y/ z".toList :=
  ⟨by decide, (operands_laws.2 "x +".toList).1 ")y/ z".toList '-' (by decide)⟩

end Rhs

end StraightLine
