import StraightLine.Proofs.TextLaws
import StraightLine.Text.Quoted

/-!
# Cuts outside quotes

`splitOutsideQuotes` carries through the text whether a quoted stretch is open, which is the parity of the
quotes read so far. So it cuts at the separators after an even number of quotes. The stretch is closed
wherever the text is cut, and so the same can be said of each piece by itself.
-/

namespace StraightLine.Text

/-! ## The state between two characters -/

def quotedAfter (quoted : Bool) : Text → Bool
  | [] => quoted
  | c :: t => quotedAfter (if c = '"' then !quoted else quoted) t

theorem quotedAfter_append (quoted : Bool) (s t : Text) :
    quotedAfter quoted (s ++ t) = quotedAfter (quotedAfter quoted s) t := by
  induction s generalizing quoted with
  | nil => rfl
  | cons c s ih => exact ih _

theorem quotedAfter_cons_of_ne {c : Char} (hc : c ≠ '"') (quoted : Bool) (t : Text) :
    quotedAfter quoted (c :: t) = quotedAfter quoted t := by
  rw [quotedAfter, if_neg hc]

theorem quotedAfter_eq (quoted : Bool) (t : Text) :
    quotedAfter quoted t = (quoted != decide (t.count '"' % 2 = 1)) := by
  induction t generalizing quoted with
  | nil => cases quoted <;> rfl
  | cons c t ih =>
    by_cases hc : c = '"'
    · have hparity : decide ((t.count '"' + 1) % 2 = 1) = !decide (t.count '"' % 2 = 1) := by
        by_cases h : t.count '"' % 2 = 1 <;> simp [h] <;> omega
      rw [quotedAfter, if_pos hc, ih, hc, List.count_cons_self, hparity]
      cases quoted <;> simp
    · rw [quotedAfter_cons_of_ne hc, ih, List.count_cons_of_ne hc]

theorem quotedAfter_eq_true_iff {t : Text} : quotedAfter false t = true ↔ t.count '"' % 2 = 1 := by
  simp [quotedAfter_eq]

theorem quotedAfter_eq_false_iff {t : Text} : quotedAfter false t = false ↔ t.count '"' % 2 = 0 := by
  simp [quotedAfter_eq]

/-! ## Pieces that can be looked at by themselves -/

section
variable {sep : Char}

/-- In the pieces a separator stands in a quoted stretch only, and none but the last leaves one open. The
first piece is read from the state `quoted`. -/
def ClosedPieces (sep : Char) (quoted : Bool) : List Text → Prop
  | [] => True
  | p :: ps =>
    (∀ b a, p = b ++ sep :: a → quotedAfter quoted b = true) ∧
    (ps ≠ [] → quotedAfter quoted p = false) ∧ ClosedPieces sep false ps

theorem ClosedPieces.modifyHead {quoted : Bool} {c : Char} (hc : c = sep → quoted = true) {ps : List Text}
    (h : ClosedPieces sep (quotedAfter quoted [c]) ps) :
    ClosedPieces sep quoted (ps.modifyHead (c :: ·)) := by
  cases ps with
  | nil => trivial
  | cons p ps =>
    obtain ⟨hinside, hend, hrest⟩ := h
    refine ⟨?_, hend, hrest⟩
    intro b a hp
    cases b with
    | nil => exact hc (List.cons.inj hp).1
    | cons d b =>
      obtain ⟨rfl, htail⟩ : c = d ∧ p = b ++ sep :: a := by simpa using hp
      exact hinside b a htail

theorem ClosedPieces.quoted_of_mem {ps : List Text} (h : ClosedPieces sep false ps) {p : Text}
    (hp : p ∈ ps) {b a : Text} (hpba : p = b ++ sep :: a) : quotedAfter false b = true := by
  induction ps with
  | nil => cases hp
  | cons q ps ih =>
    rcases List.mem_cons.mp hp with rfl | hp
    · exact h.1 b a hpba
    · exact ih h.2.2 hp

theorem ClosedPieces.closed_of_mem {ps : List Text} (h : ClosedPieces sep false ps) {p : Text}
    (hp : p ∈ ps.dropLast) : quotedAfter false p = false := by
  induction ps with
  | nil => cases hp
  | cons q ps ih =>
    cases ps with
    | nil => cases hp
    | cons r ps =>
      rcases List.mem_cons.mp hp with rfl | hp
      · exact h.2.1 (List.cons_ne_nil r ps)
      · exact ih h.2.2 hp

end

/-! ## One character of the split

A character is a cut, or it goes to the front of the first piece and moves the state.
-/

section
variable {sep : Char}

theorem splitOutsideQuotes_cons {quoted : Bool} {c : Char} (hc : c = sep → quoted = true) (t : Text) :
    splitOutsideQuotes sep quoted (c :: t) =
      (splitOutsideQuotes sep (quotedAfter quoted [c]) t).modifyHead (c :: ·) := by
  by_cases hquote : c = '"'
  · simp [splitOutsideQuotes, quotedAfter, hquote]
  · by_cases hcut : c = sep
    · simp [splitOutsideQuotes, quotedAfter, hquote, hc hcut]
    · simp [splitOutsideQuotes, quotedAfter, hquote, hcut]

variable (hsep : sep ≠ '"')
include hsep

theorem splitOutsideQuotes_sep (t : Text) :
    splitOutsideQuotes sep false (sep :: t) = [] :: splitOutsideQuotes sep false t := by
  simp [splitOutsideQuotes, hsep]

theorem intercalate_splitOutsideQuotes (quoted : Bool) (t : Text) :
    [sep].intercalate (splitOutsideQuotes sep quoted t) = t := by
  induction t generalizing quoted with
  | nil => rfl
  | cons c t ih =>
    have hne := fun quoted => splitOutsideQuotes_ne_nil sep quoted t
    by_cases hc : c = sep → quoted = true
    · rw [splitOutsideQuotes_cons hc, intercalate_modifyHead (hne _), ih]
    · obtain ⟨rfl, rfl⟩ : c = sep ∧ quoted = false := by simpa using hc
      rw [splitOutsideQuotes_sep hsep, List.intercalate_cons_of_ne_nil (hne _), ih]
      rfl

/-! ## Where the cuts are -/

theorem splitOutsideQuotes_append_sep {quoted : Bool} {b : Text} (hb : quotedAfter quoted b = false)
    (a : Text) :
    splitOutsideQuotes sep quoted (b ++ sep :: a) =
      splitOutsideQuotes sep quoted b ++ splitOutsideQuotes sep false a := by
  induction b generalizing quoted with
  | nil =>
    obtain rfl : quoted = false := hb
    exact splitOutsideQuotes_sep hsep a
  | cons c b ih =>
    by_cases hc : c = sep → quoted = true
    · have hb : quotedAfter (quotedAfter quoted [c]) b = false := hb
      rw [List.cons_append, splitOutsideQuotes_cons hc, splitOutsideQuotes_cons hc, ih hb,
        modifyHead_append (splitOutsideQuotes_ne_nil _ _ b)]
    · obtain ⟨rfl, rfl⟩ : c = sep ∧ quoted = false := by simpa using hc
      rw [quotedAfter_cons_of_ne hsep] at hb
      rw [List.cons_append, splitOutsideQuotes_sep hsep, splitOutsideQuotes_sep hsep, ih hb]
      rfl

theorem closedPieces_splitOutsideQuotes (quoted : Bool) (t : Text) :
    ClosedPieces sep quoted (splitOutsideQuotes sep quoted t) := by
  induction t generalizing quoted with
  | nil => simp [splitOutsideQuotes, ClosedPieces]
  | cons c t ih =>
    by_cases hc : c = sep → quoted = true
    · rw [splitOutsideQuotes_cons hc]
      exact (ih _).modifyHead hc
    · obtain ⟨rfl, rfl⟩ : c = sep ∧ quoted = false := by simpa using hc
      rw [splitOutsideQuotes_sep hsep]
      exact ⟨by simp, fun _ => rfl, ih false⟩

theorem quotedAfter_intercalate {ps : List Text} (h : ∀ p ∈ ps, quotedAfter false p = false) :
    quotedAfter false ([sep].intercalate ps) = false := by
  induction ps with
  | nil => rfl
  | cons p ps ih =>
    obtain ⟨hp, hrest⟩ := List.forall_mem_cons.mp h
    by_cases hne : ps = []
    · rw [hne, List.intercalate_singleton, hp]
    · rw [List.intercalate_cons_of_ne_nil hne, List.append_assoc, quotedAfter_append, hp,
        List.singleton_append, quotedAfter_cons_of_ne hsep, ih hrest]

end

def CutBetween (sep : Char) (pieces : List Text) (b a : Text) : Prop :=
  ∃ ps qs, ps ≠ [] ∧ qs ≠ [] ∧ pieces = ps ++ qs ∧ [sep].intercalate ps = b ∧ [sep].intercalate qs = a

theorem cutBetween_splitOutsideQuotes {sep : Char} (hsep : sep ≠ '"') (t b a : Text) :
    CutBetween sep (splitOutsideQuotes sep false t) b a ↔ t = b ++ sep :: a ∧ b.count '"' % 2 = 0 := by
  constructor
  · rintro ⟨ps, qs, hps, hqs, hsplit, rfl, rfl⟩
    have hclosed := closedPieces_splitOutsideQuotes hsep false t
    refine ⟨?_, ?_⟩
    · have hjoin := intercalate_append hps hqs [sep]
      rw [← hsplit, intercalate_splitOutsideQuotes hsep, List.append_assoc] at hjoin
      exact hjoin
    · refine quotedAfter_eq_false_iff.mp (quotedAfter_intercalate hsep fun p hp => ?_)
      refine hclosed.closed_of_mem ?_
      rw [hsplit, List.dropLast_append_of_ne_nil hqs]
      exact List.mem_append_left _ hp
  · rintro ⟨rfl, heven⟩
    exact ⟨splitOutsideQuotes sep false b, splitOutsideQuotes sep false a,
      splitOutsideQuotes_ne_nil sep false b, splitOutsideQuotes_ne_nil sep false a,
      splitOutsideQuotes_append_sep hsep (quotedAfter_eq_false_iff.mpr heven) a,
      intercalate_splitOutsideQuotes hsep false b, intercalate_splitOutsideQuotes hsep false a⟩

structure CutOutsideQuotes (sep : Char) (t : Text) (pieces : List Text) : Prop where
  cuts : ∀ b a, CutBetween sep pieces b a ↔ t = b ++ sep :: a ∧ b.count '"' % 2 = 0
  joined : [sep].intercalate pieces = t
  quoted : ∀ p ∈ pieces, ∀ b a, p = b ++ sep :: a → b.count '"' % 2 = 1
  closed : ∀ p ∈ pieces.dropLast, p.count '"' % 2 = 0

theorem cutOutsideQuotes_split {sep : Char} (hsep : sep ≠ '"') (t : Text) :
    CutOutsideQuotes sep t (splitOutsideQuotes sep false t) where
  cuts := cutBetween_splitOutsideQuotes hsep t
  joined := intercalate_splitOutsideQuotes hsep false t
  quoted _ hp _ _ hpba := quotedAfter_eq_true_iff.mp
    ((closedPieces_splitOutsideQuotes hsep false t).quoted_of_mem hp hpba)
  closed _ hp := quotedAfter_eq_false_iff.mp
    ((closedPieces_splitOutsideQuotes hsep false t).closed_of_mem hp)

theorem segments_outside_quotes (t : Text) :
    CutOutsideQuotes ',' t (splitOutsideQuotes ',' false t) ∧
    segments ',' t = (splitOutsideQuotes ',' false t).filter fun piece => piece.any fun c => !isBlank c := by
  refine ⟨cutOutsideQuotes_split (by decide) t, List.filter_congr fun piece _ => Bool.eq_iff_iff.mpr ?_⟩
  have htrim : (!(trim piece).isEmpty) = true ↔ trim piece ≠ [] := by simp
  rw [htrim, trim_ne_nil_iff]
  simp

-- An unclosed quote keeps the commas after it, and blank pieces are dropped only after the cuts are made.
example : splitOutsideQuotes ',' false "a, ,\"b,c\",\"d,e".toList =
    ["a", " ", "\"b,c\"", "\"d,e"].map String.toList := by decide

end StraightLine.Text
