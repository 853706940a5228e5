import StraightLine.Text.Becomes
import Mathlib.Data.List.DropRight
import Mathlib.Data.List.Forall2

/-!
# Laws of texts: blanks around words, lists of words, cuts at `:=`, numbered names

A word with blanks around it is read back by trimming, and a list of such words by its commas. The
pieces of a text between its `:=` signs join to the text and hold no such sign. A stem with a number
after it is how registers and temporaries are named.
-/

namespace StraightLine.Text

/-! ## Blanks at the ends -/

def Blank (t : Text) : Prop := ∀ c ∈ t, isBlank c = true

-- Characters are finitely many, and an instance found by search may go through all of them.
instance (t : Text) : Decidable (Blank t) := List.decidableBAll _ t

theorem Blank.not_mem {u : Text} (hu : Blank u) {c : Char} (hc : isBlank c = false) : c ∉ u := by
  intro h
  rw [hu c h] at hc
  cases hc

theorem trimStart_append_of_blank {u : Text} (hu : Blank u) (t : Text) :
    trimStart (u ++ t) = trimStart t :=
  List.dropWhile_append_of_pos hu

theorem trimEnd_append_of_blank {u : Text} (hu : Blank u) (t : Text) :
    trimEnd (t ++ u) = trimEnd t := by
  have hr : ∀ c ∈ u.reverse, isBlank c = true := fun c hc => hu c (List.mem_reverse.mp hc)
  unfold trimEnd
  rw [List.reverse_append, List.dropWhile_append_of_pos hr]

theorem exists_append_trimStart (t : Text) : ∃ u, Blank u ∧ t = u ++ trimStart t := by
  refine ⟨t.takeWhile isBlank, ?_, List.takeWhile_append_dropWhile.symm⟩
  intro c hc
  exact List.mem_takeWhile_imp hc

theorem exists_trimEnd_append (t : Text) : ∃ u, Blank u ∧ t = trimEnd t ++ u := by
  refine ⟨(t.reverse.takeWhile isBlank).reverse, ?_, ?_⟩
  · intro c hc
    exact List.mem_takeWhile_imp (List.mem_reverse.mp hc)
  · unfold trimEnd
    rw [← List.reverse_append, List.takeWhile_append_dropWhile, List.reverse_reverse]

theorem trimEnd_trimEnd (t : Text) : trimEnd (trimEnd t) = trimEnd t :=
  List.rdropWhile_idempotent isBlank t

theorem isBlank_of_all {t : Text} (h : t.all (!isBlank ·) = true) : ∀ c ∈ t, isBlank c = false := by
  intro c hc
  exact Bool.not_eq_true' _ ▸ List.all_eq_true.mp h c hc

theorem mem_of_mem_trimEnd {c : Char} {t : Text} (h : c ∈ trimEnd t) : c ∈ t := by
  obtain ⟨u, _, ht⟩ := exists_trimEnd_append t
  rw [ht]; exact List.mem_append_left _ h

theorem trimEnd_append_cons {c : Char} (hc : isBlank c = false) (s t : Text) :
    trimEnd (s ++ c :: t) = s ++ c :: trimEnd t := by
  have hstop : (c :: s.reverse).dropWhile isBlank = c :: s.reverse := by
    rw [List.dropWhile_cons, hc]; rfl
  have hrev : (s ++ c :: t).reverse = t.reverse ++ c :: s.reverse := by simp
  unfold trimEnd
  rw [hrev, List.dropWhile_append]
  split
  · rename_i h
    rw [hstop, List.isEmpty_iff.mp h]; simp
  · simp

theorem exists_concat_of_append {s t p : Text} {c : Char} (hs : s ≠ []) (h : t ++ [c] = p ++ s) :
    ∃ s', s = s' ++ [c] ∧ t = p ++ s' := by
  obtain ⟨s', d, rfl⟩ := s.eq_nil_or_concat'.resolve_left hs
  rw [← List.append_assoc] at h
  obtain ⟨rfl, hd⟩ := List.append_inj' h rfl
  cases hd
  exact ⟨s', rfl, rfl⟩

/-! ## Words -/

def Padded (w t : Text) : Prop := ∃ u v, Blank u ∧ Blank v ∧ t = u ++ w ++ v

structure Trimmed (t : Text) : Prop where
  head : ∀ c ∈ t.head?, isBlank c = false
  last : ∀ c ∈ t.getLast?, isBlank c = false

theorem trimmed_of_solid {w : Text} (h : ∀ c ∈ w, isBlank c = false) : Trimmed w where
  head := fun c hc => h c (List.mem_of_mem_head? hc)
  last := fun c hc => h c (List.mem_of_mem_getLast? hc)

theorem Trimmed.trimEnd_eq {w : Text} (h : Trimmed w) : trimEnd w = w := by
  obtain rfl | ⟨w', d, rfl⟩ := w.eq_nil_or_concat'
  · rfl
  · exact trimEnd_eq_self (h.last d (by simp))

theorem Trimmed.trim_of_padded {w t : Text} (hw : Trimmed w) (h : Padded w t) : trim t = w := by
  obtain ⟨u, v, hu, hv, rfl⟩ := h
  unfold trim
  rw [List.append_assoc, trimStart_append_of_blank hu]
  cases w with
  | nil =>
    have hn : trimStart v = [] := List.dropWhile_eq_nil_iff.mpr hv
    rw [List.nil_append, hn]; rfl
  | cons c w =>
    rw [List.cons_append, trimStart_eq_self (hw.head c rfl), ← List.cons_append,
      trimEnd_append_of_blank hv, hw.trimEnd_eq]

theorem trim_of_padded {w t : Text} (hw : ∀ c ∈ w, isBlank c = false) (h : Padded w t) :
    trim t = w :=
  (trimmed_of_solid hw).trim_of_padded h

theorem unterminated_append {u s e : Text} (hu : Blank u) (hne : s ≠ [])
    (hs : ∀ c ∈ s.head?, isBlank c = false) (hsemi : ';' ∉ s)
    (he : e = [] ∨ ∃ v, Blank v ∧ e = ';' :: v) : unterminated (u ++ s ++ e) = trimEnd s := by
  have hstart : trim (u ++ s ++ e) = trimEnd (s ++ e) := by
    obtain ⟨c, s', rfl⟩ := List.exists_cons_of_ne_nil hne
    unfold trim
    rw [List.append_assoc, trimStart_append_of_blank hu, List.cons_append,
      trimStart_eq_self (hs c rfl)]
  unfold unterminated
  rw [hstart]
  obtain rfl | ⟨v, hv, rfl⟩ := he
  · have hlast : (trimEnd s).getLast? ≠ some ';' := by
      intro h
      exact hsemi (mem_of_mem_trimEnd (List.mem_of_getLast? h))
    rw [List.append_nil]
    simp only [if_neg hlast]
    exact trimEnd_trimEnd s
  · have hend : trimEnd (s ++ ';' :: v) = s ++ [';'] := by
      rw [List.append_cons, trimEnd_append_of_blank hv]
      exact trimEnd_eq_self (by decide)
    rw [hend]
    simp only [List.getLast?_append, List.getLast?_singleton, Option.some_or, if_true,
      List.dropLast_concat]

theorem unterminated_of_padded {w t : Text} (hw : Trimmed w) (hlast : w.getLast? ≠ some ';')
    (h : Padded w t) : unterminated t = w := by
  unfold unterminated
  rw [hw.trim_of_padded h]
  simp only [if_neg hlast, hw.trimEnd_eq]

theorem unterminated_of_padded_semicolon {w t : Text} (hw : Trimmed w) (hne : w ≠ [])
    (h : Padded w t) : unterminated (t ++ [';']) = w := by
  obtain ⟨u, v, hu, hv, rfl⟩ := h
  have hwhole : Trimmed (w ++ (v ++ [';'])) := by
    refine ⟨?_, ?_⟩
    · rw [List.head?_append_of_ne_nil _ hne]
      exact hw.head
    · rw [← List.append_assoc, List.getLast?_concat]
      intro c hc
      cases hc
      decide
  have htrim : trim (u ++ w ++ v ++ [';']) = w ++ v ++ [';'] := by
    rw [hwhole.trim_of_padded ⟨u, [], hu, by simp [Blank], by simp⟩, List.append_assoc]
  unfold unterminated
  rw [htrim]
  simp only [List.getLast?_concat, if_true, List.dropLast_concat]
  rw [trimEnd_append_of_blank hv, hw.trimEnd_eq]

/-! ## Lists of words -/

def Listed (ws : List Text) (t : Text) : Prop :=
  ∃ pieces, List.Forall₂ Padded ws pieces ∧ t = [','].intercalate pieces

theorem not_mem_of_padded {w t : Text} {c : Char} (hc : isBlank c = false) (hw : c ∉ w)
    (h : Padded w t) : c ∉ t := by
  obtain ⟨u, v, hu, hv, rfl⟩ := h
  simp [hu.not_mem hc, hw, hv.not_mem hc]

/-- What can be read back from a list. -/
structure Entry (w : Text) : Prop where
  ne_nil : w ≠ []
  isBlank : ∀ c ∈ w, isBlank c = false
  comma : ',' ∉ w

theorem map_trim_of_forall₂ {ws pieces : List Text} (hws : ∀ w ∈ ws, Entry w)
    (h : List.Forall₂ Padded ws pieces) : pieces.map trim = ws := by
  induction h with
  | nil => rfl
  | cons hp _ ih =>
    rw [List.map_cons, trim_of_padded (hws _ (by simp)).isBlank hp,
      ih fun w hw => hws w (List.mem_cons_of_mem _ hw)]

theorem not_comma_of_forall₂ {ws pieces : List Text} (hws : ∀ w ∈ ws, Entry w)
    (h : List.Forall₂ Padded ws pieces) : ∀ p ∈ pieces, ',' ∉ p := by
  induction h with
  | nil => simp
  | cons hp _ ih =>
    intro p hmem
    obtain rfl | hmem := List.mem_cons.mp hmem
    · exact not_mem_of_padded (by decide) (hws _ (by simp)).comma hp
    · exact ih (fun w hw => hws w (List.mem_cons_of_mem _ hw)) p hmem

theorem entries_of_listed {ws : List Text} {t : Text} (hws : ∀ w ∈ ws, Entry w) (h : Listed ws t) :
    entries t = ws := by
  obtain ⟨pieces, hp, rfl⟩ := h
  cases hp with
  | nil => decide
  | @cons w p ws ps hw hps =>
    -- Cutting at commas undoes joining with them only where there is a piece at all.
    have hall : List.Forall₂ Padded (w :: ws) (p :: ps) := .cons hw hps
    unfold entries
    rw [List.splitOn_intercalate ',' (not_comma_of_forall₂ hws hall) (by simp),
      map_trim_of_forall₂ hws hall, List.filter_eq_self]
    intro v hv
    simpa using (hws v hv).ne_nil

/-! ## Trimming -/

theorem padded_trim (t : Text) : Padded (trim t) t := by
  obtain ⟨u, hu, hstart⟩ := exists_append_trimStart t
  obtain ⟨v, hv, hend⟩ := exists_trimEnd_append (trimStart t)
  refine ⟨u, v, hu, hv, ?_⟩
  rw [trim, List.append_assoc, ← hend, ← hstart]

theorem trim_isInfix (t : Text) : trim t <:+: t := by
  obtain ⟨u, v, -, -, ht⟩ := padded_trim t
  exact ⟨u, v, ht.symm⟩

theorem mem_trim_iff {c : Char} (hc : isBlank c = false) {t : Text} : c ∈ trim t ↔ c ∈ t := by
  constructor
  · intro h
    exact (trim_isInfix t).subset h
  · intro h
    by_contra hnot
    exact not_mem_of_padded hc hnot (padded_trim t) h

theorem filter_trim (t : Text) : (trim t).filter (!isBlank ·) = t.filter (!isBlank ·) := by
  have hblank : ∀ {u : Text}, Blank u → u.filter (!isBlank ·) = [] := by
    intro u hu
    rw [List.filter_eq_nil_iff]
    intro c hc
    simp [hu c hc]
  obtain ⟨u, v, hu, hv, ht⟩ := padded_trim t
  rw [ht, List.filter_append, List.filter_append, hblank hu, hblank hv, ← ht]
  simp

theorem trimmed_trim (t : Text) : Trimmed (trim t) where
  head := by
    intro c hc
    unfold trim at hc
    cases hs : trimStart t with
    | nil => rw [hs] at hc; cases hc
    | cons d s =>
      have hd : isBlank d = false := by
        have hhead := List.head?_dropWhile_not isBlank t
        rw [show t.dropWhile isBlank = d :: s from hs] at hhead
        exact hhead
      -- What is dropped at the end does not reach the first character that stays.
      rw [hs, show d :: s = [] ++ d :: s from rfl, trimEnd_append_cons hd] at hc
      cases hc
      exact hd
  last := by
    intro c hc
    have hhead := List.head?_dropWhile_not isBlank (trimStart t).reverse
    unfold trim trimEnd at hc
    rw [List.getLast?_reverse] at hc
    rw [Option.mem_def.mp hc] at hhead
    exact hhead

theorem trim_ne_nil_iff {t : Text} : trim t ≠ [] ↔ ∃ c ∈ t, isBlank c = false := by
  constructor
  · intro h
    obtain ⟨c, s, hs⟩ := List.exists_cons_of_ne_nil h
    refine ⟨c, (trim_isInfix t).subset (by simp [hs]), ?_⟩
    exact (trimmed_trim t).head c (by simp [hs])
  · rintro ⟨c, hc, hblank⟩
    exact List.ne_nil_of_mem ((mem_trim_iff hblank).mpr hc)

/-! ## Pieces -/

theorem modifyHead_append {ps : List Text} (hne : ps ≠ []) (f : Text → Text) (qs : List Text) :
    (ps ++ qs).modifyHead f = ps.modifyHead f ++ qs := by
  obtain ⟨p, ps, rfl⟩ := List.exists_cons_of_ne_nil hne
  rfl

theorem intercalate_modifyHead {ps : List Text} (hne : ps ≠ []) (sep : Text) (c : Char) :
    sep.intercalate (ps.modifyHead (c :: ·)) = c :: sep.intercalate ps := by
  obtain ⟨p, ps, rfl⟩ := List.exists_cons_of_ne_nil hne
  cases ps with
  | nil => simp
  | cons q ps => simp [List.intercalate_cons_cons]

theorem intercalate_append {ps qs : List Text} (hps : ps ≠ []) (hqs : qs ≠ []) (sep : Text) :
    sep.intercalate (ps ++ qs) = sep.intercalate ps ++ sep ++ sep.intercalate qs := by
  induction ps with
  | nil => exact absurd rfl hps
  | cons p ps ih =>
    by_cases hne : ps = []
    · simp [hne, List.intercalate_cons_of_ne_nil hqs]
    · have hne' : ps ++ qs ≠ [] := by simp [hne]
      simp [List.intercalate_cons_of_ne_nil hne, List.intercalate_cons_of_ne_nil hne', ih hne]

/-! ## The sign `:=` -/

theorem intercalate_splitOnBecomes (t : Text) : [':', '='].intercalate (splitOnBecomes t) = t := by
  fun_induction splitOnBecomes t with
  | case1 => rfl
  | case2 t ih =>
    rw [List.intercalate_cons_of_ne_nil (splitOnBecomes_ne_nil t), ih]
    rfl
  | case3 c t _ ih => rw [intercalate_modifyHead (splitOnBecomes_ne_nil t), ih]

/-- A sign shares no character with another one, so it keeps the pieces on its sides apart. -/
theorem splitOnBecomes_append_becomes (s t : Text) :
    splitOnBecomes (s ++ ':' :: '=' :: t) = splitOnBecomes s ++ splitOnBecomes t := by
  fun_induction splitOnBecomes s with
  | case1 => rfl
  | case2 s ih => rw [List.cons_append, List.cons_append, splitOnBecomes, ih]; rfl
  | case3 c s hne ih =>
    have hcons : splitOnBecomes (c :: (s ++ ':' :: '=' :: t)) =
        (splitOnBecomes (s ++ ':' :: '=' :: t)).modifyHead (c :: ·) := by
      rw [splitOnBecomes]
      intro s' hc hs
      cases s with
      | nil => cases hs
      | cons d s =>
        obtain ⟨rfl, -⟩ := List.cons.inj hs
        exact hne s hc rfl
    rw [List.cons_append, hcons, ih, modifyHead_append (splitOnBecomes_ne_nil s)]

theorem eq_of_splitOnBecomes {t p : Text} (h : splitOnBecomes t = [p]) : t = p := by
  have hjoin := intercalate_splitOnBecomes t
  rw [h] at hjoin
  simpa using hjoin.symm

theorem splitOnBecomes_eq_singleton {t : Text} (h : ∀ b a, t ≠ b ++ ':' :: '=' :: a) :
    splitOnBecomes t = [t] := by
  have hjoin := intercalate_splitOnBecomes t
  obtain ⟨p, ps, hsplit⟩ := List.exists_cons_of_ne_nil (splitOnBecomes_ne_nil t)
  rw [hsplit] at hjoin ⊢
  cases ps with
  | nil => simpa using hjoin
  | cons q ps =>
    rw [List.intercalate_cons_cons, List.append_assoc] at hjoin
    exact absurd hjoin.symm (h _ _)

theorem splitOnBecomes_of_not_mem {t : Text} (h : ':' ∉ t) : splitOnBecomes t = [t] := by
  apply splitOnBecomes_eq_singleton
  rintro b a rfl
  simp at h

theorem splitOnBecomes_append {s : Text} (h : ':' ∉ s) (t : Text) :
    splitOnBecomes (s ++ ':' :: '=' :: t) = s :: splitOnBecomes t := by
  rw [splitOnBecomes_append_becomes, splitOnBecomes_of_not_mem h]
  rfl

theorem not_infix_of_mem_splitOnBecomes {t p : Text} (h : p ∈ splitOnBecomes t) :
    ¬ [':', '='] <:+: p := by
  fun_induction splitOnBecomes t generalizing p with
  | case1 =>
    rw [List.mem_singleton.mp h]
    simp
  | case2 t ih =>
    rcases List.mem_cons.mp h with rfl | h
    · simp
    · exact ih h
  | case3 c t hne ih =>
    have hjoin := intercalate_splitOnBecomes t
    obtain ⟨q, qs, hsplit⟩ := List.exists_cons_of_ne_nil (splitOnBecomes_ne_nil t)
    rw [hsplit] at h ih hjoin
    rcases List.mem_cons.mp h with rfl | h
    · rw [List.infix_cons_iff]
      rintro (hstart | hinside)
      · -- A sign at the start of the piece would be one at the start of the text.
        obtain ⟨q', hq'⟩ := hstart
        cases hq'
        cases qs with
        | nil => exact hne q' rfl (by simpa using hjoin.symm)
        | cons r rs =>
          rw [List.intercalate_cons_cons, List.append_assoc] at hjoin
          exact hne _ rfl hjoin.symm
      · exact ih (by simp) hinside
    · exact ih (List.mem_cons_of_mem _ h)

theorem pair_infix_cons_of_ne {c d e : Char} (hc : c ≠ d) {u : Text} :
    [d, e] <:+: c :: u ↔ [d, e] <:+: u := by
  rw [List.infix_cons_iff, List.cons_prefix_cons]
  simp [hc.symm]

theorem pair_infix_blank_append {d e : Char} (hd : isBlank d = false) {u : Text} (hu : Blank u)
    (t : Text) : [d, e] <:+: u ++ t ↔ [d, e] <:+: t := by
  induction u with
  | nil => rfl
  | cons c u ih =>
    have hc : c ≠ d := fun h => hu.not_mem hd (by simp [h])
    rw [List.cons_append, pair_infix_cons_of_ne hc, ih fun b hb => hu b (List.mem_cons_of_mem _ hb)]

theorem not_becomes_of_padded {w t : Text} (hw : ¬ [':', '='] <:+: w) (h : Padded w t) :
    ¬ [':', '='] <:+: t := by
  obtain ⟨u, v, hu, hv, rfl⟩ := h
  have hv' : Blank v.reverse := fun c hc => hv c (List.mem_reverse.mp hc)
  rw [List.append_assoc, pair_infix_blank_append (by decide) hu, ← List.reverse_infix,
    List.reverse_append]
  have hend := pair_infix_blank_append (e := ':') (by decide : isBlank '=' = false) hv' w.reverse
  rw [show [':', '='].reverse = ['=', ':'] from rfl, hend]
  rwa [show ['=', ':'] = [':', '='].reverse from rfl, List.reverse_infix]

/-- A sign that stands after none is the first one. -/
theorem cutAtBecomes?_append {b : Text} (hb : ¬ [':', '='] <:+: b) (a : Text) :
    cutAtBecomes? (b ++ ':' :: '=' :: a) = some (b, a) := by
  induction b with
  | nil => rfl
  | cons c b ih =>
    rw [List.infix_cons_iff, not_or] at hb
    rw [List.cons_append, cutAtBecomes?, ih hb.2]
    · rfl
    · intro t hc ht
      apply hb.1
      cases b with
      | nil => cases ht
      | cons d b =>
        cases ht
        exact ⟨b, by rw [hc]; rfl⟩

def CutOnce (s b a : Text) : Prop :=
  s = b ++ ':' :: '=' :: a ∧ ∀ b' a', s = b' ++ ':' :: '=' :: a' → b' = b

theorem CutOnce.unique {s b a b' a' : Text} (h : CutOnce s b a) (h' : CutOnce s b' a') :
    b = b' ∧ a = a' := by
  obtain rfl := h'.2 b a h.1
  have hrest := List.append_cancel_left (h.1.symm.trans h'.1)
  cases hrest
  exact ⟨rfl, rfl⟩

theorem splitOnBecomes_eq_pair_iff {s b a : Text} : splitOnBecomes s = [b, a] ↔ CutOnce s b a := by
  constructor
  · intro h
    have hjoin := intercalate_splitOnBecomes s
    rw [h] at hjoin
    refine ⟨by simpa [List.intercalate_cons_cons] using hjoin.symm, ?_⟩
    intro b' a' hs
    rw [hs, splitOnBecomes_append_becomes] at h
    obtain ⟨p, ps, hp⟩ := List.exists_cons_of_ne_nil (splitOnBecomes_ne_nil b')
    obtain ⟨q, qs, hq⟩ := List.exists_cons_of_ne_nil (splitOnBecomes_ne_nil a')
    rw [hp, hq] at h
    cases ps with
    | nil =>
      obtain ⟨rfl, -⟩ := List.cons.inj h
      exact eq_of_splitOnBecomes hp
    | cons p' ps => simp at h
  · rintro ⟨rfl, hunique⟩
    rw [splitOnBecomes_append_becomes, splitOnBecomes_eq_singleton, splitOnBecomes_eq_singleton]
    · rfl
    · rintro x y rfl
      have hlen := congrArg List.length (hunique (b ++ ':' :: '=' :: x) y (by simp))
      simp at hlen
    · rintro x y rfl
      have hlen := congrArg List.length (hunique x (y ++ ':' :: '=' :: a) (by simp))
      simp at hlen

/-! ## Numbered names -/

def Numbered (stem t : Text) : Prop := ∃ n, t = stem ++ numeral n

/-- A numbered name has only one number, the one its digits spell. -/
theorem numbered_iff {stem t : Text} :
    Numbered stem t ↔
      t = stem ++ numeral (Nat.ofDigitChars 10 (t.drop stem.length) 0) := by
  constructor
  · rintro ⟨n, rfl⟩
    rw [List.drop_left]
    unfold numeral
    rw [Nat.ofDigitChars_ten_toDigits]
  · intro h
    exact ⟨_, h⟩

instance (stem t : Text) : Decidable (Numbered stem t) := decidable_of_iff _ numbered_iff.symm

theorem nodup_numbered (stem : Text) {ns : List Nat} (h : ns.Nodup) :
    (ns.map (stem ++ numeral ·)).Nodup := by
  apply List.pairwise_map.mpr
  apply h.imp
  intro m n hne e
  exact hne (numeral_injective (List.append_cancel_left e))

end StraightLine.Text
