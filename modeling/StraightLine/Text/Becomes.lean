import StraightLine.Text.Basic

/-!
# Cutting a text at its `:=` signs
-/

namespace StraightLine.Text

/-- The pieces between the `:=` signs of a text; a text with `n` signs has `n + 1` pieces. -/
def splitOnBecomes : Text → List Text
  | [] => [[]]
  | ':' :: '=' :: t => [] :: splitOnBecomes t
  | c :: t => (splitOnBecomes t).modifyHead (c :: ·)

/-- The text before the first `:=` and all the text after it. -/
def cutAtBecomes? : Text → Option (Text × Text)
  | [] => none
  | ':' :: '=' :: t => some ([], t)
  | c :: t => (cutAtBecomes? t).map fun (before, after) => (c :: before, after)

example : splitOnBecomes "a := b::==c".toList = ["a ".toList, " b:".toList, "=c".toList] := by decide

example : cutAtBecomes? "a := b := c".toList = some ("a ".toList, " b := c".toList) := by decide

theorem splitOnBecomes_ne_nil (t : Text) : splitOnBecomes t ≠ [] := by
  fun_induction splitOnBecomes t with
  | case1 => simp
  | case2 => simp
  | case3 c t _ ih => simpa using ih

theorem eq_of_cutAtBecomes? {t before after : Text} (h : cutAtBecomes? t = some (before, after)) :
    t = before ++ ':' :: '=' :: after := by
  fun_induction cutAtBecomes? t generalizing before with
  | case1 => cases h
  | case2 t => cases h; rfl
  | case3 c t _ ih =>
    obtain ⟨⟨b, a⟩, hcut, heq⟩ := Option.map_eq_some_iff.1 h
    cases heq
    rw [ih hcut, List.cons_append]

end StraightLine.Text
