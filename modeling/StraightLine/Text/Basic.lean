/-!
# Text: blanks, trimming, runs

Source and listing text is handled as its sequence of characters, so that every function on it is a
recursion on a list. A blank is a character with the Unicode property `White_Space`.
-/

namespace StraightLine

abbrev Text := List Char

namespace Text

/-! ## Blanks -/

/-- Code points with the property `White_Space`, as closed ranges in increasing order. -/
def blankRanges : List (Nat × Nat) :=
  [(0x09, 0x0D), (0x20, 0x20), (0x85, 0x85), (0xA0, 0xA0), (0x1680, 0x1680), (0x2000, 0x200A),
    (0x2028, 0x2029), (0x202F, 0x202F), (0x205F, 0x205F), (0x3000, 0x3000)]

def isBlank (c : Char) : Bool :=
  blankRanges.any fun (lo, hi) => lo ≤ c.toNat && c.toNat ≤ hi

example : blankRanges.Pairwise fun r s => r.2 < s.1 := by decide

example : (blankRanges.map fun (lo, hi) => hi + 1 - lo).sum = 25 := by decide

def trimStart (t : Text) : Text := t.dropWhile isBlank

def trimEnd (t : Text) : Text := (t.reverse.dropWhile isBlank).reverse

def trim (t : Text) : Text := trimEnd (trimStart t)

theorem trimStart_eq_self {c : Char} {t : Text} (h : isBlank c = false) :
    trimStart (c :: t) = c :: t := by
  simp [trimStart, h]

theorem trimEnd_eq_self {c : Char} {t : Text} (h : isBlank c = false) :
    trimEnd (t ++ [c]) = t ++ [c] := by
  simp [trimEnd, h]

/-- Drops the blanks at both ends, and the semicolon that ends the text with the blanks before it. Only
one semicolon goes. -/
def unterminated (t : Text) : Text :=
  let s := trim t
  trimEnd (if s.getLast? = some ';' then s.dropLast else s)

example : unterminated "  x := 1 ; ".toList = "x := 1".toList := by decide

example : unterminated "x;;".toList = "x;".toList := by decide

/-! ## Runs and joins -/

/-- The maximal non-empty runs of characters that are no separators, in order. -/
def runs (sep : Char → Bool) (t : Text) : List Text :=
  (t.splitOnP sep).filter (!·.isEmpty)

@[simp] theorem runs_nil (sep : Char → Bool) : runs sep [] = [] := by
  simp [runs]

/-- A separator between two texts keeps their runs apart. -/
theorem runs_append_cons {sep : Char → Bool} {c : Char} (h : sep c = true) (s t : Text) :
    runs sep (s ++ c :: t) = runs sep s ++ runs sep t := by
  simp [runs, List.splitOnP_append_cons s t h]

theorem runs_eq_singleton {sep : Char → Bool} {t : Text} (ht : t ≠ [])
    (h : ∀ c ∈ t, sep c = false) : runs sep t = [t] := by
  simp [runs, List.splitOnP_eq_singleton h, ht]

/-- The entries of a comma-separated list, trimmed; empty entries are skipped. -/
def entries (t : Text) : List Text :=
  ((t.splitOn ',').map trim).filter (!·.isEmpty)

example : entries " a, ,b c,".toList = ["a".toList, "b c".toList] := by decide

def unwords (ts : List Text) : Text := [' '].intercalate ts

def unlines (ts : List Text) : Text := ts.flatMap (· ++ ['\n'])

def numeral (n : Nat) : Text := Nat.toDigits 10 n

theorem numeral_injective {m n : Nat} (h : numeral m = numeral n) : m = n := by
  have := congrArg (Nat.ofDigitChars 10 · 0) h
  simpa [numeral, Nat.ofDigitChars_ten_toDigits] using this

end Text

end StraightLine
