import StraightLine.Symbol.Basic

/-!
# Symbol tables

A table lists its symbols in the order in which their names were first declared. Declaring a name
again replaces the symbol at its place.
-/

namespace StraightLine

structure SymbolTable where
  symbols : List Symbol := []
  deriving DecidableEq, Repr

namespace SymbolTable

def names (t : SymbolTable) : List Text := t.symbols.map (·.name)

def get? (t : SymbolTable) (name : Text) : Option Symbol := t.symbols.find? (·.name = name)

def contains (t : SymbolTable) (name : Text) : Bool := (t.get? name).isSome

def numType? (t : SymbolTable) (name : Text) : Option NumType := (t.get? name).bind (·.numType?)

def size (t : SymbolTable) : Nat := t.symbols.length

def isEmpty (t : SymbolTable) : Bool := t.symbols.isEmpty

/-- Puts a symbol in the place of the first one of its name, or at the end, and gives the symbol that
it replaced. -/
def place (s : Symbol) : List Symbol → Option Symbol × List Symbol
  | [] => (none, [s])
  | u :: us =>
    if u.name = s.name then (some u, s :: us)
    else let (old, rest) := place s us; (old, u :: rest)

def declare (t : SymbolTable) (s : Symbol) : Option Symbol × SymbolTable :=
  let (old, symbols) := place s t.symbols
  (old, { symbols })

def insert (t : SymbolTable) (s : Symbol) : SymbolTable := (t.declare s).2

def insertAll (t : SymbolTable) (ss : List Symbol) : SymbolTable := ss.foldl insert t

theorem place_fst (s : Symbol) (l : List Symbol) : (place s l).1 = l.find? (·.name = s.name) := by
  induction l with
  | nil => rfl
  | cons u us ih =>
    unfold place
    split
    · rename_i h; simp [h]
    · rename_i h; simp [h, ih]

/-- A declaration gives back what a look-up of its name found before. -/
theorem declare_fst (t : SymbolTable) (s : Symbol) : (t.declare s).1 = t.get? s.name :=
  place_fst s t.symbols

theorem find?_place (s : Symbol) (name : Text) (l : List Symbol) :
    (place s l).2.find? (·.name = name) =
      if s.name = name then some s else l.find? (·.name = name) := by
  induction l with
  | nil => by_cases h : s.name = name <;> simp [place, h]
  | cons u us ih =>
    unfold place
    split
    · rename_i hu
      by_cases h : s.name = name <;> simp [h, hu]
    · rename_i hu
      by_cases h : s.name = name
      · subst h; simp [hu, ih]
      · by_cases hun : u.name = name <;> simp [h, hun, ih]

/-- A look-up finds the last symbol declared under a name. -/
theorem get?_insert (t : SymbolTable) (s : Symbol) (name : Text) :
    (t.insert s).get? name = if s.name = name then some s else t.get? name :=
  find?_place s name t.symbols

theorem map_name_place (s : Symbol) (l : List Symbol) :
    (place s l).2.map (·.name) =
      if s.name ∈ l.map (·.name) then l.map (·.name) else l.map (·.name) ++ [s.name] := by
  induction l with
  | nil => rfl
  | cons u us ih =>
    unfold place
    split
    · rename_i hu
      rw [List.map_cons, List.map_cons, hu, if_pos (List.mem_cons_self ..)]
    · rename_i hu
      rw [List.map_cons, List.map_cons, ih]
      have hmem : s.name ∈ u.name :: us.map (·.name) ↔ s.name ∈ us.map (·.name) := by
        rw [List.mem_cons]
        exact ⟨fun h => h.resolve_left (Ne.symm hu), .inr⟩
      by_cases h : s.name ∈ us.map (·.name)
      · rw [if_pos h, if_pos (hmem.2 h)]
      · rw [if_neg h, if_neg (mt hmem.1 h), List.cons_append]

/-- A name keeps its place, and a new name comes last. -/
theorem names_insert (t : SymbolTable) (s : Symbol) :
    (t.insert s).names = if s.name ∈ t.names then t.names else t.names ++ [s.name] :=
  map_name_place s t.symbols

end SymbolTable

end StraightLine
