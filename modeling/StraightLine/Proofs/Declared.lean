import StraightLine.Proofs.Effects
import Mathlib.Data.List.Induction
import Mathlib.Data.List.Nodup

/-!
# What declarations leave in a table

A table lists each declared name once, where it was first declared, with the symbol that was declared
last under it. A program compiled in a fresh context leaves such a table in the root scope.
-/

namespace StraightLine

def Symbol.lastNamed? (symbols : List Symbol) (name : Text) : Option Symbol :=
  symbols.reverse.find? (·.name = name)

theorem Symbol.lastNamed?_concat (symbols : List Symbol) (s : Symbol) (name : Text) :
    lastNamed? (symbols ++ [s]) name = if s.name = name then some s else lastNamed? symbols name := by
  unfold lastNamed?
  by_cases h : s.name = name <;> simp [h]

theorem Symbol.name_of_lastNamed? {symbols : List Symbol} {name : Text} {s : Symbol}
    (h : lastNamed? symbols name = some s) : s.name = name := by
  simpa using List.find?_some h

namespace SymbolTable

/-! ## Tables -/

theorem insertAll_append (t : SymbolTable) (p q : List Symbol) :
    t.insertAll (p ++ q) = (t.insertAll p).insertAll q := List.foldl_append

theorem insertAll_concat (t : SymbolTable) (symbols : List Symbol) (s : Symbol) :
    t.insertAll (symbols ++ [s]) = (t.insertAll symbols).insert s := t.insertAll_append symbols [s]

theorem get?_insertAll (symbols : List Symbol) (name : Text) :
    (insertAll {} symbols).get? name = Symbol.lastNamed? symbols name := by
  induction symbols using List.reverseRecOn with
  | nil => rfl
  | append_singleton symbols s ih =>
    rw [insertAll_concat, get?_insert, Symbol.lastNamed?_concat, ih]

theorem names_insertAll (symbols : List Symbol) :
    (insertAll {} symbols).names = (symbols.map (·.name)).eraseDups := by
  induction symbols using List.reverseRecOn with
  | nil => rfl
  | append_singleton symbols s ih =>
    rw [insertAll_concat, names_insert, ih, List.map_append, List.map_singleton,
      List.eraseDups_append]
    generalize symbols.map (·.name) = names
    by_cases h : s.name ∈ names
    · rw [if_pos (List.mem_eraseDups.mpr h)]
      simp [List.removeAll, h]
    · rw [if_neg (mt List.mem_eraseDups.mp h)]
      simp [List.removeAll, h, List.eraseDups_cons]

theorem nodup_names_insertAll (symbols : List Symbol) : (insertAll {} symbols).names.Nodup := by
  induction symbols using List.reverseRecOn with
  | nil => exact .nil
  | append_singleton symbols s ih =>
    rw [insertAll_concat, names_insert]
    by_cases h : s.name ∈ (insertAll {} symbols).names
    · rw [if_pos h]
      exact ih
    · rw [if_neg h]
      exact List.Nodup.append ih (List.nodup_singleton _) (by simpa using h)

theorem insert_of_not_mem {t : SymbolTable} {s : Symbol} (h : s.name ∉ t.names) :
    t.insert s = ⟨t.symbols ++ [s]⟩ := by
  have hplace : ∀ l : List Symbol, s.name ∉ l.map (·.name) → (place s l).2 = l ++ [s] := by
    intro l hl
    induction l with
    | nil => rfl
    | cons u l ih =>
      simp only [List.map_cons, List.mem_cons, not_or] at hl
      simp only [place, if_neg (Ne.symm hl.1), ih hl.2, List.cons_append]
  exact congrArg SymbolTable.mk (hplace t.symbols h)

/-- Symbols of different names make up their table as they come. -/
theorem insertAll_of_nodup {symbols : List Symbol} (h : (symbols.map (·.name)).Nodup) :
    insertAll {} symbols = ⟨symbols⟩ := by
  induction symbols using List.reverseRecOn with
  | nil => rfl
  | append_singleton symbols s ih =>
    rw [List.map_append, List.map_singleton, List.nodup_append] at h
    rw [insertAll_concat, ih h.1, insert_of_not_mem]
    intro hmem
    exact h.2.2 _ hmem _ (List.mem_singleton_self _) rfl

/-- A symbol of a table is found under its own name. -/
theorem get?_of_mem {t : SymbolTable} (hnodup : t.names.Nodup) {s : Symbol} (h : s ∈ t.symbols) :
    t.get? s.name = some s := by
  obtain ⟨symbols⟩ := t
  unfold get?
  induction symbols with
  | nil => cases h
  | cons u symbols ih =>
    obtain ⟨hu, hnodup⟩ := List.nodup_cons.mp hnodup
    rcases List.mem_cons.mp h with rfl | h
    · simp
    · have hne : u.name ≠ s.name := fun e => hu (List.mem_map.mpr ⟨s, h, e.symm⟩)
      simpa [hne] using ih hnodup h

theorem map_get?_names {t : SymbolTable} (hnodup : t.names.Nodup) :
    t.names.map t.get? = t.symbols.map some := by
  rw [names, List.map_map]
  apply List.map_congr_left
  intro s hs
  exact get?_of_mem hnodup hs

theorem symbols_insert_of_mem {t : SymbolTable} (hnodup : t.names.Nodup) {s : Symbol}
    (h : s.name ∈ t.names) :
    (t.insert s).symbols = t.symbols.map fun u => if u.name = s.name then s else u := by
  obtain ⟨symbols⟩ := t
  show (place s symbols).2 = _
  induction symbols with
  | nil => cases h
  | cons u symbols ih =>
    obtain ⟨hu, hnodup⟩ := List.nodup_cons.mp hnodup
    by_cases hname : u.name = s.name
    · -- The name has its place here, so no later symbol has it.
      have hkeep : ∀ v ∈ symbols, (if v.name = s.name then s else v) = id v := by
        intro v hv
        have hne : v.name ≠ s.name := fun e =>
          hu (List.mem_map.mpr ⟨v, hv, e.trans hname.symm⟩)
        rw [if_neg hne, id]
      simp [place, hname, List.map_congr_left hkeep]
    · have hmem : s.name ∈ symbols.map (·.name) := by
        rcases List.mem_cons.mp h with h | h
        · exact absurd h.symm hname
        · exact h
      simp [place, hname, ih hnodup hmem]

/-! ## The law of a table -/

/-- What a table shows of the declarations that made it: their names as each came first, and under a name
the symbol that came last. -/
structure Reflects (t : SymbolTable) (declared : List Symbol) : Prop where
  names : t.names = (declared.map (·.name)).eraseDups
  distinct : t.names.Nodup
  symbols : t.symbols.map some = t.names.map (Symbol.lastNamed? declared)
  ownName : ∀ s ∈ t.symbols, t.get? s.name = some s
  get? : ∀ name, t.get? name = Symbol.lastNamed? declared name
  contains : ∀ name, t.contains name = true ↔ ∃ s ∈ declared, s.name = name
  numType? : ∀ name ty,
    t.numType? name = some ty ↔ Symbol.lastNamed? declared name = some ⟨name, .num ty⟩
  size : t.size = (declared.map (·.name)).eraseDups.length

structure Takes (t : SymbolTable) (s : Symbol) : Prop where
  replaced : (t.declare s).1 = t.get? s.name
  own : (t.declare s).2.get? s.name = some s
  others : ∀ name, name ≠ s.name → (t.declare s).2.get? name = t.get? name
  inPlace : s.name ∈ t.names →
    (t.declare s).2.symbols = t.symbols.map fun u => if u.name = s.name then s else u
  atEnd : s.name ∉ t.names → (t.declare s).2.symbols = t.symbols ++ [s]

theorem takes_of_nodup {t : SymbolTable} (hnodup : t.names.Nodup) (s : Symbol) : t.Takes s where
  replaced := t.declare_fst s
  own := by rw [← insert, get?_insert, if_pos rfl]
  others := by
    intro name hne
    rw [← insert, get?_insert, if_neg (Ne.symm hne)]
  inPlace := symbols_insert_of_mem hnodup
  atEnd := fun h => congrArg SymbolTable.symbols (insert_of_not_mem h)

theorem contains_insertAll (declared : List Symbol) (name : Text) :
    (insertAll {} declared).contains name = true ↔ ∃ s ∈ declared, s.name = name := by
  rw [SymbolTable.contains, get?_insertAll, Symbol.lastNamed?, List.find?_isSome]
  simp

theorem numType?_insertAll (declared : List Symbol) (name : Text) (ty : NumType) :
    (insertAll {} declared).numType? name = some ty ↔
      Symbol.lastNamed? declared name = some ⟨name, .num ty⟩ := by
  rw [SymbolTable.numType?, get?_insertAll]
  cases h : Symbol.lastNamed? declared name with
  | none => simp
  | some s =>
    have hname := Symbol.name_of_lastNamed? h
    obtain ⟨n, ty' | literal⟩ := s <;> simp_all [Symbol.numType?]

/-- However often names are declared again and whatever as, the table made by the declarations lists each
name where it was declared first and with what it was declared as last, and every further declaration
replaces what a look-up of its name found. -/
theorem reflects_declarations (declared : List Symbol) :
    (insertAll {} declared).Reflects declared ∧ ∀ s, (insertAll {} declared).Takes s := by
  have hnames := names_insertAll declared
  have hnodup := nodup_names_insertAll declared
  have hget := get?_insertAll declared
  refine ⟨?_, takes_of_nodup hnodup⟩
  refine ⟨hnames, hnodup, ?_, fun s => get?_of_mem hnodup, hget, contains_insertAll declared,
    numType?_insertAll declared, ?_⟩
  · rw [← map_get?_names hnodup]
    exact List.map_congr_left fun name _ => hget name
  · rw [← hnames, size, SymbolTable.names, List.length_map]

end SymbolTable

/-! ## Programs -/

def Construct.declared (program : List Construct) : List Symbol := program.flatMap (·.symbols)

theorem ScopeStack.root_foldl_declareAll {s : ScopeStack} (h : s.inner = [])
    (program : List Construct) :
    (program.foldl (fun scopes c => scopes.declareAll c.symbols) s).root.symbols =
      s.root.symbols.insertAll (Construct.declared program) := by
  induction program generalizing s with
  | nil => rfl
  | cons c program ih =>
    -- With no scope inside the root the root itself is the innermost one, and stays so.
    have hroot : (s.declareAll c.symbols).root.symbols = s.root.symbols.insertAll c.symbols := by
      simp [declareAll, modifyCurrent, h]
    have hinner : (s.declareAll c.symbols).inner = [] := by
      simp [declareAll, modifyCurrent, h]
    rw [List.foldl_cons, ih hinner, hroot, ← SymbolTable.insertAll_append]
    rfl

theorem Context.root_compile (options : Options) (program : List Construct) :
    (compile { options } program).context.scopes.root.symbols =
      SymbolTable.insertAll {} (Construct.declared program) := by
  have hscopes : (compile { options } program).context.scopes = _ :=
    Traversal.visitAll_scopes (Traversal.enter { context := { options } }) program
  rw [hscopes]
  exact ScopeStack.root_foldl_declareAll rfl program

end StraightLine
