import StraightLine.Symbol.Table

/-!
# Nested scopes

Scopes are opened and closed as a stack over a root scope that stays open. Declarations and look-ups
concern the innermost scope only: an inner scope does not see the names of the scopes around it.
-/

namespace StraightLine

structure Scope where
  id : Nat
  parent : Option Nat
  symbols : SymbolTable := {}
  deriving DecidableEq, Repr

/-- The open scopes: the root and the scopes inside it, the innermost first. Every scope gets an id of
its own, the next unused number. -/
structure ScopeStack where
  root : Scope := { id := 0, parent := none }
  inner : List Scope := []
  nextId : Nat := 1
  deriving DecidableEq, Repr

namespace ScopeStack

def toList (s : ScopeStack) : List Scope := s.root :: s.inner.reverse

def depth (s : ScopeStack) : Nat := s.toList.length

def current (s : ScopeStack) : Scope := s.inner.headD s.root

/-- Opens a scope in the innermost one and gives its id. -/
def push (s : ScopeStack) : Nat × ScopeStack :=
  (s.nextId, { s with
    inner := { id := s.nextId, parent := some s.current.id } :: s.inner
    nextId := s.nextId + 1 })

/-- Closes the innermost scope and gives it back; the root is never closed. -/
def pop? (s : ScopeStack) : Option (Scope × ScopeStack) :=
  match s.inner with
  | [] => none
  | scope :: inner => some (scope, { s with inner })

def modifyCurrent (s : ScopeStack) (f : SymbolTable → SymbolTable) : ScopeStack :=
  match s.inner with
  | [] => { s with root := { s.root with symbols := f s.root.symbols } }
  | scope :: inner => { s with inner := { scope with symbols := f scope.symbols } :: inner }

/-- The stack after a declaration in the innermost scope, with the symbol that it replaced. -/
def declare (s : ScopeStack) (symbol : Symbol) : Option Symbol × ScopeStack :=
  let (old, symbols) := s.current.symbols.declare symbol
  (old, s.modifyCurrent fun _ => symbols)

def declareAll (s : ScopeStack) (symbols : List Symbol) : ScopeStack :=
  s.modifyCurrent (·.insertAll symbols)

def lookup (s : ScopeStack) (name : Text) : Option Symbol := s.current.symbols.get? name

def numType? (s : ScopeStack) (name : Text) : Option NumType := s.current.symbols.numType? name

theorem toList_push (s : ScopeStack) : s.push.2.toList = s.toList ++ [s.push.2.current] := by
  simp [toList, push, current]

theorem current_push (s : ScopeStack) : s.push.2.current = ⟨s.push.1, some s.current.id, {}⟩ := rfl

/-- Closing a scope that was just opened gives back the scopes that were open before. -/
theorem pop?_push (s : ScopeStack) :
    s.push.2.pop? = some (s.push.2.current, { s with nextId := s.nextId + 1 }) := rfl

theorem current_modifyCurrent (s : ScopeStack) (f : SymbolTable → SymbolTable) :
    (s.modifyCurrent f).current = { s.current with symbols := f s.current.symbols } := by
  unfold modifyCurrent current
  split <;> simp [*]

end ScopeStack

end StraightLine
