import StraightLine.Scope
import Mathlib.Data.List.Chain
import Mathlib.Data.List.Nodup

/-!
# Runs of a scope stack

A run opens and closes scopes and declares symbols in the innermost one, in any order. Whatever the run,
every open scope hangs on the one below it, ids grow towards the innermost scope, and no id is given out
twice, since closing a scope does not set the counter back.
-/

namespace StraightLine

def Scope.insert (scope : Scope) (symbol : Symbol) : Scope :=
  { scope with symbols := scope.symbols.insert symbol }

namespace ScopeStack

/-! ## Steps -/

/-- A declaration is that of a variable or of a string constant. -/
inductive Step where
  | push
  | pop
  | declare (symbol : Symbol)
  deriving DecidableEq, Repr

/-- The stack after a step; a pop that is refused leaves it as it is. -/
def step (s : ScopeStack) : Step → ScopeStack
  | .push => s.push.2
  | .pop => s.pop?.elim s (·.2)
  | .declare symbol => (s.declare symbol).2

def run (s : ScopeStack) (steps : List Step) : ScopeStack := steps.foldl step s

def opened (s : ScopeStack) : List Step → List Nat
  | [] => []
  | a :: steps => (if a = .push then [s.push.1] else []) ++ opened (s.step a) steps

theorem run_append (s : ScopeStack) (p q : List Step) : s.run (p ++ q) = (s.run p).run q :=
  List.foldl_append

theorem run_concat (s : ScopeStack) (steps : List Step) (a : Step) :
    s.run (steps ++ [a]) = (s.run steps).step a := s.run_append steps [a]

/-! ## What a step does to the open scopes -/

def outer (s : ScopeStack) : List Scope := s.toList.dropLast

theorem toList_ne_nil (s : ScopeStack) : s.toList ≠ [] := List.cons_ne_nil _ _

theorem toList_cons (root scope : Scope) (inner : List Scope) (n : Nat) :
    toList ⟨root, scope :: inner, n⟩ = toList ⟨root, inner, n⟩ ++ [scope] := by
  simp [toList]

theorem outer_cons (root scope : Scope) (inner : List Scope) (n : Nat) :
    outer ⟨root, scope :: inner, n⟩ = toList ⟨root, inner, n⟩ := by
  rw [outer, toList_cons, List.dropLast_concat]

theorem toList_eq (s : ScopeStack) : s.toList = s.outer ++ [s.current] := by
  obtain ⟨root, inner, n⟩ := s
  cases inner with
  | nil => rfl
  | cons scope inner => rw [outer_cons, toList_cons]; rfl

theorem depth_eq (s : ScopeStack) : s.depth = s.outer.length + 1 := by
  rw [depth, toList_eq, List.length_append, List.length_singleton]

theorem toList_modifyCurrent (s : ScopeStack) (f : SymbolTable → SymbolTable) :
    (s.modifyCurrent f).toList =
      s.outer ++ [{ s.current with symbols := f s.current.symbols }] := by
  obtain ⟨root, inner, n⟩ := s
  cases inner with
  | nil => rfl
  | cons scope inner => rw [outer_cons]; exact toList_cons ..

theorem nextId_modifyCurrent (s : ScopeStack) (f : SymbolTable → SymbolTable) :
    (s.modifyCurrent f).nextId = s.nextId := by
  unfold modifyCurrent
  split <;> rfl

theorem toList_declare (s : ScopeStack) (symbol : Symbol) :
    (s.declare symbol).2.toList = s.outer ++ [s.current.insert symbol] :=
  s.toList_modifyCurrent _

theorem pop?_cases (s : ScopeStack) :
    s.pop? = none ∧ s.outer = [] ∨
      ∃ s', s.pop? = some (s.current, s') ∧ s.outer = s'.toList ∧ s'.nextId = s.nextId := by
  obtain ⟨root, inner, n⟩ := s
  cases inner with
  | nil => exact .inl ⟨rfl, rfl⟩
  | cons scope inner => exact .inr ⟨⟨root, inner, n⟩, rfl, outer_cons .., rfl⟩

/-- All that a step can do to the open scopes and to the counter of ids. -/
theorem step_cases (s : ScopeStack) (a : Step) :
    (a = .push ∧ (s.step a).toList = s.toList ++ [⟨s.nextId, some s.current.id, {}⟩] ∧
        (s.step a).nextId = s.nextId + 1) ∨
      (a = .pop ∧ s.outer = [] ∧ s.step a = s) ∨
      (a = .pop ∧ s.outer ≠ [] ∧ (s.step a).toList = s.outer ∧ (s.step a).nextId = s.nextId) ∨
      ∃ symbol, a = .declare symbol ∧
        (s.step a).toList = s.outer ++ [s.current.insert symbol] ∧ (s.step a).nextId = s.nextId := by
  cases a with
  | push => exact .inl ⟨rfl, s.toList_push, rfl⟩
  | pop =>
    right
    obtain ⟨hpop, houter⟩ | ⟨s', hpop, houter, hnext⟩ := s.pop?_cases
    · exact .inl ⟨rfl, houter, by simp [step, hpop]⟩
    · refine .inr (.inl ⟨rfl, ?_, ?_, ?_⟩)
      · rw [houter]
        exact s'.toList_ne_nil
      · simp [step, hpop, houter]
      · simp [step, hpop, hnext]
  | declare symbol =>
    exact .inr (.inr (.inr ⟨symbol, rfl, s.toList_declare symbol, s.nextId_modifyCurrent _⟩))

/-! ## Ids and parents -/

def identities (s : ScopeStack) : List (Nat × Option Nat) :=
  s.toList.map fun scope => (scope.id, scope.parent)

theorem identities_eq (s : ScopeStack) :
    s.identities =
      (s.outer.map fun scope => (scope.id, scope.parent)) ++ [(s.current.id, s.current.parent)] := by
  rw [identities, toList_eq, List.map_append, List.map_singleton]

theorem identities_push (s : ScopeStack) :
    s.push.2.identities = s.identities ++ [(s.nextId, some s.current.id)] := by
  rw [identities, toList_push, current_push, List.map_append]
  rfl

theorem identities_step (s : ScopeStack) (a : Step) :
    (a = .push ∧ (s.step a).identities = s.identities ++ [(s.nextId, some s.current.id)] ∧
        (s.step a).nextId = s.nextId + 1) ∨
      (a ≠ .push ∧ (s.step a).nextId = s.nextId ∧
        ((s.step a).identities = s.identities ∨
          1 < s.identities.length ∧ (s.step a).identities = s.identities.dropLast)) := by
  obtain ⟨rfl, -, hnext⟩ | ⟨rfl, -, hsame⟩ | ⟨rfl, hne, hlist, hnext⟩ | ⟨symbol, rfl, hlist, hnext⟩ :=
    s.step_cases a
  · exact .inl ⟨rfl, s.identities_push, hnext⟩
  · exact .inr ⟨by simp, by rw [hsame], .inl (by rw [hsame])⟩
  · refine .inr ⟨by simp, hnext, .inr ⟨?_, ?_⟩⟩
    · have hlen := List.length_pos_iff.mpr hne
      simp only [identities_eq, List.length_append, List.length_map, List.length_singleton]
      omega
    · rw [identities_eq s, List.dropLast_concat, identities, hlist]
  · refine .inr ⟨by simp, hnext, .inl ?_⟩
    rw [identities_eq s, identities, hlist, List.map_append, List.map_singleton]
    rfl

structure Nested (s : ScopeStack) : Prop where
  bottom : s.identities.head? = some (0, none)
  parents : s.identities.IsChain fun below above => above.2 = some below.1
  increasing : s.identities.Pairwise fun below above => below.1 < above.1
  fresh : ∀ p ∈ s.identities, p.1 < s.nextId

theorem Nested.push {s : ScopeStack} (h : s.Nested) : s.push.2.Nested := by
  refine ⟨?_, ?_, ?_, ?_⟩
  · rw [identities_push, List.head?_append, h.bottom]; rfl
  · -- The new scope hangs on the last one of the list, which is the innermost.
    rw [identities_push, List.isChain_append]
    refine ⟨h.parents, List.isChain_singleton _, ?_⟩
    intro p hp q hq
    rw [identities_eq, List.getLast?_concat] at hp
    cases hp; cases hq
    rfl
  · rw [identities_push, List.pairwise_append]
    refine ⟨h.increasing, List.pairwise_singleton .., ?_⟩
    intro p hp q hq
    cases List.mem_singleton.mp hq
    exact h.fresh p hp
  · intro p hp
    rw [identities_push] at hp
    show p.1 < s.nextId + 1
    obtain hp | hp := List.mem_append.mp hp
    · exact Nat.lt_succ_of_lt (h.fresh p hp)
    · cases List.mem_singleton.mp hp
      exact Nat.lt_succ_self _

theorem Nested.step {s : ScopeStack} (h : s.Nested) (a : Step) : (s.step a).Nested := by
  obtain ⟨rfl, -, -⟩ | ⟨-, hnext, hids | ⟨hlen, hids⟩⟩ := s.identities_step a
  · exact h.push
  · obtain ⟨hbottom, hparents, hincreasing, hfresh⟩ := h
    rw [← hids] at hbottom hparents hincreasing hfresh
    exact ⟨hbottom, hparents, hincreasing, hnext ▸ hfresh⟩
  · have hpre : (s.step a).identities <+: s.identities := hids ▸ List.dropLast_prefix _
    refine ⟨?_, hids ▸ h.parents.dropLast, h.increasing.sublist hpre.sublist, ?_⟩
    · rw [hids, List.head?_dropLast, if_pos hlen, h.bottom]
    · intro p hp
      rw [hnext]
      exact h.fresh p (hpre.subset hp)

theorem Nested.run {s : ScopeStack} (h : s.Nested) (steps : List Step) : (s.run steps).Nested := by
  induction steps generalizing s with
  | nil => exact h
  | cons a steps ih => exact ih (h.step a)

theorem nested_empty : Nested {} where
  bottom := rfl
  parents := List.isChain_singleton _
  increasing := List.pairwise_singleton ..
  fresh := by simp [identities, toList]

/-! ## The counter -/

theorem nextId_run (s : ScopeStack) (steps : List Step) :
    (s.run steps).nextId = s.nextId + steps.count .push := by
  induction steps generalizing s with
  | nil => rfl
  | cons a steps ih =>
    obtain ⟨rfl, -, hnext⟩ | ⟨hne, hnext, -⟩ := s.identities_step a
    · show ((s.step .push).run steps).nextId = _
      rw [ih, hnext, List.count_cons_self]
      omega
    · show ((s.step a).run steps).nextId = _
      rw [ih, hnext, List.count_cons_of_ne hne]

theorem opened_eq_range' (s : ScopeStack) (steps : List Step) :
    s.opened steps = List.range' s.nextId (steps.count .push) := by
  induction steps generalizing s with
  | nil => rfl
  | cons a steps ih =>
    obtain ⟨rfl, -, hnext⟩ | ⟨hne, hnext, -⟩ := s.identities_step a
    · rw [opened, ih, hnext, List.count_cons_self, List.range'_succ]
      simp [push]
    · rw [opened, ih, hnext, List.count_cons_of_ne hne]
      simp [hne]

/-! ## Closing a scope -/

structure Closes (s : ScopeStack) : Prop where
  refused : s.pop? = none ↔ s.depth = 1
  unchanged : s.depth = 1 → s.step .pop = s
  innermost : s.depth ≠ 1 →
    s.pop? = some (s.current, s.step .pop) ∧ s.toList = (s.step .pop).toList ++ [s.current] ∧
      (s.step .pop).nextId = s.nextId

theorem closes (s : ScopeStack) : s.Closes := by
  have hdepth : s.depth = 1 ↔ s.outer = [] := by
    rw [depth_eq, ← List.length_eq_zero_iff]
    omega
  obtain ⟨hpop, houter⟩ | ⟨s', hpop, houter, hnext⟩ := s.pop?_cases
  · have hroot := hdepth.mpr houter
    exact ⟨by simp [hpop, hroot], fun _ => by simp [step, hpop], fun h => absurd hroot h⟩
  · have hne : s.depth ≠ 1 := mt hdepth.mp (houter ▸ s'.toList_ne_nil)
    have hstep : s.step .pop = s' := by simp [step, hpop]
    refine ⟨by simp [hpop, hne], fun h => absurd h hne, fun _ => ?_⟩
    rw [hstep]
    exact ⟨hpop, houter ▸ s.toList_eq, hnext⟩

/-- After any run the open scopes are nested, the counter has counted the pushes, all of which gave out
different ids, the next one will give out that of the scope it opens, and every scope but the root can
be closed. -/
theorem identities_of_run (steps : List Step) :
    (run {} steps).Nested ∧ (run {} steps).nextId = steps.count .push + 1 ∧
      (opened {} steps).Nodup ∧ (run {} steps).push.2.current.id = (run {} steps).push.1 ∧
      (run {} steps).Closes := by
  refine ⟨nested_empty.run steps, ?_, ?_, by rw [current_push], closes _⟩
  · rw [nextId_run, Nat.add_comm]
  · rw [opened_eq_range']
    exact List.nodup_range'

end ScopeStack

end StraightLine
