import StraightLine.Proofs.Declared
import StraightLine.Proofs.ScopeRuns
import Mathlib.Data.List.Infix

/-!
# Inner scopes leave outer ones alone

A step changes at most the innermost scope. So a run that opens a scope and stays inside it keeps all the
scopes that were open before, and once the scope is closed only the counter of ids tells that it was there.
Inside, a look-up finds what was declared in the innermost scope since it was opened.
-/

namespace StraightLine.ScopeStack

def Reachable (s : ScopeStack) : Prop := ∃ steps, run {} steps = s

theorem Reachable.nested {s : ScopeStack} (h : s.Reachable) : s.Nested := by
  obtain ⟨steps, rfl⟩ := h
  exact nested_empty.run steps

/-! ## Scopes below the innermost one -/

def StaysAbove (d : Nat) (s : ScopeStack) (steps : List Step) : Prop :=
  ∀ part, part <+: steps → d < (s.run part).depth

instance (d : Nat) (s : ScopeStack) (steps : List Step) : Decidable (StaysAbove d s steps) :=
  decidable_of_iff (∀ part ∈ steps.inits, d < (s.run part).depth)
    (forall_congr' fun part => by rw [List.mem_inits])

theorem outer_prefix_step (s : ScopeStack) (a : Step) : s.outer <+: (s.step a).toList := by
  obtain ⟨-, hlist, -⟩ | ⟨-, -, hsame⟩ | ⟨-, -, hlist, -⟩ | ⟨symbol, -, hlist, -⟩ := s.step_cases a
  · rw [hlist, toList_eq, List.append_assoc]
    exact List.prefix_append ..
  · rw [hsame, toList_eq]
    exact List.prefix_append ..
  · exact hlist ▸ List.prefix_refl _
  · rw [hlist]
    exact List.prefix_append ..

theorem toList_prefix_step {s s' : ScopeStack} (h : s.toList <+: s'.toList) (hd : s.depth < s'.depth)
    (a : Step) : s.toList <+: (s'.step a).toList := by
  have houter : s.toList <+: s'.outer := by
    refine List.prefix_of_prefix_length_le h (List.dropLast_prefix _) ?_
    rw [depth_eq s'] at hd
    exact Nat.le_of_lt_succ hd
  exact houter.trans (s'.outer_prefix_step a)

theorem toList_prefix_run {s s' : ScopeStack} (h : s.toList <+: s'.toList) {steps : List Step}
    (hin : StaysAbove s.depth s' steps) : s.toList <+: (s'.run steps).toList := by
  -- From the end of the run: its last step starts where the run is still inside.
  induction steps using List.reverseRecOn with
  | nil => exact h
  | append_singleton steps a ih =>
    have hrest : StaysAbove s.depth s' steps := fun part hpart =>
      hin part (hpart.trans (List.prefix_append ..))
    rw [run_concat]
    exact toList_prefix_step (ih hrest) (hrest steps (List.prefix_refl _)) a

theorem current_mem (s : ScopeStack) : s.current ∈ s.toList := by
  simp [toList_eq]

theorem eq_of_toList_eq {s s' : ScopeStack} (h : s.toList = s'.toList) :
    s' = { s with nextId := s'.nextId } := by
  obtain ⟨root, inner, n⟩ := s
  obtain ⟨root', inner', n'⟩ := s'
  obtain ⟨rfl, hinner⟩ := List.cons.inj h
  rw [List.reverse_injective hinner]

/-! ## Declarations in a scope -/

def declaredIn (id : Nat) (s : ScopeStack) : List Step → List Symbol
  | [] => []
  | .declare symbol :: steps =>
    (if s.current.id = id then [symbol] else []) ++ declaredIn id (s.step (.declare symbol)) steps
  | .push :: steps => declaredIn id (s.step .push) steps
  | .pop :: steps => declaredIn id (s.step .pop) steps

theorem declaredIn_append (id : Nat) (s : ScopeStack) (p q : List Step) :
    s.declaredIn id (p ++ q) = s.declaredIn id p ++ (s.run p).declaredIn id q := by
  induction p generalizing s with
  | nil => rfl
  | cons a p ih => cases a <;> simp [declaredIn, run, ih]

theorem Nested.id_lt_current {s : ScopeStack} (h : s.Nested) {scope : Scope} (hmem : scope ∈ s.outer) :
    scope.id < s.current.id := by
  have hids := h.increasing
  rw [identities_eq, List.pairwise_append] at hids
  exact hids.2.2 _ (List.mem_map_of_mem hmem) _ (List.mem_singleton_self _)

theorem Nested.current_lt {s : ScopeStack} (h : s.Nested) : s.current.id < s.nextId := by
  apply h.fresh (s.current.id, s.current.parent)
  simp [identities_eq]

theorem Nested.declaredIn_eq_nil {s : ScopeStack} (h : s.Nested) {steps : List Step} {id : Nat}
    (hid : (s.run steps).nextId ≤ id) : s.declaredIn id steps = [] := by
  induction steps generalizing s with
  | nil => rfl
  | cons a steps ih =>
    have hrest : (s.step a).declaredIn id steps = [] := ih (h.step a) hid
    have hne : s.current.id ≠ id := by
      have := h.current_lt
      rw [nextId_run] at hid
      omega
    cases a with
    | push => exact hrest
    | pop => exact hrest
    | declare symbol => simp [declaredIn, hne, hrest]

/-- An open scope holds what was declared while it was the innermost one. -/
theorem symbols_run (steps : List Step) {scope : Scope} (h : scope ∈ (run {} steps).toList) :
    scope.symbols = SymbolTable.insertAll {} (declaredIn scope.id {} steps) := by
  induction steps using List.reverseRecOn generalizing scope with
  | nil =>
    cases List.mem_singleton.mp h
    rfl
  | append_singleton steps a ih =>
    have hnested := nested_empty.run steps
    have hnil := @Nested.declaredIn_eq_nil _ nested_empty steps
    rw [run_concat] at h
    rw [declaredIn_append]
    generalize run {} steps = s at *
    have houter : ∀ {scope : Scope}, scope ∈ s.outer → scope ∈ s.toList := fun hmem =>
      (List.dropLast_prefix _).subset hmem
    obtain ⟨rfl, hlist, -⟩ | ⟨rfl, -, hsame⟩ | ⟨rfl, -, hlist, -⟩ | ⟨symbol, rfl, hlist, -⟩ :=
      s.step_cases a
    · rw [hlist] at h
      obtain h | h := List.mem_append.mp h
      · simpa [declaredIn] using ih h
      · -- A new scope is empty, and its id was nobody's before.
        cases List.mem_singleton.mp h
        simp [declaredIn, hnil, SymbolTable.insertAll]
    · rw [hsame] at h
      simpa [declaredIn] using ih h
    · rw [hlist] at h
      simpa [declaredIn] using ih (houter h)
    · rw [hlist] at h
      obtain h | h := List.mem_append.mp h
      · -- The declaration goes to another scope, since ids grow inwards.
        have hne : s.current.id ≠ scope.id := Nat.ne_of_gt (hnested.id_lt_current h)
        simpa [declaredIn, hne] using ih (houter h)
      · cases List.mem_singleton.mp h
        have hcurrent := ih s.current_mem
        simp [declaredIn, Scope.insert, SymbolTable.insertAll_concat, hcurrent]

theorem symbols_since_push {before after : List Step} {scope : Scope}
    (h : scope ∈ (run {} (before ++ .push :: after)).toList)
    (hid : scope.id = (run {} before).push.1) :
    scope.symbols =
      SymbolTable.insertAll {} ((run {} before).push.2.declaredIn scope.id after) := by
  have hbefore : declaredIn scope.id {} before = [] :=
    nested_empty.declaredIn_eq_nil (Nat.le_of_eq hid.symm)
  rw [symbols_run _ h, declaredIn_append, hbefore]
  rfl

/-! ## The push that opened a scope -/

theorem exists_push_of_mem_opened {s : ScopeStack} {steps : List Step} {id : Nat}
    (h : id ∈ s.opened steps) :
    ∃ before after, steps = before ++ .push :: after ∧ (s.run before).push.1 = id := by
  induction steps generalizing s with
  | nil => cases h
  | cons a steps ih =>
    rw [opened] at h
    obtain h | h := List.mem_append.mp h
    · by_cases ha : a = .push
      · rw [if_pos ha] at h
        exact ⟨[], steps, by rw [ha]; rfl, (List.mem_singleton.mp h).symm⟩
      · rw [if_neg ha] at h
        cases h
    · obtain ⟨before, after, rfl, hid⟩ := ih h
      exact ⟨a :: before, after, rfl, hid⟩

/-- What lies above the scopes of `s` was opened after `s`. -/
theorem nextId_le_of_mem_drop {s : ScopeStack} {steps : List Step} {p : Nat × Option Nat}
    (h : p ∈ (s.run steps).identities.drop s.depth) : s.nextId ≤ p.1 := by
  induction steps using List.reverseRecOn generalizing p with
  | nil =>
    have hnil : s.identities.drop s.depth = [] := by simp [identities, depth]
    rw [show s.run [] = s from rfl, hnil] at h
    cases h
  | append_singleton steps a ih =>
    have hle : s.nextId ≤ (s.run steps).nextId := by
      rw [nextId_run]
      omega
    rw [run_concat] at h
    obtain ⟨-, hids, -⟩ | ⟨-, -, hids | ⟨-, hids⟩⟩ := (s.run steps).identities_step a
    · rw [hids, List.drop_append] at h
      obtain h | h := List.mem_append.mp h
      · exact ih h
      · cases List.mem_singleton.mp (List.mem_of_mem_drop h)
        exact hle
    · rw [hids] at h
      exact ih h
    · rw [hids] at h
      exact ih (((List.dropLast_prefix _).drop _).subset h)

theorem current_mem_opened {s : ScopeStack} (hs : s.Nested) {steps : List Step}
    (h : s.depth < (s.run steps).depth) : (s.run steps).current.id ∈ s.opened steps := by
  have hmem : ((s.run steps).current.id, (s.run steps).current.parent) ∈
      (s.run steps).identities.drop s.depth := by
    rw [depth_eq (s.run steps)] at h
    rw [identities_eq, List.drop_append_of_le_length (by simpa using Nat.le_of_lt_succ h)]
    simp
  have hlt := (hs.run steps).current_lt
  rw [nextId_run] at hlt
  rw [opened_eq_range', List.mem_range'_1]
  exact ⟨nextId_le_of_mem_drop hmem, hlt⟩

/-! ## Runs inside a scope -/

/-- After the run, look-ups find the last symbol of a name that was declared in the innermost scope since
the step of the run that opened it. -/
def SeesOwn (s : ScopeStack) (steps : List Step) : Prop :=
  ∃ before after, steps = before ++ .push :: after ∧
    (s.run before).push.1 = (s.run steps).current.id ∧
    ∀ name,
      (s.run steps).lookup name =
          Symbol.lastNamed? ((s.run before).push.2.declaredIn (s.run steps).current.id after) name ∧
        (s.run steps).numType? name =
          (Symbol.lastNamed? ((s.run before).push.2.declaredIn (s.run steps).current.id after) name).bind
            (·.numType?)

theorem Reachable.seesOwn {s : ScopeStack} (hs : s.Reachable) {steps : List Step}
    (h : s.depth < (s.run steps).depth) : s.SeesOwn steps := by
  obtain ⟨before, after, rfl, hid⟩ := exists_push_of_mem_opened (current_mem_opened hs.nested h)
  obtain ⟨history, rfl⟩ := hs
  have hrun : (run {} history).run (before ++ .push :: after) =
      run {} (history ++ before ++ .push :: after) := by simp only [run_append]
  have hbefore : (run {} history).run before = run {} (history ++ before) := (run_append ..).symm
  rw [SeesOwn, hrun]
  refine ⟨before, after, rfl, hrun ▸ hid, ?_⟩
  rw [hrun, hbefore] at hid
  have hsymbols := symbols_since_push (current_mem _) hid.symm
  intro name
  rw [lookup, numType?, hsymbols, SymbolTable.numType?, SymbolTable.get?_insertAll, hbefore]
  exact ⟨rfl, rfl⟩

structure Alike (s s' : ScopeStack) : Prop where
  lookup : ∀ name, s'.lookup name = s.lookup name
  numType? : ∀ name, s'.numType? name = s.numType? name
  root : s'.root = s.root
  current : s'.current = s.current

/-- A run that opens a scope and stays inside it keeps the scopes that were open before and sees none of
their names. The step that closes the scope brings back all but the counter. -/
theorem outer_scopes_undisturbed {s : ScopeStack} (hs : s.Reachable) {steps : List Step}
    (hin : StaysAbove s.depth s.push.2 steps) :
    (∀ part, part <+: steps →
        (s.run (.push :: part)).toList.take s.depth = s.toList ∧ s.SeesOwn (.push :: part)) ∧
      ∀ last, (s.run (.push :: steps ++ [last])).depth = s.depth →
        s.run (.push :: steps ++ [last]) =
            { s with nextId := (s.run (.push :: steps ++ [last])).nextId } ∧
          Alike s (s.run (.push :: steps ++ [last])) := by
  have hpush : s.toList <+: s.push.2.toList := s.toList_push ▸ List.prefix_append ..
  refine ⟨?_, ?_⟩
  · intro part hpart
    have hinside : StaysAbove s.depth s.push.2 part := fun p hp => hin p (hp.trans hpart)
    refine ⟨?_, hs.seesOwn (hin part hpart)⟩
    exact (List.prefix_iff_eq_take.mp (toList_prefix_run hpush hinside)).symm
  · intro last hdepth
    have hbelow : s.toList <+: (s.run (.push :: steps ++ [last])).toList := by
      rw [run_concat]
      exact toList_prefix_step (toList_prefix_run hpush hin) (hin steps (List.prefix_refl _)) last
    have hsame := eq_of_toList_eq (hbelow.eq_of_length hdepth.symm)
    refine ⟨hsame, ?_⟩
    rw [hsame]
    exact ⟨fun _ => rfl, fun _ => rfl, rfl, rfl⟩

/-! ### The same names inside and outside -/

def outside : List Step :=
  [.declare ⟨['x'], .num .float⟩, .push, .declare ⟨['y'], .num .int⟩]

def inside : List Step :=
  [.declare ⟨['y'], .num .float⟩, .push, .declare ⟨['x'], .str ['"', '"']⟩, .pop,
    .declare ⟨['y'], .str ['"', '"']⟩]

theorem outer_scopes_shadowed :
    StaysAbove (run {} outside).depth (run {} outside).push.2 inside ∧
      (run {} outside).SeesOwn (.push :: inside) ∧
      (run {} outside).run (.push :: inside ++ [.pop]) = { run {} outside with nextId := 4 } := by
  have hin : StaysAbove (run {} outside).depth (run {} outside).push.2 inside := by decide
  obtain ⟨hparts, hback⟩ := outer_scopes_undisturbed ⟨outside, rfl⟩ hin
  exact ⟨hin, (hparts inside (List.prefix_refl _)).2, (hback .pop (by decide)).1⟩

end StraightLine.ScopeStack
