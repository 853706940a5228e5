import StraightLine.Proofs.Blocks

/-!
# Registers and the names of a program

Registers are named by a stem and a number and are not kept apart from the names of a program. They are
apart exactly when no name of the program is the stem with the number of a register that is handed out;
then a block changes no variable but the one that its record stores into.
-/

namespace StraightLine

open Tiny

variable {V : Type}

/-! ## What code changes -/

namespace Tiny

def Instr.written? : Instr → Option Text
  | move _ dest => some dest
  | arith _ _ reg => some reg.name
  | readInt name => some name
  | var _ | str _ _ | writeInt _ | writeNewline | halt => none

theorem Instr.memory_step {A : Arithmetic V} {i : Instr} {s s' : State V} {x : Text}
    (hx : i.written? ≠ some x) (h : i.step A s = some s') : s'.memory x = s.memory x := by
  have hset : ∀ {t : State V} {name : Text} (v : V), i.written? = some name →
      (t.set name v).memory x = t.memory x := by
    intro t name v hname
    apply t.memory_set_of_ne
    intro e
    exact hx (e ▸ hname)
  cases i with
  | move src dest => cases h; exact hset _ rfl
  | arith op operand reg => cases h; exact hset _ rfl
  | readInt name =>
    simp only [step] at h
    split at h
    · cases h
    · cases h; exact hset _ rfl
  | _ => cases h; rfl

theorem memory_run {A : Arithmetic V} {code : List Instr} {s s' : State V} {x : Text}
    (hx : ∀ i ∈ code, i.written? ≠ some x) (h : run A s code = some s') :
    s'.memory x = s.memory x := by
  induction code generalizing s with
  | nil => cases h; rfl
  | cons i code ih =>
    by_cases hi : i = .halt
    · subst hi
      cases h
      rfl
    · rw [run] at h
      · obtain ⟨t, hstep, hrun⟩ := Option.bind_eq_some_iff.mp h
        rw [ih (fun j hj => hx j (by simp [hj])) hrun, Instr.memory_step (hx i (by simp)) hstep]
      · exact hi

end Tiny

theorem Record.written?_of_mem_code {r : Record} {reg : Register} {i : Instr} (h : i ∈ r.code reg)
    {x : Text} (hx : i.written? = some x) :
    r.needsRegister = true ∧ x = reg.name ∨ r.written? = some x := by
  unfold code at h
  split at h
  · simp only [List.mem_cons, List.not_mem_nil, or_false] at h
    rcases h with rfl | rfl
    · cases hx; exact .inl ⟨rfl, rfl⟩
    · exact .inr hx
  · rename_i op lhs rhs target
    simp only [List.mem_cons, List.not_mem_nil, or_false] at h
    rcases h with rfl | rfl | rfl
    · cases hx; exact .inl ⟨rfl, rfl⟩
    · cases hx; exact .inl ⟨rfl, rfl⟩
    · refine .inr ?_
      cases op <;> exact hx
  · cases h
  · rw [List.mem_singleton.mp h] at hx
    exact .inr hx
  · rw [List.mem_singleton.mp h] at hx
    cases hx
  · rw [List.mem_singleton.mp h] at hx
    cases hx

theorem Block.memory_run {A : Arithmetic V} {b : Block} {s s' : State V} {x : Text}
    (hreg : ∀ r ∈ b.register?, x ≠ r.name) (hx : x ∉ b.record.written?)
    (h : run A s b.code = some s') : s'.memory x = s.memory x := by
  refine Tiny.memory_run (fun i hi hwritten => ?_) h
  rcases Record.written?_of_mem_code hi hwritten with ⟨hneeds, hname⟩ | hrecord
  · exact hreg b.register (by simp [register?, hneeds]) hname
  · exact hx hrecord

/-! ## Fresh registers -/

namespace Compilation

def names (c : Compilation) : List Text :=
  c.context.scopes.root.symbols.names ++ c.recording.records.flatMap (·.texts)

/-- No register that is handed out has a name of the program, and no block changes a name of the program
that its record does not store into. -/
def RegistersFresh (c : Compilation) : Prop :=
  ∀ b ∈ c.recording.blocks c.context.options,
    (∀ r ∈ b.register?, r.name ∉ c.names) ∧
      ∀ {V : Type} (A : Arithmetic V) (s s' : State V), run A s b.code = some s' →
        ∀ x ∈ c.names, x ∉ b.record.written? → s'.memory x = s.memory x

end Compilation

namespace Context

theorem register_names {c : Context} {program : List Construct} {e : Emission}
    (h : (c.compile program).emission = .ok e) :
    (((c.compile program).recording.blocks c.options).filterMap Block.register?).map (·.name) =
      (List.range e.registers).map (c.options.registerStem ++ Text.numeral ·) := by
  rw [Recording.registers_blocks, registers_of_emission h, List.map_map]
  rfl

theorem exists_register_iff {c : Context} {program : List Construct} {e : Emission}
    (h : (c.compile program).emission = .ok e) {x : Text} :
    (∃ b ∈ (c.compile program).recording.blocks c.options, ∃ r ∈ b.register?, r.name = x) ↔
      ∃ k < e.registers, c.options.registerStem ++ Text.numeral k = x := by
  have hnumber : x ∈ (List.range e.registers).map (c.options.registerStem ++ Text.numeral ·) ↔
      ∃ k < e.registers, c.options.registerStem ++ Text.numeral k = x := by simp
  rw [← hnumber, ← register_names h]
  constructor
  · intro ⟨b, hb, r, hr, hname⟩
    exact List.mem_map.mpr ⟨r, List.mem_filterMap.mpr ⟨b, hb, hr⟩, hname⟩
  · intro hx
    obtain ⟨r, hr, hname⟩ := List.mem_map.mp hx
    obtain ⟨b, hb, hr⟩ := List.mem_filterMap.mp hr
    exact ⟨b, hb, r, hr, hname⟩

/-- The registers of a program are numbered from zero, and they are fresh exactly when no name of the
program is the stem with one of these numbers. -/
theorem registersFresh_iff (c : Context) (program : List Construct) {e : Emission}
    (h : (c.compile program).emission = .ok e) :
    e.code = (c.compile program).context.scopes.root.symbols.symbols.map Symbol.declaration ++
        ((c.compile program).recording.blocks c.options).flatMap Block.code ++ [.halt] ∧
      (((c.compile program).recording.blocks c.options).filterMap Block.register?).map (·.name) =
        (List.range e.registers).map (c.options.registerStem ++ Text.numeral ·) ∧
      ((c.compile program).RegistersFresh ↔
        ∀ x ∈ (c.compile program).names, ∀ k < e.registers,
          x ≠ c.options.registerStem ++ Text.numeral k) := by
  refine ⟨code_of_emission h, register_names h, ?_⟩
  unfold Compilation.RegistersFresh
  rw [options_compile]
  constructor
  · intro hfresh x hx k hk e
    obtain ⟨b, hb, r, hr, hname⟩ := (exists_register_iff h).mpr ⟨k, hk, e.symm⟩
    exact (hfresh b hb).1 r hr (hname ▸ hx)
  · intro hapart b hb
    have hreg : ∀ x ∈ (c.compile program).names, ∀ r ∈ b.register?, x ≠ r.name := by
      intro x hx r hr e
      obtain ⟨k, hk, hname⟩ := (exists_register_iff h).mp ⟨b, hb, r, hr, e.symm⟩
      exact hapart x hx k hk hname.symm
    refine ⟨fun r hr hmem => hreg _ hmem r hr rfl, ?_⟩
    intro V A s s' hrun x hx hwritten
    exact Block.memory_run (hreg x hx) hwritten hrun

/-- The second register would have the name of the variable, but only one is handed out. -/
def nearMiss : List Construct := [.var "INT".toList "r1, x".toList, .assign "x := r1 + 2".toList]

theorem registersFresh_nearMiss :
    ∃ e, (compile {} nearMiss).emission = .ok e ∧ e.registers = 1 ∧
      (∀ x ∈ (compile {} nearMiss).names, ∀ k < e.registers, x ≠ "r".toList ++ Text.numeral k) ∧
      (compile {} nearMiss).RegistersFresh := by
  obtain ⟨e, he, hregs⟩ : ∃ e, (compile {} nearMiss).emission = .ok e ∧ e.registers = 1 :=
    ⟨_, rfl, rfl⟩
  have hapart : ∀ x ∈ (compile {} nearMiss).names, ∀ k < e.registers,
      x ≠ "r".toList ++ Text.numeral k := by
    rw [hregs]
    decide
  exact ⟨e, he, hregs, hapart, (registersFresh_iff {} nearMiss he).2.2.mpr hapart⟩

def sameName : List Construct :=
  [.var "INT".toList "r0, x".toList, .read "r0".toList, .assign "x := 1 + 2".toList,
    .write "r0".toList]

theorem not_registersFresh_sameName :
    ∃ e, (compile {} sameName).emission = .ok e ∧ ¬ (compile {} sameName).RegistersFresh ∧
      (run Arithmetic.decimal { memory := fun _ => 0, input := [5] } e.code).map (·.output) =
        some [.value 3] := by
  refine ⟨_, rfl, ?_, by decide⟩
  intro hfresh
  have hblock : ⟨1, .arith .add [['1'], ['2']] ['x'], ⟨0, ['r', '0']⟩⟩ ∈
      (compile {} sameName).recording.blocks (compile {} sameName).context.options := by decide
  exact (hfresh _ hblock).1 ⟨0, ['r', '0']⟩ rfl (by decide)

end Context

end StraightLine
