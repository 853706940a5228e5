import StraightLine.Proofs.Registers
import Mathlib.Data.List.Perm.Basic

/-!
# Blocks of emitted code

The code of a program is one block for each of its records. A block is known by the position of its
record in the program, wherever the layout puts it, and the blocks of assignments take the registers
one after the other.
-/

namespace StraightLine

open Tiny (Register Registers)

/-! ## The layout by positions -/

def Order.layout : Order → List Record → List (Record × Nat)
  | .program, records => records.zipIdx
  | .grouped, records => Group.all.flatMap fun g => records.zipIdx.filter (·.1.group = g)

namespace Order

theorem map_fst_layout (order : Order) (records : List Record) :
    (order.layout records).map Prod.fst = order.arrange records := by
  cases order with
  | program => exact List.zipIdx_map_fst ..
  | grouped =>
    rw [layout, arrange, List.map_flatMap]
    apply List.flatMap_congr
    intro g _
    conv_rhs => rw [← List.zipIdx_map_fst 0 records, List.filter_map]
    rfl

theorem mem_layout {order : Order} {records : List Record} {x : Record × Nat} :
    x ∈ order.layout records ↔ x ∈ records.zipIdx := by
  cases order with
  | program => rfl
  | grouped =>
    simp only [layout, List.mem_flatMap, List.mem_filter, decide_eq_true_eq]
    exact ⟨fun ⟨_, _, h, _⟩ => h, fun h => ⟨x.1.group, x.1.group_mem_all, h, rfl⟩⟩

theorem pairwise_zipIdx (records : List Record) : records.zipIdx.Pairwise fun x y => x.2 < y.2 := by
  have h : (records.zipIdx.map Prod.snd).Pairwise (· < ·) := by
    rw [List.zipIdx_map_snd]
    exact List.pairwise_lt_range'
  exact List.pairwise_map.mp h

/-- The grouped layout goes by rank, and within a rank by the program. -/
theorem pairwise_layout (records : List Record) :
    (Order.grouped.layout records).Pairwise fun x y =>
      x.1.rank < y.1.rank ∨ x.1.rank = y.1.rank ∧ x.2 < y.2 := by
  have hrank : ∀ {g : Group} {x : Record × Nat},
      x ∈ records.zipIdx.filter (·.1.group = g) → x.1.rank = Group.all.idxOf g := by
    intro g x hx
    rw [x.1.rank_eq, of_decide_eq_true (List.mem_filter.mp hx).2]
  rw [layout, List.pairwise_flatMap]
  constructor
  · intro g _
    apply ((pairwise_zipIdx records).filter _).imp_of_mem
    intro x y hx hy hlt
    exact .inr ⟨(hrank hx).trans (hrank hy).symm, hlt⟩
  · have hgroups : Group.all.Pairwise fun g g' => Group.all.idxOf g < Group.all.idxOf g' := by decide
    apply hgroups.imp
    intro g g' hlt x hx y hy
    rw [hrank hx, hrank hy]
    exact .inl hlt

theorem nodup_zipIdx (records : List Record) : records.zipIdx.Nodup := by
  apply (pairwise_zipIdx records).imp
  intro x y hlt e
  rw [e] at hlt
  exact Nat.lt_irrefl _ hlt

theorem nodup_layout (order : Order) (records : List Record) : (order.layout records).Nodup := by
  cases order with
  | program => exact nodup_zipIdx records
  | grouped =>
    apply (pairwise_layout records).imp
    intro x y h e
    rw [e] at h
    omega

theorem layout_perm (order : Order) (records : List Record) :
    (order.layout records).Perm records.zipIdx :=
  (List.perm_ext_iff_of_nodup (order.nodup_layout records) (nodup_zipIdx records)).mpr
    fun _ => mem_layout

end Order

/-! ## Blocks -/

/-- A block has its record's position in the program, and the first register that was not taken when its
turn came, which an assignment takes. -/
structure Block where
  position : Nat
  record : Record
  register : Register
  deriving DecidableEq, Repr

namespace Block

def code (b : Block) : List Tiny.Instr := b.record.code b.register

def register? (b : Block) : Option Register :=
  if b.record.needsRegister then some b.register else none

def layOut (rs : Registers) : List (Record × Nat) → List Block
  | [] => []
  | (r, k) :: rest => ⟨k, r, rs.register rs.taken⟩ :: layOut (rs.after r) rest

theorem map_layOut (rs : Registers) (layout : List (Record × Nat)) :
    (layOut rs layout).map (fun b => (b.record, b.position)) = layout := by
  induction layout generalizing rs with
  | nil => rfl
  | cons x layout ih => rw [layOut, List.map_cons, ih]

theorem code_layOut {layout : List (Record × Nat)} {rs rs' : Registers} {code : List Tiny.Instr}
    (h : Record.emitAll rs (layout.map Prod.fst) = .ok (code, rs')) :
    code = (layOut rs layout).flatMap Block.code := by
  induction layout generalizing rs code with
  | nil => cases h; rfl
  | cons x layout ih =>
    obtain ⟨block, rs₁, code₁, hblock, hcode, rfl⟩ := Record.emitAll_cons_ok h
    obtain ⟨rfl, rfl⟩ := Record.eq_of_emit hblock
    rw [layOut, List.flatMap_cons, ← ih hcode]
    rfl

theorem register_after (rs : Registers) (r : Record) : (rs.after r).register = rs.register := by
  unfold Registers.after
  split <;> rfl

theorem registers_layOut (rs : Registers) (layout : List (Record × Nat)) :
    (layOut rs layout).filterMap register? =
      (List.range' rs.taken (layout.countP (·.1.needsRegister))).map rs.register := by
  induction layout generalizing rs with
  | nil => rfl
  | cons x layout ih =>
    rw [layOut, List.filterMap_cons, ih, register_after, register?]
    by_cases hx : x.1.needsRegister = true
    · simp [hx, Registers.after, Registers.take, List.range'_succ]
    · simp [hx, Registers.after]

end Block

/-! ## Blocks of a program -/

def Recording.blocks (m : Recording) (options : Options) : List Block :=
  Block.layOut { stem := options.registerStem } (options.order.layout m.records)

namespace Recording

variable (m : Recording) (options : Options)

theorem map_blocks :
    (m.blocks options).map (fun b => (b.record, b.position)) = options.order.layout m.records :=
  Block.map_layOut ..

theorem position_blocks :
    (m.blocks options).map (·.position) = (options.order.layout m.records).map Prod.snd := by
  rw [← m.map_blocks options, List.map_map]
  rfl

theorem position_blocks_perm :
    ((m.blocks options).map (·.position)).Perm (List.range m.records.length) := by
  rw [position_blocks, List.range_eq_range', ← List.zipIdx_map_snd]
  exact (options.order.layout_perm m.records).map _

theorem registers_blocks :
    (m.blocks options).filterMap Block.register? =
      (List.range m.registerDemand).map (Registers.register { stem := options.registerStem }) := by
  have hcount : (options.order.layout m.records).countP (·.1.needsRegister) = m.registerDemand := by
    rw [(options.order.layout_perm m.records).countP_eq, registerDemand]
    conv_rhs => rw [← List.zipIdx_map_fst 0 m.records, List.countP_map]
    rfl
  rw [blocks, Block.registers_layOut, hcount, List.range_eq_range']

variable {m options}

theorem mem_blocks_of_getElem? {k : Nat} {r : Record} (h : m.records[k]? = some r) :
    ∃ b ∈ m.blocks options, b.position = k ∧ b.record = r := by
  have hmem : (r, k) ∈ options.order.layout m.records :=
    Order.mem_layout.mpr (List.mem_zipIdx_iff_getElem?.mpr h)
  rw [← m.map_blocks options] at hmem
  obtain ⟨b, hb, heq⟩ := List.mem_map.mp hmem
  cases heq
  exact ⟨b, hb, rfl, rfl⟩

theorem code_of_emit {globals : SymbolTable} {e : Emission} (h : m.emit options globals = .ok e) :
    e.code = globals.symbols.map Symbol.declaration ++ (m.blocks options).flatMap Block.code ++
      [.halt] := by
  obtain ⟨blocks, rs, hall, he⟩ := exists_emitAll_of_emit h
  rw [← Order.map_fst_layout] at hall
  rw [he, Block.code_layOut hall]
  rfl

end Recording

theorem Context.code_of_emission {c : Context} {program : List Construct} {e : Emission}
    (h : (c.compile program).emission = .ok e) :
    e.code = (c.compile program).context.scopes.root.symbols.symbols.map Symbol.declaration ++
      ((c.compile program).recording.blocks c.options).flatMap Block.code ++ [.halt] := by
  have hemit : (c.compile program).recording.emit (c.compile program).context.options
      (c.compile program).context.scopes.root.symbols = .ok e := h
  rw [options_compile] at hemit
  exact Recording.code_of_emit hemit

end StraightLine
