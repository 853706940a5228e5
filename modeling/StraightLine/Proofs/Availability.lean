import StraightLine.Proofs.Blocks

/-!
# Values read before they are used

The grouped layout has every read before every operation, so what is read is there for the operations
that use it. An assignment without an operator is laid out with the constants, before all reads, also
where its value is a variable that is read.
-/

namespace StraightLine

/-! ## Reads and uses in a program -/

def Assignment.sources : Assignment → List Text
  | ⟨_, .value w⟩ => [w]
  | ⟨_, .binary b⟩ => b.operands

/-- A read of `v` stands before an assignment that uses it; `i` and `j` are the positions of their
records. -/
inductive Construct.ReadThenUsed (policy : Policy) :
    List Construct → Text → Nat → Assignment → Nat → Prop
  | intro {before middle after : List Construct} {names text v : Text} {es es' : List Text}
      {a : Assignment} (hentries : Text.entries names = es ++ v :: es')
      (hparse : Assignment.parse policy text = .ok a) (huse : v ∈ a.sources) :
      ReadThenUsed policy (before ++ .read names :: middle ++ .assign text :: after) v
        ((before.flatMap (·.records policy)).length + es.length) a
        ((before ++ .read names :: middle).flatMap (·.records policy)).length

namespace Construct.ReadThenUsed

variable {policy : Policy} {program : List Construct} {v : Text} {i j : Nat} {a : Assignment}

theorem getElem?_read (h : ReadThenUsed policy program v i a j) :
    (program.flatMap (·.records policy))[i]? = some (.read v) := by
  obtain ⟨hentries, _, _⟩ := h
  simp [records, hentries]

theorem getElem?_assign (h : ReadThenUsed policy program v i a j) :
    (program.flatMap (·.records policy))[j]? = some a.record := by
  obtain ⟨_, hparse, _⟩ := h
  rw [List.flatMap_append, List.getElem?_append_right (Nat.le_refl _), Nat.sub_self,
    List.flatMap_cons, records, hparse]
  rfl

end Construct.ReadThenUsed

/-! ## The order of blocks -/

def Block.Precedes (blocks : List Block) (i j : Nat) : Prop :=
  [i, j].Sublist (blocks.map (·.position))

instance (blocks : List Block) (i j : Nat) : Decidable (Block.Precedes blocks i j) :=
  inferInstanceAs (Decidable (List.Sublist _ _))

theorem sublist_of_pairwise {α : Type} {R : α → α → Prop} {l : List α} (h : l.Pairwise R) {x y : α}
    (hx : x ∈ l) (hy : y ∈ l) (hne : x ≠ y) (hyx : ¬ R y x) : [x, y].Sublist l := by
  induction l with
  | nil => cases hx
  | cons z l ih =>
    obtain ⟨hz, hl⟩ := List.pairwise_cons.mp h
    rcases List.mem_cons.mp hx with rfl | hxl
    · rcases List.mem_cons.mp hy with rfl | hyl
      · exact absurd rfl hne
      · exact (List.singleton_sublist.mpr hyl).cons_cons x
    · rcases List.mem_cons.mp hy with rfl | hyl
      · exact absurd (hz x hxl) hyx
      · exact (ih hl hxl hyl).cons z

theorem Recording.precedes_of_rank_lt {m : Recording} {options : Options}
    (hgrouped : options.order = .grouped) {i j : Nat} {r q : Record} (hi : m.records[i]? = some r)
    (hj : m.records[j]? = some q) (hrank : r.rank < q.rank) :
    Block.Precedes (m.blocks options) i j := by
  have hmem : ∀ {k : Nat} {r : Record}, m.records[k]? = some r →
      (r, k) ∈ Order.grouped.layout m.records := by
    intro k r hk
    exact Order.mem_layout.mpr (List.mem_zipIdx_iff_getElem?.mpr hk)
  have hne : (r, i) ≠ (q, j) := by
    intro e
    cases e
    exact Nat.lt_irrefl _ hrank
  have hsub := sublist_of_pairwise (Order.pairwise_layout m.records) (hmem hi) (hmem hj) hne
    (by simp only; omega)
  rw [Block.Precedes, m.position_blocks, hgrouped]
  exact hsub.map Prod.snd

/-! ## Availability -/

namespace Context

/-- In the grouped layout a value that is read is there for every operation that uses it, but not for an
assignment that only copies it. -/
theorem reads_before_operations {c : Context} {program : List Construct} {e : Emission}
    (hgrouped : c.options.order = .grouped) (h : (c.compile program).emission = .ok e) :
    e.code = (c.compile program).context.scopes.root.symbols.symbols.map Symbol.declaration ++
        ((c.compile program).recording.blocks c.options).flatMap Block.code ++ [.halt] ∧
      (((c.compile program).recording.blocks c.options).map (·.position)).Perm
        (List.range (c.compile program).recording.records.length) ∧
      ∀ v i a j, Construct.ReadThenUsed c.options.policy program v i a j →
        (∃ b ∈ (c.compile program).recording.blocks c.options,
          b.position = i ∧ b.code = [.readInt v]) ∧
        (∃ b ∈ (c.compile program).recording.blocks c.options,
          b.position = j ∧ b.record = a.record) ∧
        (∀ target b, a = ⟨target, .binary b⟩ →
          Block.Precedes ((c.compile program).recording.blocks c.options) i j) ∧
        ∀ target w, a = ⟨target, .value w⟩ →
          Block.Precedes ((c.compile program).recording.blocks c.options) j i := by
  refine ⟨code_of_emission h, Recording.position_blocks_perm .., ?_⟩
  intro v i a j hused
  have hread := hused.getElem?_read
  have hassign := hused.getElem?_assign
  rw [← c.records_compile] at hread hassign
  obtain ⟨b, hb, hposition, hrecord⟩ : ∃ b ∈ (c.compile program).recording.blocks c.options,
      b.position = i ∧ b.record = .read v := Recording.mem_blocks_of_getElem? hread
  refine ⟨⟨b, hb, hposition, ?_⟩, Recording.mem_blocks_of_getElem? hassign, ?_, ?_⟩
  · rw [Block.code, hrecord]
    rfl
  · intro target b ha
    subst ha
    apply Recording.precedes_of_rank_lt hgrouped hread hassign
    obtain ⟨op, _, _, _⟩ := b
    cases op <;> simp [Assignment.record, Record.rank]
  · intro target w ha
    subst ha
    apply Recording.precedes_of_rank_lt hgrouped hassign hread
    simp [Assignment.record, Record.rank]

def copiedAndAdded : List Construct :=
  [.var "INT".toList "a, b, c".toList, .read "a".toList, .assign "b := a".toList,
    .assign "c := a + 1".toList, .write "b, c".toList]

theorem copiedAndAdded_copied :
    Construct.ReadThenUsed .legacy copiedAndAdded ['a'] 0 ⟨['b'], .value ['a']⟩ 1 :=
  @Construct.ReadThenUsed.intro .legacy [.var "INT".toList "a, b, c".toList] []
    [.assign "c := a + 1".toList, .write "b, c".toList] "a".toList "b := a".toList ['a'] [] []
    ⟨['b'], .value ['a']⟩ rfl rfl (by simp [Assignment.sources])

theorem copiedAndAdded_added :
    Construct.ReadThenUsed .legacy copiedAndAdded ['a'] 0
      ⟨['c'], .binary ⟨.add, ['a'], ['1'], [['a'], ['1']]⟩⟩ 2 :=
  @Construct.ReadThenUsed.intro .legacy [.var "INT".toList "a, b, c".toList]
    [.assign "b := a".toList] [.write "b, c".toList] "a".toList "c := a + 1".toList ['a'] [] []
    ⟨['c'], .binary ⟨.add, ['a'], ['1'], [['a'], ['1']]⟩⟩ rfl rfl (by simp [Assignment.sources])

theorem reads_before_sum :
    ∃ e, (compile {} copiedAndAdded).emission = .ok e ∧
      Block.Precedes ((compile {} copiedAndAdded).recording.blocks {}) 0 2 ∧
      Block.Precedes ((compile {} copiedAndAdded).recording.blocks {}) 1 0 := by
  obtain ⟨e, he⟩ : ∃ e, (compile {} copiedAndAdded).emission = .ok e := ⟨_, rfl⟩
  obtain ⟨-, -, hblocks⟩ := reads_before_operations rfl he
  exact ⟨e, he, (hblocks _ _ _ _ copiedAndAdded_added).2.2.1 _ _ rfl,
    (hblocks _ _ _ _ copiedAndAdded_copied).2.2.2 _ _ rfl⟩

theorem copy_before_read :
    ∃ e, (compile {} copiedAndAdded).emission = .ok e ∧
      e.code = [.var ['a'], .var ['b'], .var ['c'], .move ['a'] "r0".toList, .move "r0".toList ['b'],
        .readInt ['a'], .move ['a'] "r1".toList, .arith .add ['1'] ⟨1, "r1".toList⟩,
        .move "r1".toList ['c'], .writeInt ['b'], .writeInt ['c'], .halt] ∧
      ¬ ∀ v i a j, Construct.ReadThenUsed .legacy copiedAndAdded v i a j →
        Block.Precedes ((compile {} copiedAndAdded).recording.blocks {}) i j := by
  refine ⟨_, rfl, by decide, ?_⟩
  intro hall
  exact absurd (hall _ _ _ _ copiedAndAdded_copied) (by decide)

end Context

end StraightLine
