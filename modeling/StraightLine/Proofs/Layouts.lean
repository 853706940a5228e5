import StraightLine.Proofs.RecordMeaning

/-!
# The two layouts of a program

The grouped layout moves a record in front of earlier ones of a higher rank and changes no other order.
Where all such pairs are independent, records that change places can be swapped one by one, so both
layouts do the same.
-/

namespace StraightLine

open Tiny

variable {V : Type}

namespace Record

def rank : Record → Nat
  | move _ _ => 0
  | read _ => 1
  | arith .sub _ _ => 2
  | arith .mul _ _ => 3
  | arith .add _ _ => 4
  | arith .div _ _ => 5
  | write _ | writeNewline => 6

def reads : Record → List Text
  | move value _ => [value]
  | arith _ operands _ => operands
  | write var => [var]
  | read _ | writeNewline => []

def written? : Record → Option Text
  | move _ target => some target
  | arith .div operands _ => operands[1]?
  | arith _ _ target => some target
  | read var => some var
  | write _ | writeNewline => none

def Independent (a b : Record) : Prop :=
  (∀ x ∈ a.written?, x ∉ b.reads ∧ x ∉ b.written?) ∧
    ∀ x ∈ b.written?, x ∉ a.reads ∧ x ∉ a.written?

instance (a b : Record) : Decidable (a.Independent b) := inferInstanceAs (Decidable (_ ∧ _))

theorem Independent.symm {a b : Record} (h : a.Independent b) : b.Independent a := ⟨h.2, h.1⟩

/-! ## What a record depends on -/

def DependsOn {α : Type} (xs : List Text) (f : State V → α) : Prop :=
  ∀ s t : State V, (∀ x ∈ xs, s.memory x = t.memory x) → f s = f t

theorem dependsOn_get (A : Arithmetic V) {xs : List Text} {source : Text} (h : source ∈ xs) :
    DependsOn xs (State.get A · source) := by
  intro s t hst
  simp only [State.get, hst source h]

section
variable {α : Type} {xs : List Text} {f : State V → α}

theorem DependsOn.set (h : DependsOn xs f) {name : Text} (hname : name ∉ xs) (s : State V) (v : V) :
    f (s.set name v) = f s := by
  apply h
  intro x hx
  exact State.memory_set_of_ne s (by rintro rfl; exact hname hx) v

theorem DependsOn.print (h : DependsOn xs f) (s : State V) (o : Output V) : f (s.print o) = f s :=
  h _ _ fun _ _ => rfl

theorem DependsOn.input (h : DependsOn xs f) (s : State V) (input : List V) :
    f { s with input } = f s :=
  h _ _ fun _ _ => rfl

end

/-- A record that has code sets a name to a value of its operands, takes a name's value from the input,
or prints what depends on its operands. -/
inductive Acts (A : Arithmetic V) (r : Record) : Prop
  | sets (x : Text) (f : State V → V) (hx : r.written? = some x) (hf : DependsOn r.reads f)
      (h : ∀ s, r.exec A s = some (s.set x (f s)))
  | receives (x : Text) (hx : r.written? = some x) (hr : r.rank = 1)
      (h : ∀ s, r.exec A s = s.receive? x)
  | prints (o : State V → Output V) (hr : r.rank = 6) (ho : DependsOn r.reads o)
      (h : ∀ s, r.exec A s = some (s.print (o s)))

theorem acts (A : Arithmetic V) {r : Record} (h : r.check = .ok ()) : Acts A r := by
  cases r with
  | move value target =>
    exact .sets target (State.get A · value) rfl (dependsOn_get A (by simp [reads])) fun _ => rfl
  | arith op operands target =>
    match operands, h with
    | [lhs, rhs], _ =>
      have hl := dependsOn_get A (show lhs ∈ [lhs, rhs] by simp)
      have hr := dependsOn_get A (show rhs ∈ [lhs, rhs] by simp)
      refine .sets (if op = .div then rhs else target)
        (fun s => A.apply op (s.get A lhs) (s.get A rhs)) ?_ ?_ fun _ => rfl
      · cases op <;> rfl
      · intro s t hst
        exact congrArg₂ (A.apply op) (hl s t hst) (hr s t hst)
    | [], h => cases h
    | [_], h => cases h
    | _ :: _ :: _ :: _, h => cases h
  | read var => exact .receives var rfl rfl fun _ => rfl
  | write var =>
    refine .prints (fun s => .value (s.get A var)) rfl ?_ fun _ => rfl
    intro s t hst
    exact congrArg Output.value (dependsOn_get A (by simp [reads]) s t hst)
  | writeNewline => exact .prints (fun _ => .newline) rfl (fun _ _ _ => rfl) fun _ => rfl

/-! ## Swapping independent records -/

def Commute (A : Arithmetic V) (a b : Record) : Prop :=
  ∀ s : State V, (a.exec A s).bind (b.exec A) = (b.exec A s).bind (a.exec A)

theorem Commute.symm {A : Arithmetic V} {a b : Record} (h : Commute A a b) : Commute A b a :=
  fun s => (h s).symm

section
variable {A : Arithmetic V} {a b : Record} {x y : Text}

theorem commute_sets_sets (hab : a.Independent b) {f g : State V → V} (hx : a.written? = some x)
    (hf : DependsOn a.reads f) (ha : ∀ s, a.exec A s = some (s.set x (f s)))
    (hy : b.written? = some y) (hg : DependsOn b.reads g)
    (hb : ∀ s, b.exec A s = some (s.set y (g s))) : Commute A a b := by
  intro s
  have hxb := hab.1 x hx
  have hya := hab.2 y hy
  have hne : x ≠ y := by rintro rfl; exact hxb.2 hy
  rw [ha, hb, Option.bind_some, Option.bind_some, ha, hb, hg.set hxb.1, hf.set hya.1,
    State.set_comm s hne]

theorem commute_sets_receives (hab : a.Independent b) {f : State V → V} (hx : a.written? = some x)
    (hf : DependsOn a.reads f) (ha : ∀ s, a.exec A s = some (s.set x (f s)))
    (hy : b.written? = some y) (hb : ∀ s, b.exec A s = s.receive? y) : Commute A a b := by
  intro s
  have hya := hab.2 y hy
  have hne : x ≠ y := by rintro rfl; exact hya.2 hx
  rw [ha, hb, Option.bind_some, hb]
  cases hi : s.input with
  | nil => rw [State.receive?_nil hi, State.receive?_nil (s := s.set x (f s)) hi]; rfl
  | cons v input =>
    rw [State.receive?_cons hi, State.receive?_cons (s := s.set x (f s)) hi, Option.bind_some, ha,
      hf.set hya.1, hf.input s input]
    exact congrArg some (State.set_comm { s with input } hne _ _)

theorem commute_sets_prints (hab : a.Independent b) {f : State V → V} {o : State V → Output V}
    (hx : a.written? = some x) (hf : DependsOn a.reads f)
    (ha : ∀ s, a.exec A s = some (s.set x (f s))) (ho : DependsOn b.reads o)
    (hb : ∀ s, b.exec A s = some (s.print (o s))) : Commute A a b := by
  intro s
  rw [ha, hb, Option.bind_some, Option.bind_some, ha, hb, ho.set (hab.1 x hx).1, hf.print]
  rfl

theorem commute_receives_prints (hab : a.Independent b) {o : State V → Output V}
    (hx : a.written? = some x) (ha : ∀ s, a.exec A s = s.receive? x) (ho : DependsOn b.reads o)
    (hb : ∀ s, b.exec A s = some (s.print (o s))) : Commute A a b := by
  intro s
  rw [ha, hb, Option.bind_some, ha]
  cases hi : s.input with
  | nil => rw [State.receive?_nil hi, State.receive?_nil (s := s.print (o s)) hi]; rfl
  | cons v input =>
    rw [State.receive?_cons hi, State.receive?_cons (s := s.print (o s)) hi, Option.bind_some, hb,
      ho.set (hab.1 x hx).1, ho.input]
    rfl

end

theorem commute_of_independent (A : Arithmetic V) {a b : Record} (ha : a.check = .ok ())
    (hb : b.check = .ok ()) (hab : a.Independent b) (hrank : a.rank ≠ b.rank) : Commute A a b := by
  cases acts A ha with
  | sets x f hx hf hea =>
    cases acts A hb with
    | sets y g hy hg heb => exact commute_sets_sets hab hx hf hea hy hg heb
    | receives y hy _ heb => exact commute_sets_receives hab hx hf hea hy heb
    | prints o _ ho heb => exact commute_sets_prints hab hx hf hea ho heb
  | receives x hx hra hea =>
    cases acts A hb with
    | sets y g hy hg heb => exact (commute_sets_receives hab.symm hy hg heb hx hea).symm
    -- Two reads, or two writes below, do not commute, but they have the same rank.
    | receives y _ hrb _ => exact absurd (hra.trans hrb.symm) hrank
    | prints o _ ho heb => exact commute_receives_prints hab hx hea ho heb
  | prints o hra ho hea =>
    cases acts A hb with
    | sets y g hy hg heb => exact (commute_sets_prints hab.symm hy hg heb ho hea).symm
    | receives y hy _ heb => exact (commute_receives_prints hab.symm hy heb ho hea).symm
    | prints _ hrb _ _ => exact absurd (hra.trans hrb.symm) hrank

theorem execAll_move (A : Arithmetic V) {r : Record} {pre : List Record}
    (h : ∀ q ∈ pre, Commute A r q) (post : List Record) (s : State V) :
    execAll A s (r :: (pre ++ post)) = execAll A s (pre ++ r :: post) := by
  induction pre generalizing s with
  | nil => rfl
  | cons q pre ih =>
    have hq : Commute A r q := h q (List.mem_cons_self ..)
    calc execAll A s (r :: (q :: pre ++ post))
        = ((r.exec A s).bind (q.exec A)).bind (execAll A · (pre ++ post)) := by
          rw [List.cons_append, execAll_cons, Option.bind_assoc]; rfl
      _ = (q.exec A s).bind (execAll A · (r :: (pre ++ post))) := by
          rw [hq s, Option.bind_assoc]; rfl
      _ = (q.exec A s).bind (execAll A · (pre ++ r :: post)) := by
          simp only [ih fun p hp => h p (List.mem_cons_of_mem _ hp)]
      _ = execAll A s (q :: pre ++ r :: post) := rfl

end Record

/-! ## The grouped layout as insertions -/

theorem Record.rank_eq (r : Record) : r.rank = Group.all.idxOf r.group := by
  cases r with
  | arith op => cases op <;> rfl
  | _ => rfl

theorem Group.nodup_all : Group.all.Nodup := by decide

/-- A record goes in front of what follows it in the program, but behind the records of lower rank. -/
theorem Order.arrange_grouped_cons (r : Record) (records : List Record) :
    ∃ pre post, Order.grouped.arrange records = pre ++ post ∧
      Order.grouped.arrange (r :: records) = pre ++ r :: post ∧
      ∀ q ∈ pre, q ∈ records ∧ q.rank < r.rank := by
  obtain ⟨before, after, hall⟩ := List.append_of_mem r.group_mem_all
  have hnodup := hall ▸ Group.nodup_all
  have hbefore : ∀ g ∈ before, r.group ≠ g := by
    rintro g hg rfl
    exact (List.nodup_append.mp hnodup).2.2 _ hg _ (List.mem_cons_self ..) rfl
  have hafter : ∀ g ∈ after, r.group ≠ g := by
    rintro g hg rfl
    exact (List.nodup_cons.mp (List.nodup_append.mp hnodup).2.1).1 hg
  have hskip : ∀ gs : List Group, (∀ g ∈ gs, r.group ≠ g) →
      (gs.flatMap fun g => (r :: records).filter (·.group = g)) =
        gs.flatMap fun g => records.filter (·.group = g) := by
    intro gs hgs
    refine List.flatMap_congr fun g hg => ?_
    rw [List.filter_cons_of_neg (by simpa using hgs g hg)]
  refine ⟨before.flatMap fun g => records.filter (·.group = g),
    records.filter (·.group = r.group) ++ after.flatMap fun g => records.filter (·.group = g),
    ?_, ?_, ?_⟩
  · rw [arrange, hall, List.flatMap_append, List.flatMap_cons]
  · rw [arrange, hall, List.flatMap_append, List.flatMap_cons, hskip before hbefore,
      hskip after hafter, List.filter_cons_of_pos (by simp), List.cons_append]
  · intro q hq
    obtain ⟨g, hg, hq⟩ := List.mem_flatMap.mp hq
    obtain ⟨hmem, hgroup⟩ := List.mem_filter.mp hq
    have hqg : q.group ∈ before := by rw [of_decide_eq_true hgroup]; exact hg
    refine ⟨hmem, ?_⟩
    rw [q.rank_eq, r.rank_eq, hall, List.idxOf_append_of_mem hqg,
      List.idxOf_append_of_notMem fun h => hbefore _ h rfl]
    exact Nat.lt_of_lt_of_le (List.idxOf_lt_length_of_mem hqg) (Nat.le_add_right ..)

/-- Where the records that change places are independent, either layout does the same. -/
theorem Record.execAll_arrange (A : Arithmetic V) (order : Order) {records : List Record}
    (hcheck : ∀ r ∈ records, r.check = .ok ())
    (hind : records.Pairwise fun a b => b.rank < a.rank → a.Independent b) (s : State V) :
    execAll A s (order.arrange records) = execAll A s records := by
  cases order with
  | program => rfl
  | grouped =>
    induction records generalizing s with
    | nil => rfl
    | cons r records ih =>
      obtain ⟨hr, hind⟩ := List.pairwise_cons.mp hind
      have hcheck' : ∀ q ∈ records, q.check = .ok () := fun q hq => hcheck q (List.mem_cons_of_mem _ hq)
      obtain ⟨pre, post, hsplit, hcons, hpre⟩ := Order.arrange_grouped_cons r records
      have hcomm : ∀ q ∈ pre, Commute A r q := by
        intro q hq
        obtain ⟨hmem, hlt⟩ := hpre q hq
        exact commute_of_independent A (hcheck r (List.mem_cons_self ..)) (hcheck' q hmem)
          (hr q hmem hlt) (Nat.ne_of_gt hlt)
      rw [hcons, ← execAll_move A hcomm, ← hsplit, execAll_cons, execAll_cons]
      simp only [ih hcheck' hind]

/-- Both layouts of independent records have code, with registers numbered differently, and end alike
from every state. -/
theorem layouts_end_alike (A : Arithmetic V) (m : Recording) (options : Options)
    (globals : SymbolTable)
    (htwo : ∀ op operands target, .arith op operands target ∈ m.records → operands.length = 2)
    (hfree : ∀ r ∈ m.records, ∀ x ∈ r.texts, ¬ Text.Numbered options.registerStem x)
    (hind : m.records.Pairwise fun a b => b.rank < a.rank → a.Independent b) :
    ∃ grouped program, m.emit { options with order := .grouped } globals = .ok grouped ∧
      m.emit { options with order := .program } globals = .ok program ∧
      ∀ s : State V, SameEnd options.registerStem
        (run (A.reserving options.registerStem) s grouped.code)
        (run (A.reserving options.registerStem) s program.code) := by
  have hcheck : ∀ r ∈ m.records, r.check = .ok () := by
    intro r hr
    cases r with
    | arith op operands target => exact Record.check_arith (htwo op operands target hr)
    | _ => rfl
  obtain ⟨grouped, hg, hrung⟩ :=
    Recording.exists_emit_run { options with order := .grouped } hcheck hfree globals
  obtain ⟨program, hp, hrunp⟩ :=
    Recording.exists_emit_run { options with order := .program } hcheck hfree globals
  refine ⟨grouped, program, hg, hp, fun s => ?_⟩
  have hgrouped := hrung A s
  rw [Record.execAll_arrange A _ hcheck hind] at hgrouped
  exact hgrouped.trans (hrunp A s).symm

/-- A program that the grouped layout turns around: the constant and the second read move to the front,
and the sum overtakes the quotient. -/
def turnedAround : Recording where
  records := [.read ['a'], .arith .div [['a'], ['e']] ['x'], .arith .add [['a'], ['1']] ['b'],
    .write ['b'], .move ['7'] ['d'], .read ['f'], .writeNewline]

theorem turnedAround_end_alike :
    (∀ op operands target, .arith op operands target ∈ turnedAround.records → operands.length = 2) ∧
      (∀ r ∈ turnedAround.records, ∀ x ∈ r.texts, ¬ Text.Numbered ['r'] x) ∧
      (turnedAround.records.Pairwise fun a b => b.rank < a.rank → a.Independent b) ∧
      ∃ grouped program, turnedAround.emit { order := .grouped } {} = .ok grouped ∧
        turnedAround.emit { order := .program } {} = .ok program ∧
        ∀ s : State Int, SameEnd ['r'] (run (Arithmetic.decimal.reserving ['r']) s grouped.code)
          (run (Arithmetic.decimal.reserving ['r']) s program.code) := by
  have htwo : ∀ op operands target,
      .arith op operands target ∈ turnedAround.records → operands.length = 2 := by
    intro op operands target h
    simp only [turnedAround, List.mem_cons, List.not_mem_nil, reduceCtorEq, Record.arith.injEq,
      false_or, or_false] at h
    obtain ⟨-, rfl, -⟩ | ⟨-, rfl, -⟩ := h <;> rfl
  have hfree : ∀ r ∈ turnedAround.records, ∀ x ∈ r.texts, ¬ Text.Numbered ['r'] x := by decide
  have hind : turnedAround.records.Pairwise fun a b => b.rank < a.rank → a.Independent b := by
    decide
  exact ⟨htwo, hfree, hind, layouts_end_alike Arithmetic.decimal turnedAround {} {} htwo hfree hind⟩

end StraightLine
