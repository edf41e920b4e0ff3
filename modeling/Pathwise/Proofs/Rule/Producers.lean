import Pathwise.Proofs.Transfer.Frame
import Pathwise.Rule.Site

/-!
Findings name an operand after the node that pushed it. The node is found by undoing the stack
effects of a block backwards, without looking at a state, while the states came about forwards.

`producer?_of_traverses` says that the two agree on every run through a block. An operand is given
here by the part of the stack that it is on top of. The search finds a node exactly if this node
pushed the operand and no later one took it, and finds none exactly if the operand was there before
the block was run. An operand has the name of a symbol exactly if it was read from the symbol, and
was at most cast since then.
-/

namespace Pathwise

/-- The first `offset` nodes ran one after the other: the node at position `k` was run in the state
`k` and led to the state `k + 1`. -/
def Transfer.Traverses (t : Transfer) (nodes : List Node) (states : Nat → State) (offset : Nat) :
    Prop :=
  ∀ k < offset, ∃ node ids ids', nodes[k]? = some node ∧
    t.visit node.instruction (states k) ids = .ok (some (states (k + 1), ids'))

/-- The values on the stacks of the first states can be counted, as on every stack that fits into a
memory. -/
def SmallStacks (states : Nat → State) (offset : Nat) : Prop :=
  ∀ k < offset, (states k).stack.length < UInt64.size

theorem SmallStacks.mono {states : Nat → State} {offset position : Nat} (h : SmallStacks states offset)
    (hle : position ≤ offset) : SmallStacks states position :=
  fun k hk => h k (Nat.lt_of_lt_of_le hk hle)

/-- The node at position `k` is this instruction, and replaced values on the stack as its effect
says. -/
structure Ran (nodes : List Node) (states : Nat → State) (k : Nat) (i : Instruction)
    (effect : StackEffect) : Prop where
  node : nodes[k]?.map Node.instruction = some i
  stackEffect : i.stackEffect = some effect
  exchanges : (states k).Exchanges effect.pops effect.pushes (states (k + 1))

/-- The node at position `k` pushed the operand. -/
def Pushes (nodes : List Node) (states : Nat → State) (operand : List Value) (k : Nat)
    (i : Instruction) : Prop :=
  ∃ effect, Ran nodes states k i effect ∧ effect.pushes = 1 ∧ (states (k + 1)).stack = operand

/-- The operand is not among the values that the node at position `k` took. -/
def Spares (nodes : List Node) (states : Nat → State) (operand : List Value) (k : Nat) : Prop :=
  ∃ i effect, Ran nodes states k i effect ∧ operand <:+ (states k).stack.drop effect.pops

/-- The node at position `k` cast the operand, which stayed as it was. -/
def Casts (nodes : List Node) (states : Nat → State) (operand : List Value) (k : Nat) : Prop :=
  ∃ type, nodes[k]?.map Node.instruction = some (.cast type) ∧
    (states k).stack = operand ∧ (states (k + 1)).stack = operand

/-- The node at a position pushed the operand, and no node took it since then. -/
structure Produced (nodes : List Node) (states : Nat → State) (offset : Nat) (operand : List Value)
    (position : Nat) (i : Instruction) : Prop where
  lt : position < offset
  pushes : Pushes nodes states operand position i
  spares : ∀ k, position < k → k < offset → Spares nodes states operand k

/-- The operand was there from the start, and no node took it. -/
structure Inherited (nodes : List Node) (states : Nat → State) (offset : Nat)
    (operand : List Value) : Prop where
  suffix : operand <:+ (states 0).stack
  spares : ∀ k < offset, Spares nodes states operand k

/-- The symbol that the result of an instruction is named after. -/
def Instruction.resultSymbol? : Instruction → Option SymbolId
  | .read id _ | .memberAccess id _ => some id
  | _ => none

/-- The operand was read from a symbol, and no node did more than to cast it since then. -/
def ReadFrom (nodes : List Node) (states : Nat → State) (offset : Nat) (operand : List Value)
    (id : SymbolId) : Prop :=
  ∃ position < offset, ∃ i, i.resultSymbol? = some id ∧ Pushes nodes states operand position i ∧
    ∀ k, position < k → k < offset →
      Spares nodes states operand k ∨ Casts nodes states operand k

section

variable {t : Transfer} {nodes : List Node} {states : Nat → State} {offset depth k position : Nat}
  {operand : List Value} {i j : Instruction} {effect : StackEffect}

/-! ### Single nodes -/

theorem Ran.unique {effect' : StackEffect} (h : Ran nodes states k i effect)
    (h' : Ran nodes states k j effect') : i = j ∧ effect = effect' := by
  obtain rfl := Option.some.inj (h.node.symm.trans h'.node)
  exact ⟨rfl, Option.some.inj (h.stackEffect.symm.trans h'.stackEffect)⟩

/-- The stack from its own result on is longer than what an instruction left of the stack. -/
theorem Pushes.not_spares (h : Pushes nodes states operand k i) :
    ¬Spares nodes states operand k := by
  obtain ⟨effect, hran, hpushes, rfl⟩ := h
  rintro ⟨j, effect', hran', hsuffix⟩
  obtain ⟨-, rfl⟩ := hran.unique hran'
  obtain ⟨top, hlength, hstack⟩ := hran.exchanges.stack
  have hle := hsuffix.length_le
  rw [hstack, List.length_append, hlength, hpushes] at hle
  omega

/-- What lies among the results of an instruction was pushed by it. -/
theorem Ran.pushes (h : Ran nodes states k i effect) (hdepth : depth < effect.pushes) :
    Pushes nodes states ((states (k + 1)).stack.drop depth) k i := by
  have hle := Instruction.pushes_le_one h.stackEffect
  obtain rfl : depth = 0 := by omega
  exact ⟨effect, h, by omega, rfl⟩

/-- What lies below the results of an instruction was there before, deeper by as much as the
instruction took and higher by as much as it pushed. -/
theorem Ran.drop_stack (h : Ran nodes states k i effect) (hdepth : effect.pushes ≤ depth) :
    (states (k + 1)).stack.drop depth =
      (states k).stack.drop (depth + effect.pops - effect.pushes) := by
  obtain ⟨top, hlength, hstack⟩ := h.exchanges.stack
  have hsum : effect.pops + (depth - effect.pushes) = depth + effect.pops - effect.pushes := by
    omega
  rw [hstack, List.drop_append, List.drop_eq_nil_of_le (hlength ▸ hdepth), List.nil_append,
    List.drop_drop, hlength, hsum]

theorem Ran.spares (h : Ran nodes states k i effect) (hdepth : effect.pushes ≤ depth) :
    Spares nodes states ((states (k + 1)).stack.drop depth) k := by
  refine ⟨i, effect, h, ?_⟩
  have hsum : depth + effect.pops - effect.pushes = effect.pops + (depth - effect.pushes) := by
    omega
  rw [h.drop_stack hdepth, hsum, ← List.drop_drop]
  exact List.drop_suffix ..

namespace Transfer

theorem Traverses.mono (h : t.Traverses nodes states offset) (hle : position ≤ offset) :
    t.Traverses nodes states position :=
  fun k hk => h k (Nat.lt_of_lt_of_le hk hle)

theorem Traverses.ran (h : t.Traverses nodes states offset) (hsize : SmallStacks states offset)
    (hk : k < offset) : ∃ i effect, Ran nodes states k i effect := by
  obtain ⟨node, ids, ids', hnode, hvisit⟩ := h k hk
  obtain ⟨effect, heffect, hexchanges, htaken⟩ := exchanges_of_visit hvisit
  exact ⟨node.instruction, effect, by rw [hnode]; rfl, heffect, htaken (hsize k hk) ▸ hexchanges⟩

theorem Traverses.visit (h : t.Traverses nodes states offset) (hk : k < offset)
    (hi : nodes[k]?.map Node.instruction = some i) :
    ∃ ids ids', t.visit i (states k) ids = .ok (some (states (k + 1), ids')) := by
  obtain ⟨node, ids, ids', hnode, hvisit⟩ := h k hk
  rw [hnode] at hi
  obtain rfl := Option.some.inj hi
  exact ⟨ids, ids', hvisit⟩

end Transfer

/-! ### Searching a block -/

theorem Produced.succ (h : Produced nodes states offset operand position i)
    (hspares : Spares nodes states operand offset) :
    Produced nodes states (offset + 1) operand position i := by
  refine ⟨Nat.lt_succ_of_lt h.lt, h.pushes, fun k hk hk' => ?_⟩
  rcases Nat.lt_succ_iff_lt_or_eq.1 hk' with hk' | rfl
  · exact h.spares k hk hk'
  · exact hspares

theorem Inherited.succ (h : Inherited nodes states offset operand)
    (hspares : Spares nodes states operand offset) :
    Inherited nodes states (offset + 1) operand :=
  ⟨h.suffix, Nat.forall_lt_succ_right.2 ⟨h.spares, hspares⟩⟩

/-- The search finds the node that pushed the operand, or finds that it was there from the start. -/
theorem Transfer.Traverses.producer?_cases (h : t.Traverses nodes states offset)
    (hsize : SmallStacks states offset) (hdepth : depth < (states offset).stack.length) :
    (∃ position i, producer? nodes offset depth = some (position, i) ∧
      Produced nodes states offset ((states offset).stack.drop depth) position i) ∨
    (producer? nodes offset depth = none ∧
      Inherited nodes states offset ((states offset).stack.drop depth)) := by
  induction offset generalizing depth with
  | zero => exact .inr ⟨rfl, List.drop_suffix .., fun k hk => absurd hk (Nat.not_lt_zero k)⟩
  | succ offset ih =>
    obtain ⟨i, effect, hran⟩ := h.ran hsize (Nat.lt_succ_self offset)
    obtain ⟨node, hnode, rfl⟩ := Option.map_eq_some_iff.1 hran.node
    by_cases hlt : depth < effect.pushes
    · refine .inl ⟨offset, node.instruction, ?_, Nat.lt_succ_self offset, hran.pushes hlt,
        fun k hk hk' => absurd hk' (by omega)⟩
      simp only [producer?, hnode, hran.stackEffect, hlt, if_true]
    · have hspares := hran.spares (Nat.not_lt.1 hlt)
      have hlength := hran.exchanges.length
      have hproducer : producer? nodes (offset + 1) depth =
          producer? nodes offset (depth + effect.pops - effect.pushes) := by
        simp only [producer?, hnode, hran.stackEffect, hlt, if_false]
      have hrest := ih (h.mono (Nat.le_succ offset)) (hsize.mono (Nat.le_succ offset))
        (show depth + effect.pops - effect.pushes < (states offset).stack.length by omega)
      rw [← hran.drop_stack (Nat.not_lt.1 hlt), ← hproducer] at hrest
      rcases hrest with ⟨position, i, hsome, hproduced⟩ | ⟨hnone, hinherited⟩
      · exact .inl ⟨position, i, hsome, hproduced.succ hspares⟩
      · exact .inr ⟨hnone, hinherited.succ hspares⟩

/-- No two nodes pushed the same operand: the later one would have taken it before. -/
theorem Produced.unique {position' : Nat} (h : Produced nodes states offset operand position i)
    (h' : Produced nodes states offset operand position' j) : position = position' ∧ i = j := by
  rcases Nat.lt_trichotomy position position' with hlt | rfl | hlt
  · exact absurd (h.spares position' hlt h'.lt) h'.pushes.not_spares
  · obtain ⟨effect, hran, -⟩ := h.pushes
    obtain ⟨effect', hran', -⟩ := h'.pushes
    exact ⟨rfl, (hran.unique hran').1⟩
  · exact absurd (h'.spares position hlt h.lt) h.pushes.not_spares

theorem Produced.not_inherited (h : Produced nodes states offset operand position i) :
    ¬Inherited nodes states offset operand :=
  fun hinherited => h.pushes.not_spares (hinherited.spares position h.lt)

namespace Transfer.Traverses

theorem producer?_eq_some_iff (h : t.Traverses nodes states offset)
    (hsize : SmallStacks states offset) (hdepth : depth < (states offset).stack.length) :
    producer? nodes offset depth = some (position, i) ↔
      Produced nodes states offset ((states offset).stack.drop depth) position i := by
  rcases h.producer?_cases hsize hdepth with ⟨position', j, hsome, hproduced⟩ | ⟨hnone, hinherited⟩
  · rw [hsome, Option.some.injEq, Prod.mk.injEq]
    constructor
    · rintro ⟨rfl, rfl⟩
      exact hproduced
    · exact hproduced.unique
  · rw [hnone]
    exact iff_of_false (by simp) fun hproduced => hproduced.not_inherited hinherited

theorem producer?_eq_none_iff (h : t.Traverses nodes states offset)
    (hsize : SmallStacks states offset) (hdepth : depth < (states offset).stack.length) :
    producer? nodes offset depth = none ↔
      Inherited nodes states offset ((states offset).stack.drop depth) := by
  rcases h.producer?_cases hsize hdepth with ⟨position, i, hsome, hproduced⟩ | ⟨hnone, hinherited⟩
  · rw [hsome]
    exact iff_of_false (by simp) hproduced.not_inherited
  · exact iff_of_true hnone hinherited

end Transfer.Traverses

/-- The search for the node that pushed an operand, which fails if an instruction took so little and
pushed so much that no depth is left. -/
def producerChecked? (nodes : List Node) :
    (offset depth : Nat) → Option (Option (Nat × Instruction))
  | 0, _ => some none
  | offset + 1, depth =>
    match nodes[offset]? with
    | none => producerChecked? nodes offset depth
    | some node =>
      match node.instruction.stackEffect with
      | none => some none
      | some effect =>
        if depth < effect.pushes then some (some (offset, node.instruction))
        else if depth + effect.pops < effect.pushes then none
        else producerChecked? nodes offset (depth + effect.pops - effect.pushes)

theorem producerChecked?_eq (nodes : List Node) (offset depth : Nat) :
    producerChecked? nodes offset depth = some (producer? nodes offset depth) := by
  induction offset generalizing depth with
  | zero => rfl
  | succ offset ih =>
    cases hnode : nodes[offset]? with
    | none => simp only [producerChecked?, producer?, hnode, ih]
    | some node =>
      cases heffect : node.instruction.stackEffect with
      | none => simp only [producerChecked?, producer?, hnode, heffect]
      | some effect =>
        by_cases hlt : depth < effect.pushes
        · simp only [producerChecked?, producer?, hnode, heffect, hlt, if_true]
        · have henough : ¬depth + effect.pops < effect.pushes := by omega
          simp only [producerChecked?, producer?, hnode, heffect, hlt, henough, if_false, ih]

/-! ### Names -/

theorem operandSymbol_of_none (h : producer? nodes offset depth = none) :
    operandSymbol nodes offset depth = none := by
  unfold operandSymbol
  split <;> simp_all

theorem operandSymbol_of_cast {kind : CastKind}
    (h : producer? nodes offset depth = some (position, .cast kind)) :
    operandSymbol nodes offset depth = operandSymbol nodes position 0 := by
  rw [operandSymbol]
  split <;> simp_all

theorem operandSymbol_of_some (h : producer? nodes offset depth = some (position, i))
    (hi : ∀ kind, i ≠ .cast kind) : operandSymbol nodes offset depth = i.resultSymbol? := by
  rw [operandSymbol]
  split
  · next hread =>
    cases h.symm.trans hread
    rfl
  · next hmember =>
    cases h.symm.trans hmember
    rfl
  · next hcast =>
    cases h.symm.trans hcast
    exact absurd rfl (hi _)
  · next hread hmember _ =>
    cases i with
    | read => exact (hread _ _ _ h).elim
    | memberAccess => exact (hmember _ _ _ h).elim
    | _ => rfl

theorem Pushes.eq (h : Pushes nodes states operand k i)
    (hj : nodes[k]?.map Node.instruction = some j) : i = j := by
  obtain ⟨effect, hran, -⟩ := h
  exact Option.some.inj (hran.node.symm.trans hj)

/-- An operand that was cast was read where its cast was. -/
theorem Produced.readFrom_iff_of_casts {id : SymbolId} {kind : CastKind}
    (h : Produced nodes states offset operand position (.cast kind))
    (hcasts : Casts nodes states operand position) :
    ReadFrom nodes states offset operand id ↔ ReadFrom nodes states position operand id := by
  constructor
  · rintro ⟨first, hfirst, i, hid, hpushes, hsince⟩
    rcases Nat.lt_trichotomy first position with hlt | rfl | hlt
    · exact ⟨first, hlt, i, hid, hpushes, fun k hk hk' => hsince k hk (Nat.lt_trans hk' h.lt)⟩
    · obtain ⟨kind, hnode, -⟩ := hcasts
      obtain rfl := hpushes.eq hnode
      cases hid
    · exact absurd (h.spares first hlt hfirst) hpushes.not_spares
  · rintro ⟨first, hfirst, i, hid, hpushes, hsince⟩
    refine ⟨first, Nat.lt_trans hfirst h.lt, i, hid, hpushes, fun k hk hk' => ?_⟩
    rcases Nat.lt_trichotomy k position with hlt | rfl | hlt
    · exact hsince k hk hlt
    · exact .inr hcasts
    · exact .inl (h.spares k hlt hk')

/-- An operand that was not cast was read where it was pushed, if at all. -/
theorem Produced.readFrom_iff {id : SymbolId} (h : Produced nodes states offset operand position i)
    (hi : ∀ kind, i ≠ .cast kind) :
    ReadFrom nodes states offset operand id ↔ i.resultSymbol? = some id := by
  constructor
  · rintro ⟨first, hfirst, j, hid, hpushes, hsince⟩
    rcases Nat.lt_trichotomy first position with hlt | rfl | hlt
    · rcases hsince position hlt h.lt with hspares | ⟨kind, hnode, -⟩
      · exact absurd hspares h.pushes.not_spares
      · exact absurd (h.pushes.eq hnode) (hi kind)
    · obtain ⟨effect, hran, -⟩ := h.pushes
      exact hpushes.eq hran.node ▸ hid
    · exact absurd (h.spares first hlt hfirst) hpushes.not_spares
  · intro hid
    exact ⟨position, h.lt, i, hid, h.pushes, fun k hk hk' => .inl (h.spares k hk hk')⟩

namespace Transfer

theorem eq_of_visit_cast {s u : State} {ids ids' : Supply} {kind : CastKind}
    (h : t.visit (.cast kind) s ids = .ok (some (u, ids'))) : u = s := by
  unfold visit at h
  cases hpeek : s.peek 0 with
  | error fault =>
    rw [hpeek] at h
    cases h
  | ok v =>
    rw [hpeek] at h
    cases h
    rfl

/-- A method group holds the receiver that it took. -/
theorem stack_of_visit_methodGroup {s u : State} {ids ids' : Supply} {name : String}
    (h : t.visit (.methodGroup name .receiver) s ids = .ok (some (u, ids'))) :
    ∃ v rest, s.stack = v :: rest ∧ u.stack = .group v name :: rest := by
  unfold visit popReceiver State.pop at h
  cases hs : s.stack with
  | nil =>
    rw [hs] at h
    cases h
  | cons v rest =>
    rw [hs] at h
    cases h
    exact ⟨v, rest, rfl, rfl⟩

namespace Traverses

/-- What was pushed by a cast was there before. -/
theorem casts (h : t.Traverses nodes states offset) (hk : k < offset) {kind : CastKind}
    (hpushes : Pushes nodes states operand k (.cast kind)) : Casts nodes states operand k := by
  obtain ⟨effect, hran, -, hstack⟩ := hpushes
  obtain ⟨ids, ids', hvisit⟩ := h.visit hk hran.node
  exact ⟨kind, hran.node, eq_of_visit_cast hvisit ▸ hstack, hstack⟩

/-- An operand has the name of a symbol exactly if it was read from the symbol. -/
theorem operandSymbol_eq_some_iff {id : SymbolId} (h : t.Traverses nodes states offset)
    (hsize : SmallStacks states offset) (hdepth : depth < (states offset).stack.length) :
    operandSymbol nodes offset depth = some id ↔
      ReadFrom nodes states offset ((states offset).stack.drop depth) id := by
  -- by induction on the offset, as the search goes on before a cast
  induction offset using Nat.strongRecOn generalizing depth with
  | ind offset ih =>
    rcases h.producer?_cases hsize hdepth with
      ⟨position, i, hsome, hproduced⟩ | ⟨hnone, hinherited⟩
    · by_cases hcast : ∃ kind, i = .cast kind
      · obtain ⟨kind, rfl⟩ := hcast
        have hcasts := h.casts hproduced.lt hproduced.pushes
        have hbefore : (states position).stack = (states offset).stack.drop depth :=
          hcasts.elim fun _ hcasts => hcasts.2.1
        have hlength : 0 < (states position).stack.length := by
          rw [hbefore, List.length_drop]
          omega
        have hle := Nat.le_of_lt hproduced.lt
        rw [operandSymbol_of_cast hsome, hproduced.readFrom_iff_of_casts hcasts,
          ih position hproduced.lt (h.mono hle) (hsize.mono hle) hlength, List.drop_zero, hbefore]
      · have hi := not_exists.1 hcast
        rw [operandSymbol_of_some hsome hi, hproduced.readFrom_iff hi]
    · rw [operandSymbol_of_none hnone]
      refine iff_of_false (by simp) ?_
      rintro ⟨position, hlt, i, -, hpushes, -⟩
      exact hpushes.not_spares (hinherited.spares position hlt)

/-- The name of a receiver is that of the operand which the method group took. -/
theorem operandSymbol_of_methodGroup {id : SymbolId} {name : String}
    (h : t.Traverses nodes states offset) (hsize : SmallStacks states offset)
    (hproduced : Produced nodes states offset operand position (.methodGroup name .receiver))
    (hid : operandSymbol nodes position 0 = some id) :
    ∃ v rest, operand = .group v name :: rest ∧ ReadFrom nodes states position (v :: rest) id := by
  obtain ⟨effect, hran, -, rfl⟩ := hproduced.pushes
  obtain ⟨ids, ids', hvisit⟩ := h.visit hproduced.lt hran.node
  obtain ⟨v, rest, hbefore, hafter⟩ := stack_of_visit_methodGroup hvisit
  refine ⟨v, rest, hafter, ?_⟩
  have hle := Nat.le_of_lt hproduced.lt
  have hread := ((h.mono hle).operandSymbol_eq_some_iff (hsize.mono hle) (by simp [hbefore])).1 hid
  rwa [List.drop_zero, hbefore] at hread

end Traverses

end Transfer

end

/-- On every run through the first nodes of a block, on stacks whose values can be counted, and for
every operand that is on the stack then: the search finds a node exactly if the node pushed the
operand and no node took it since then, and finds none exactly if the operand was there before and
no node took it. On the way no depth is less than nothing. An operand is named exactly after the
symbol that it was read from, and the receiver of a call after the symbol that the receiver was read
from. -/
theorem producer?_of_traverses {t : Transfer} {nodes : List Node} {states : Nat → State}
    {offset depth : Nat} (h : t.Traverses nodes states offset)
    (hsize : ∀ k < offset, (states k).stack.length < UInt64.size)
    (hdepth : depth < (states offset).stack.length) :
    (∀ position i, producer? nodes offset depth = some (position, i) ↔
      Produced nodes states offset ((states offset).stack.drop depth) position i) ∧
    (producer? nodes offset depth = none ↔
      Inherited nodes states offset ((states offset).stack.drop depth)) ∧
    producerChecked? nodes offset depth = some (producer? nodes offset depth) ∧
    ∀ site : Site, site.before = some (nodes, offset) → ∀ name,
      (site.operandName depth = some name ↔
        ∃ id, ReadFrom nodes states offset ((states offset).stack.drop depth) id ∧
          site.symbolName id = some name) ∧
      (site.receiverName depth = some name → ∀ position method,
        producer? nodes offset depth = some (position, .methodGroup method .receiver) →
        ∃ v rest id, (states offset).stack.drop depth = .group v method :: rest ∧
          ReadFrom nodes states position (v :: rest) id ∧ site.symbolName id = some name) := by
  refine ⟨fun position i => h.producer?_eq_some_iff hsize hdepth,
    h.producer?_eq_none_iff hsize hdepth, producerChecked?_eq nodes offset depth,
    fun site hsite name => ⟨?_, ?_⟩⟩
  · simp only [Site.operandName, hsite, Option.bind_eq_bind, Option.bind_some,
      Option.bind_eq_some_iff, h.operandSymbol_eq_some_iff hsize hdepth]
  · intro hname position method hproducer
    simp only [Site.receiverName, hsite, hproducer, Option.bind_eq_bind, Option.bind_some,
      Option.bind_eq_some_iff] at hname
    obtain ⟨id, hid, hname⟩ := hname
    obtain ⟨v, rest, hoperand, hread⟩ :=
      h.operandSymbol_of_methodGroup hsize ((h.producer?_eq_some_iff hsize hdepth).1 hproducer) hid
    exact ⟨v, rest, id, hoperand, hread, hname⟩

/-- A variable is cast and called with `null`. -/
def castCall : Graph where
  method := "call"
  blocks :=
    [⟨[⟨.read ⟨0⟩ false, none⟩, ⟨.cast .explicit, none⟩, ⟨.methodGroup "M" .receiver, none⟩,
       ⟨.literal .null, none⟩], .jump ⟨1⟩ .plain⟩, ⟨[], .exit⟩]
  entry := ⟨0⟩
  exit := ⟨1⟩
  parameters := []
  symbols := ⟨[⟨"o", .localVariable, ⟨"T", .reference, false, false⟩, false⟩]⟩

/-- The states up to the call. An operand waits on the stack from the start. -/
def castCallStates (k : Nat) : State :=
  { State.initial.assign ⟨0⟩ (.unknown 0) with
    stack :=
      match k with
      | 0 => [.unknown 2]
      | 1 | 2 => [.unknown 0, .unknown 2]
      | 3 => [.group (.unknown 0) "M", .unknown 2]
      | _ => [.null, .group (.unknown 0) "M", .unknown 2] }

/-- The receiver of the call is found below its argument and through the cast. -/
theorem producer?_of_traverses_castCall :
    let t : Transfer := ⟨castCall.symbols, .ofLimit 16⟩
    let site : Site := ⟨castCall, .ofLimit 16, ⟨⟨0⟩, 4⟩, none⟩
    ∃ nodes, site.before = some (nodes, 4) ∧ t.Traverses nodes castCallStates 4 ∧
      (∀ k < 4, (castCallStates k).stack.length < UInt64.size) ∧
      1 < (castCallStates 4).stack.length ∧ site.receiverName 1 = some "o" ∧
      Produced nodes castCallStates 4 [.group (.unknown 0) "M", .unknown 2] 2
        (.methodGroup "M" .receiver) ∧
      ∃ id, ReadFrom nodes castCallStates 2 [.unknown 0, .unknown 2] id ∧
        site.symbolName id = some "o" := by
  intro t site
  have hruns : t.Traverses (castCall.blocks[0]).nodes castCallStates 4 := by
    intro k hk
    match k with
    | 0 | 1 | 2 | 3 => exact ⟨_, .odd, _, rfl, rfl⟩
  have hname : site.receiverName 1 = some "o" := by decide +kernel
  have hsize : ∀ k < 4, (castCallStates k).stack.length < UInt64.size := by decide
  have hdepth : 1 < (castCallStates 4).stack.length := by decide
  obtain ⟨hsome, -, -, hnames⟩ := producer?_of_traverses hruns hsize hdepth
  obtain ⟨v, rest, id, hoperand, hread, hid⟩ := (hnames site rfl "o").2 hname 2 "M" rfl
  cases hoperand
  exact ⟨_, rfl, hruns, hsize, hdepth, hname, (hsome _ _).1 rfl, id, hread, hid⟩

end Pathwise
