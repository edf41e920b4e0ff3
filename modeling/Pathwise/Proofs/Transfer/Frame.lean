import Pathwise.Proofs.Transfer.Facts

/-!
What instructions leave alone. An instruction works on the top of the stack, on the symbols that it
refers to, and on what is known of its operands and results. Everything else is as it was: the
values further down, the visits of the path, what other symbols hold, and all that was known. There
are two exceptions, and they are as narrow as can be. Where other code is run, what fields hold is
forgotten; and an assignment to a member that cannot be tracked by name makes what was known of this
one member void.
-/

namespace Pathwise

theorem Instruction.pushes_le_one {i : Instruction} {effect : StackEffect}
    (h : i.stackEffect = some effect) : effect.pushes ≤ 1 := by
  cases i <;> cases h <;> simp

namespace Transfer

/-- The symbols whose binding an instruction may change: those that it refers to, and fields if it
runs other code. -/
def MayRebind (t : Transfer) (i : Instruction) (id : SymbolId) : Prop :=
  id ∈ i.symbols ∨ (t.symbols.isField id ∧ i.clearsFields)

theorem outlives_lookup (t : Transfer) {i : Instruction} {id : SymbolId} (hid : ¬ t.MayRebind i id)
    (s : State) : t.Outlives i fun u => u.lookup id = s.lookup id := by
  have hne : ∀ id' ∈ i.symbols, id' ≠ id := fun id' hid' heq => hid (.inl (heq ▸ hid'))
  refine ⟨fun _ h => h, fun _ hu h => ?_, fun v hid' _ h => ?_, fun hid' h => ?_,
    fun hclears h => ?_, fun _ _ _ h => h⟩
  · rw [State.lookup, (State.FactsOnly.of_record? hu).bindings]
    exact h
  · rw [State.lookup_assign, if_neg (hne _ hid'), h]
  · rw [State.lookup_unbind, if_neg (hne _ hid'), h]
  · have hfield : t.symbols.isField id = false :=
      Bool.eq_false_iff.2 fun hfield => hid (.inr ⟨hfield, hclears⟩)
    rw [clearFields, State.lookup_unbindWhere, h, hfield]
    cases s.lookup id <;> rfl

/-- An instruction that leads to a state takes its operands from the stack, pushes at most one
value, and leaves the visits of the path as they are. The stack has to be one whose values can be
counted, as every stack that fits into a memory is. The instruction changes the binding of a symbol
only if it refers to the symbol, or if the symbol is a field and the instruction runs other code.
What is known stays known, unless it is about the member that an assignment overwrites; of that
member nothing is known. -/
theorem visit_frame {t : Transfer} {i : Instruction} {s u : State} {ids ids' : Supply}
    (h : t.visit i s ids = .ok (some (u, ids'))) :
    (s.stack.length < UInt64.size →
      ∃ effect, i.stackEffect = some effect ∧ effect.pops ≤ s.stack.length ∧
        ∃ top : List Value, top.length ≤ 1 ∧ u.stack = top ++ s.stack.drop effect.pops) ∧
    u.visits = s.visits ∧
    (∀ id, u.lookup id ≠ s.lookup id →
      id ∈ i.symbols ∨ (t.symbols.isField id ∧ i.clearsFields)) ∧
    (∀ v c, s.has v c → u.has v c ∨ i.overwritten? t.symbols s = some v) ∧
    (∀ v, i.overwritten? t.symbols s = some v → u.factsOf v = .nothing) := by
  obtain ⟨effect, heffect, hexchanges, htaken⟩ := exchanges_of_visit h
  have hrevises := t.visit_revises i s ids u ids' h
  refine ⟨fun hsize => ?_, hexchanges.visits, fun id hchanged => ?_, fun v c hv => ?_,
    fun v hlost => ?_⟩
  · rw [htaken hsize] at hexchanges
    obtain ⟨top, hlength, hstack⟩ := hexchanges.stack
    exact ⟨effect, heffect, hexchanges.enough, top, hlength ▸ Instruction.pushes_le_one heffect,
      hstack⟩
  · by_cases hid : t.MayRebind i id
    · exact hid
    · exact absurd (visit_keeps (t.outlives_lookup hid s) rfl ids u ids' h) hchanged
  · by_cases hlost : i.overwritten? t.symbols s = some v
    · exact .inr hlost
    · exact .inl (hrevises.has hlost hv)
  · rw [hlost] at hrevises
    exact hrevises.factsOf_lost

end Transfer

/-- A local variable, and a field of a value type. -/
def counterSymbols : SymbolTable :=
  ⟨[⟨"o", .localVariable, ⟨"T", .reference, false, false⟩, false⟩,
    ⟨"n", .field false false, ⟨"int", .value, false, false⟩, false⟩]⟩

/-- A number is about to be added to `o.n`, of which it is known that it is not null. Further down
the stack a value waits. -/
def addingToCounter : State :=
  { State.initial.assign ⟨0⟩ (.unknown 0) with
    stack := [.unknown 2, .unknown 0, .unknown 4]
    facts := State.initial.facts.insert (.member (.unknown 0) ⟨1⟩)
      { Facts.nothing with object := some .notNull } }

/-- The assignment leaves the waiting value, the variable and the constants alone, and makes void
what was known of `o.n`. -/
theorem Transfer.visit_frame_addingToCounter :
    let t : Transfer := ⟨counterSymbols, .ofLimit 16⟩
    let i : Instruction := .assignment (.member ⟨1⟩ .receiver) .compound
    ∃ u ids, t.visit i addingToCounter .odd = .ok (some (u, ids)) ∧
      (∃ top : List Value, top.length ≤ 1 ∧ u.stack = top ++ [.unknown 4]) ∧
      u.lookup ⟨0⟩ = some (.unknown 0) ∧ u.has .null .null ∧
      addingToCounter.has (.member (.unknown 0) ⟨1⟩) .notNull ∧
      u.factsOf (.member (.unknown 0) ⟨1⟩) = .nothing := by
  intro t i
  have hvisit : ∃ u ids, t.visit i addingToCounter .odd = .ok (some (u, ids)) := ⟨_, _, rfl⟩
  obtain ⟨u, ids, hvisit⟩ := hvisit
  obtain ⟨htop, -, hbindings, hfacts, hlost⟩ := Transfer.visit_frame hvisit
  obtain ⟨effect, heffect, -, top, hlength, hstack⟩ := htop (by decide)
  have hlookup : u.lookup ⟨0⟩ = some (.unknown 0) := by
    by_cases hchanged : u.lookup ⟨0⟩ = addingToCounter.lookup ⟨0⟩
    · exact hchanged
    · exact absurd (hbindings ⟨0⟩ hchanged) (by decide)
  have hnull : u.has .null .null := (hfacts .null .null rfl).resolve_right (by decide)
  cases heffect
  exact ⟨u, ids, hvisit, ⟨top, hlength, hstack⟩, hlookup, hnull, rfl, hlost _ rfl⟩

end Pathwise
