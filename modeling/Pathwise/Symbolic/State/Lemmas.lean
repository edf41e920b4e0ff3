import Pathwise.Symbolic.Constraint.Lemmas
import Pathwise.Symbolic.State

/-!
What each operation does to a state, told through what can be seen of it: the value a symbol holds
(`lookup`), the facts about a value (`factsOf`), the stack, and the visits of a point. An operation
changes what it is about and nothing else.
-/

namespace Pathwise.State

/-! ### Bindings -/

theorem lookup_assign (s : State) (id id' : SymbolId) (v : Value) :
    (s.assign id v).lookup id' = if id = id' then some v else s.lookup id' := by
  simp [lookup, assign, Std.ExtTreeMap.getElem?_insert]

theorem lookup_unbind (s : State) (id id' : SymbolId) :
    (s.unbind id).lookup id' = if id = id' then none else s.lookup id' := by
  simp [lookup, unbind, Std.ExtTreeMap.getElem?_erase]

theorem lookup_unbindWhere (s : State) (test : SymbolId → Value → Bool) (id : SymbolId) :
    (s.unbindWhere test).lookup id = (s.lookup id).filter fun v => !test id v := by
  simp [lookup, unbindWhere, Std.ExtTreeMap.getElem?_filter]

/-- The symbols that hold a value are those whose lookup gives it. -/
theorem mem_symbolsBoundTo {s : State} {v : Value} {id : SymbolId} :
    id ∈ s.symbolsBoundTo v ↔ s.lookup id = some v := by
  simp [symbolsBoundTo, lookup, Std.ExtTreeMap.mem_toList_iff_getElem?_eq_some]

/-! ### Facts -/

/-- At the start, what is known is listed. -/
theorem facts_initial (v : Value) : initial.facts[v]? = constantFacts.lookup v := by
  cases v with
  | constant c => cases c <;> rfl
  | _ => rfl

theorem factsOf_initial (v : Value) :
    initial.factsOf v = (constantFacts.lookup v).getD .nothing := by
  rw [factsOf, Std.ExtTreeMap.getD_eq_getD_getElem?, facts_initial]

theorem factsOf_record? {s t : State} {v : Value} {c : Constraint} (h : s.record? v c = some t)
    (w : Value) : some (t.factsOf w) = if v = w then (s.factsOf v).add? c else s.factsOf w := by
  obtain ⟨facts, hadd, rfl⟩ := Option.map_eq_some_iff.1 h
  by_cases hv : v = w
  · subst hv
    rw [if_pos rfl, hadd]
    simp [factsOf]
  · simp [factsOf, hv, Std.ExtTreeMap.getD_insert]

/-- A fact can be recorded exactly if the facts about the value can take it in. -/
theorem record?_eq_none_iff {s : State} {v : Value} {c : Constraint} :
    s.record? v c = none ↔ (s.factsOf v).add? c = none := by
  simp [record?]

/-- At the start nothing is known about unknowns, so any fact can be recorded. -/
theorem exists_record?_unknown {n : Nat} {c : Constraint} {facts : Facts}
    (h : Facts.nothing.add? c = some facts) :
    ∃ s, initial.record? (.unknown n) c = some s ∧ s.factsOf (.unknown n) = facts := by
  have hnothing : initial.factsOf (.unknown n) = .nothing := by
    rw [factsOf_initial]
    rfl
  obtain ⟨s, hrecord⟩ : ∃ s, initial.record? (.unknown n) c = some s := by
    rw [record?, hnothing, h]
    exact ⟨_, rfl⟩
  have hfacts := factsOf_record? hrecord (.unknown n)
  rw [if_pos rfl, hnothing, h] at hfacts
  exact ⟨s, hrecord, Option.some.inj hfacts⟩

/-- A recorded fact is known. -/
theorem has_record? {s t : State} {v : Value} {c : Constraint} (h : s.record? v c = some t) :
    t.has v c := by
  have hfacts := factsOf_record? h v
  rw [if_pos rfl] at hfacts
  exact (Facts.adds_of_add? hfacts.symm).settles

/-- What is known when a fact is recorded stays known. -/
theorem has_of_record? {s t : State} {v w : Value} {c k : Constraint} (h : s.record? v c = some t)
    (hw : s.has w k) : t.has w k := by
  have hfacts := factsOf_record? h w
  split at hfacts
  · next hvw =>
    subst hvw
    exact (Facts.adds_of_add? hfacts.symm).implies hw
  · rw [has, Option.some.inj hfacts]
    exact hw

/-- A truth that is known after a fact was recorded was known before, or is that fact. -/
theorem has_bool_of_record? {s t : State} {v w : Value} {c : Constraint} {truth : Bool}
    (h : s.record? v c = some t) (hw : t.has w (.bool truth)) :
    s.has w (.bool truth) ∨ (w = v ∧ c = .bool truth) := by
  have hfacts := factsOf_record? h w
  split at hfacts
  · next hvw =>
    subst hvw
    have htruth : (t.factsOf v).bool = some truth := Facts.implies_iff.1 hw
    rcases (Facts.adds_of_add? hfacts.symm).truth truth htruth with hold | hnew
    · exact .inl (Facts.implies_iff.2 hold)
    · exact .inr ⟨rfl, hnew⟩
  · rw [has, Option.some.inj hfacts] at hw
    exact .inl hw

theorem factsOf_forget (s : State) (v w : Value) :
    (s.forget v).factsOf w = if v = w then .nothing else s.factsOf w := by
  simp [factsOf, forget, Std.ExtTreeMap.getD_erase]

/-- What else is known about the value stays known, and so does everything about other values. -/
theorem factsOf_forgetIn (s : State) (v w : Value) (d : Domain) :
    (s.forgetIn v d).factsOf w = if v = w then (s.factsOf v).without d else s.factsOf w := by
  unfold forgetIn
  dsimp only
  split
  · next hempty =>
    rw [Facts.isEmpty_iff] at hempty
    rw [hempty]
    exact factsOf_forget s v w
  · by_cases hvw : v = w
    · simp [factsOf, hvw]
    · simp [factsOf, hvw, Std.ExtTreeMap.getD_insert]

/-! ### The stack -/

@[simp] theorem stack_push (s : State) (v : Value) : (s.push v).stack = v :: s.stack := rfl

/-- A depth holds a value exactly if the stack reaches down to it. -/
theorem peek_eq_ok_iff {s : State} {depth : Nat} {v : Value} :
    s.peek depth = .ok v ↔ s.stack[depth]? = some v := by
  unfold peek
  split <;> simp_all

/-- Taking a value changes the stack only. -/
theorem eq_of_pop {s t : State} {v : Value} (h : s.pop = .ok (t, v)) :
    t = { s with stack := t.stack } := by
  unfold pop at h
  split at h
  · cases h
    rfl
  · cases h

theorem pop_of_stack {s : State} {v : Value} {rest : List Value} (h : s.stack = v :: rest) :
    s.pop = .ok ({ s with stack := rest }, v) := by
  rw [pop, h]

theorem popMany_of_stack {s : State} {vs rest : List Value} (h : s.stack = vs.reverse ++ rest) :
    s.popMany vs.length = .ok ({ s with stack := rest }, vs) := by
  have hlength : ¬s.stack.length < vs.length := by simp [h]
  have hdrop : s.stack.drop vs.length = rest := by rw [h, List.drop_left' List.length_reverse]
  have htake : s.stack.take vs.length = vs.reverse := by
    rw [h, List.take_left' List.length_reverse]
  rw [popMany, if_neg hlength, hdrop, htake, List.reverse_reverse]

/-- What is taken from the stack and what is left are the stack. -/
theorem stack_of_popMany {s t : State} {count : Nat} {vs : List Value}
    (h : s.popMany count = .ok (t, vs)) : s.stack = vs.reverse ++ t.stack := by
  unfold popMany at h
  split at h
  · simp at h
  · simp only [Except.ok.injEq, Prod.mk.injEq] at h
    obtain ⟨rfl, rfl⟩ := h
    simp

/-- As many values are taken as were asked for. -/
theorem length_of_popMany {s t : State} {count : Nat} {vs : List Value}
    (h : s.popMany count = .ok (t, vs)) : vs.length = count := by
  unfold popMany at h
  split at h
  · simp at h
  · simp only [Except.ok.injEq, Prod.mk.injEq] at h
    obtain ⟨rfl, rfl⟩ := h
    simp only [List.length_reverse, List.length_take]
    omega

/-! ### Garbage -/

/-- Nothing is lost while values are marked: the operands of a value that was found are found as
well or still pending. -/
def Marking (found pending : List Value) : Prop :=
  ∀ v ∈ found, ∀ x ∈ v.operands, x ∈ found ∨ x ∈ pending

namespace Marking

variable {found pending : List Value} {u v : Value}

/-- A value that was found before is passed over. -/
theorem skip (h : Marking found (v :: pending)) (hv : v ∈ found) : Marking found pending := by
  intro w hw x hx
  rcases h w hw x hx with hfound | hpending
  · exact .inl hfound
  · rcases List.mem_cons.1 hpending with rfl | hrest
    · exact .inl hv
    · exact .inr hrest

/-- A value that is found brings its operands along. -/
theorem find (h : Marking found (v :: pending)) :
    Marking (v :: found) (v.operands ++ pending) := by
  intro w hw x hx
  rcases List.mem_cons.1 hw with rfl | hfound
  · exact .inr (List.mem_append_left _ hx)
  · rcases h w hfound x hx with hx | hx
    · exact .inl (List.mem_cons_of_mem _ hx)
    · rcases List.mem_cons.1 hx with rfl | hrest
      · exact .inl List.mem_cons_self
      · exact .inr (List.mem_append_right _ hrest)

/-- Each part of a value that was found is found as well or is a part of a pending value. -/
theorem part (h : Marking found pending) (hv : v ∈ found) (hu : u ∈ v.parts) :
    u ∈ found ∨ ∃ w ∈ pending, u ∈ w.parts := by
  induction v using Value.operands_induction with
  | step v ih =>
    rcases Value.mem_parts_iff.1 hu with rfl | ⟨x, hx, hux⟩
    · exact .inl hv
    · rcases h v hv x hx with hfound | hpending
      · exact ih x hx hfound hux
      · exact .inr ⟨x, hpending, hux⟩

end Marking

/-- Marking ends with the values found before and all parts of the pending ones. -/
theorem mem_mark {found pending : List Value} (h : Marking found pending) {u : Value} :
    u ∈ mark found pending ↔ u ∈ found ∨ ∃ v ∈ pending, u ∈ v.parts := by
  induction found, pending using mark.induct with
  | case1 found => simp [mark]
  | case2 found v pending hfound ih =>
    have hv : v ∈ found := List.contains_iff_mem.1 hfound
    rw [mark, if_pos hfound, ih (h.skip hv)]
    constructor
    · exact Or.imp_right fun ⟨w, hw, hu⟩ => ⟨w, List.mem_cons_of_mem _ hw, hu⟩
    · rintro (hu | ⟨w, hw, hu⟩)
      · exact .inl hu
      · rcases List.mem_cons.1 hw with rfl | hw
        · exact (h.skip hv).part hv hu
        · exact .inr ⟨w, hw, hu⟩
  | case3 found v pending hfound ih =>
    rw [mark, if_neg hfound, ih h.find]
    simp only [List.mem_cons, List.mem_append, or_and_right, exists_or, exists_eq_left,
      Value.mem_parts_iff (v := v), or_assoc, or_left_comm]

/-- The values that can be come across are the parts of those on the stack and of those that symbols
hold. -/
theorem mem_reachable {s : State} {u : Value} :
    u ∈ s.reachable ↔ ∃ v, (v ∈ s.stack ∨ ∃ id, s.lookup id = some v) ∧ u ∈ v.parts := by
  have hstart : Marking [] (s.stack ++ s.bindings.toList.map Prod.snd) := by simp [Marking]
  rw [reachable, mem_mark hstart]
  simp [lookup, Std.ExtTreeMap.mem_toList_iff_getElem?_eq_some, or_and_right, exists_or]

theorem facts_collectGarbage (s : State) (v : Value) :
    s.collectGarbage.facts[v]? = s.facts[v]?.filter (keeps s.reachable v) := by
  simp [collectGarbage, Std.ExtTreeMap.getElem?_filter]

/-- What is known about a value is kept as a whole or forgotten as a whole. -/
theorem factsOf_collectGarbage (s : State) (v : Value) :
    s.collectGarbage.factsOf v =
      if keeps s.reachable v (s.factsOf v) then s.factsOf v else .nothing := by
  simp only [factsOf, Std.ExtTreeMap.getD_eq_getD_getElem?, facts_collectGarbage]
  cases s.facts[v]? with
  | none => simp
  | some facts => by_cases hkeeps : keeps s.reachable v facts <;> simp [Option.filter_some, hkeeps]

/-! ### Visits -/

theorem visitCount_congr {s t : State} (h : t.visits = s.visits) (q : ProgramPoint) :
    t.visitCount q = s.visitCount q := by
  rw [visitCount, visitCount, h]

theorem visitCount_markVisited (s : State) (p q : ProgramPoint) :
    (s.markVisited p).visitCount q = if p = q then s.visitCount p + 1 else s.visitCount q := by
  simp [visitCount, markVisited, Std.ExtTreeMap.getD_insert]

/-- Where a path has been is no part of its state. -/
theorem same_markVisited (s : State) (p : ProgramPoint) : s.same (s.markVisited p) := by
  simp [same, markVisited]

end Pathwise.State
