import Pathwise.Program.Draft
import Pathwise.Proofs.Exploration.Edits

/-!
What holds of every state of a walk. Values are only listed with facts that say something. A value
of which anything else is known than whether it is null is known not to be null. The constants keep
the facts that they have from the start, whatever is learned or forgotten about them on the way, and
nothing is ever learned about null. And whatever symbol holds a value was declared.

Each small change of a state keeps this, so it holds of all states that come about by small changes.
-/

namespace Pathwise

/-- Do the facts about a constant include those that it has from the start? -/
def Constant.Known : Constant → Facts → Prop
  | .yes, f => f.object = some .notNull ∧ f.bool = some true
  | .no, f => f.object = some .notNull ∧ f.bool = some false
  | .null, f => f = { Facts.nothing with object := some .null }
  | .self, f => f.object = some .notNull

/-- The facts are such as a value has in a walk. -/
structure Facts.Fit (v : Value) (f : Facts) : Prop where
  /-- A fact of any domain but the first comes with the fact that the value is not null. -/
  notNull : ∀ d, d ≠ .object → (f.get? d).isSome → f.object = some .notNull
  constant : ∀ c, v = .constant c → c.Known f

/-- The state is such as a walk reaches. -/
structure State.WellFormed (symbols : SymbolTable) (s : State) : Prop where
  /-- Values are listed only with facts that say something. -/
  listed : ∀ (v : Value) (f : Facts), s.facts[v]? = some f → f.isEmpty = false
  fit : ∀ v, (s.factsOf v).Fit v
  /-- Only declared symbols hold values. -/
  declared : ∀ id v, s.lookup id = some v → (symbols.get? id).isSome

/-! ### Facts that fit a value -/

namespace Facts

variable {f g : Facts} {c : Constraint} {v : Value}

/-- Whatever is learned about a constant, it keeps the facts that it has from the start. -/
theorem Adds.known {k : Constant} (h : f.Adds c g) (hf : k.Known f) : k.Known g := by
  cases k with
  | yes | no => exact ⟨h.object_eq hf.1, h.bool _ hf.2⟩
  | null =>
    have hnull : c.nullness = .null := (h.agrees .null (by rw [show f = _ from hf])).symm
    rw [(h.null hnull).1, show f = _ from hf]
    rfl
  | self => exact h.object_eq hf

theorem Fit.add (hf : f.Fit v) (h : f.Adds c g) : g.Fit v := by
  refine ⟨fun d hd hsome => ?_, fun k hk => h.known (hf.constant k hk)⟩
  rw [h.object]
  cases hc : c.nullness with
  | notNull => rfl
  | null =>
    -- the only fact is the one in the first domain
    obtain ⟨rfl, hcontent⟩ := h.null hc
    have hget : ({ f with object := some .null } : Facts).get? d = f.get? d := by
      cases d with
      | object => exact absurd rfl hd
      | _ => rfl
    rw [hget] at hsome
    exact absurd (hasContent_of_get? hd hsome) (by simp [hcontent])

/-- Of the facts that constants have from the start, none is about a collection or a lock. -/
theorem Fit.without {d : Domain} (hf : f.Fit v) (hd : d = .collection ∨ d = .lock) :
    (f.without d).Fit v := by
  have hobject : (f.without d).object = f.object := by rcases hd with rfl | rfl <;> rfl
  have hbool : (f.without d).bool = f.bool := by rcases hd with rfl | rfl <;> rfl
  refine ⟨fun d' hd' hsome => ?_, fun k hk => ?_⟩
  · rw [get?_without] at hsome
    split at hsome
    · cases hsome
    · rw [hobject]
      exact hf.notNull d' hd' hsome
  · have hknown := hf.constant k hk
    cases k with
    | yes | no => exact ⟨hobject.trans hknown.1, hbool.trans hknown.2⟩
    | null =>
      rw [show f = _ from hknown]
      rcases hd with rfl | rfl <;> rfl
    | self => exact hobject.trans hknown

theorem fit_nothing (hv : v.isConstant = false) : nothing.Fit v := by
  refine ⟨fun d _ hsome => ?_, fun c hc => ?_⟩
  · cases d <;> exact absurd hsome (by decide)
  · subst hc
    exact absurd hv (by simp [Value.isConstant])

end Facts

/-! ### States -/

namespace State.WellFormed

variable {symbols : SymbolTable} {s t : State} {v : Value}

theorem of_initial : State.initial.WellFormed symbols := by
  refine ⟨fun v f hf => ?_, fun v => ?_, fun id v hv => ?_⟩
  · rw [facts_initial] at hf
    cases v with
    | constant c => cases c <;> cases hf <;> rfl
    | _ => cases hf
  · rw [factsOf_initial]
    cases v with
    | constant c =>
      refine ⟨fun d hd hsome => ?_, ?_⟩
      · cases c with
        | yes | no | self => rfl
        | null =>
          cases d with
          | object => exact absurd rfl hd
          | _ => exact absurd hsome (by decide)
      · rintro _ ⟨⟩
        cases c with
        | yes | no => exact ⟨rfl, rfl⟩
        | null | self => rfl
    | _ => exact Facts.fit_nothing rfl
  · exact absurd hv (by simp [lookup, initial])

theorem record? {c : Constraint} (hs : s.WellFormed symbols) (h : s.record? v c = some t) :
    t.WellFormed symbols := by
  refine ⟨fun w f hw => ?_, fun w => ?_, fun id u hu => hs.declared id u ?_⟩
  · obtain ⟨g, hadd, rfl⟩ := Option.map_eq_some_iff.1 h
    rw [Std.ExtTreeMap.getElem?_insert] at hw
    split at hw
    · cases hw
      exact (Facts.adds_of_add? hadd).isEmpty
    · exact hs.listed w f hw
  · have hfacts := factsOf_record? h w
    split at hfacts
    · next hvw =>
      subst hvw
      exact (hs.fit v).add (Facts.adds_of_add? hfacts.symm)
    · rw [Option.some.inj hfacts]
      exact hs.fit w
  · rwa [lookup, (FactsOnly.of_record? h).bindings] at hu

theorem forgetIn {d : Domain} (hs : s.WellFormed symbols) (v : Value)
    (hd : d = .collection ∨ d = .lock) : (s.forgetIn v d).WellFormed symbols := by
  refine ⟨fun w f hw => ?_, fun w => ?_, hs.declared⟩
  · unfold State.forgetIn at hw
    dsimp only at hw
    split at hw
    · rw [Std.ExtTreeMap.getElem?_erase] at hw
      split at hw
      · cases hw
      · exact hs.listed w f hw
    · next hleft =>
      rw [Std.ExtTreeMap.getElem?_insert] at hw
      split at hw
      · cases hw
        exact Bool.eq_false_iff.2 hleft
      · exact hs.listed w f hw
  · rw [factsOf_forgetIn]
    split
    · next hvw =>
      subst hvw
      exact (hs.fit v).without hd
    · exact hs.fit w

theorem learn (hs : s.WellFormed symbols) (h : s.Learns t) : t.WellFormed symbols := by
  induction h with
  | refl => exact hs
  | record _ hu ih => exact ih.record? hu
  | forget _ v hd ih => exact ih.forgetIn v hd

/-- A member is not a constant, so everything about it may be forgotten. -/
theorem forgetMember (hs : s.WellFormed symbols) (receiver : Value) (id : SymbolId) :
    (s.forget (.member receiver id)).WellFormed symbols := by
  refine ⟨fun w f hw => ?_, fun w => ?_, hs.declared⟩
  · rw [forget, Std.ExtTreeMap.getElem?_erase] at hw
    split at hw
    · cases hw
    · exact hs.listed w f hw
  · rw [factsOf_forget]
    split
    · next hw =>
      subst hw
      exact Facts.fit_nothing rfl
    · exact hs.fit w

/-- The facts about constants are never garbage. -/
theorem collectGarbage (hs : s.WellFormed symbols) : s.collectGarbage.WellFormed symbols := by
  refine ⟨fun w f hw => ?_, fun w => ?_, hs.declared⟩
  · rw [facts_collectGarbage] at hw
    exact hs.listed w f (Option.eq_some_of_filter_eq_some hw)
  · rw [factsOf_collectGarbage]
    split
    · exact hs.fit w
    · next hgarbage =>
      refine Facts.fit_nothing ?_
      simp only [keeps, Bool.or_eq_true, not_or] at hgarbage
      exact Bool.eq_false_iff.2 hgarbage.1.1.1

theorem edit (hs : s.WellFormed symbols) (h : State.Edit symbols s t) : t.WellFormed symbols := by
  cases h with
  | restack | revisit => exact ⟨hs.listed, hs.fit, hs.declared⟩
  | learn h => exact hs.learn h
  | forgetMember receiver id => exact hs.forgetMember receiver id
  | assign hid v =>
    refine ⟨hs.listed, hs.fit, fun id' u hu => ?_⟩
    rw [lookup_assign] at hu
    split at hu
    · next hids => exact hids ▸ Option.isSome_of_eq_some hid
    · exact hs.declared id' u hu
  | unbind id =>
    refine ⟨hs.listed, hs.fit, fun id' u hu => ?_⟩
    rw [lookup_unbind] at hu
    split at hu
    · cases hu
    · exact hs.declared id' u hu
  | unbindWhere test =>
    refine ⟨hs.listed, hs.fit, fun id' u hu => ?_⟩
    rw [lookup_unbindWhere] at hu
    exact hs.declared id' u (Option.eq_some_of_filter_eq_some hu)
  | collectGarbage => exact hs.collectGarbage

end State.WellFormed

/-- Every state of every node that a walk puts in line is well-formed, whatever the program, the
limits and the rules are, and however the walk ends. -/
theorem Walk.wellFormed_of_mem_nodes (p : Plan) (w : Watchdog) (ids : Supply) {n : ExplodedNode}
    (hn : n ∈ (new p w ids).run.1.exploration.nodes.toList) :
    n.state.WellFormed p.graph.symbols :=
  (edits_of_mem_nodes hn).keeps State.WellFormed.edit .of_initial

/-- A method that takes and keeps the lock of its own instance, and tests its parameter. -/
def lockSelf : Graph where
  method := "lock"
  blocks :=
    [⟨[⟨.self, none⟩, ⟨.methodGroup "Enter" .receiver, none⟩,
       ⟨.invocation ⟨"Enter", .lockAcquire, false, ⟨"void", .reference, false, false⟩, [], false,
          []⟩ 0, none⟩,
       ⟨.discard, none⟩, ⟨.read ⟨0⟩ false, none⟩], .branch .condition ⟨1⟩ ⟨2⟩⟩,
     ⟨[], .jump ⟨2⟩ .plain⟩, Draft.exitBlock]
  entry := ⟨0⟩
  exit := ⟨2⟩
  parameters := [⟨0⟩]
  symbols := ⟨[⟨"b", .parameter, ⟨"bool", .value, false, false⟩, false⟩]⟩

/-- At the end of a walk some node knows that the instance is locked, a fact that comes with its not
being null. -/
theorem Walk.wellFormed_of_mem_nodes_lockSelf :
    ∃ n ∈ (new (.of lockSelf .default Rule.defaults) .lazy .odd).run.1.exploration.nodes.toList,
      n.point.block = lockSelf.exit ∧ n.state.has .self .held ∧
        n.state.WellFormed lockSelf.symbols := by
  have hreached :
      ∃ n ∈ (new (.of lockSelf .default Rule.defaults) .lazy .odd).run.1.exploration.nodes.toList,
        n.point.block = lockSelf.exit ∧ n.state.has .self .held := by
    decide +kernel
  obtain ⟨n, hn, hexit, hheld⟩ := hreached
  exact ⟨n, hn, hexit, hheld, wellFormed_of_mem_nodes _ _ _ hn⟩

end Pathwise
