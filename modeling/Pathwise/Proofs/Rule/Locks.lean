import Pathwise.Proofs.Rule.Observed
import Pathwise.Proofs.Transfer.Locks

/-!
What rules do to the locks that are known to be held. The rule about locks takes a lock where it is
taken and gives it up where it is released. The other rules learn and forget facts of other domains.
-/

namespace Pathwise

/-- The rule about locks takes a lock where it is taken, and gives it up where it is released. -/
theorem LockRelease.relocks_before (site : Site) (i : Instruction) (s : State) :
    (before site i s).Keeps (s.Relocks (i.lock? .lockAcquire s) (i.lock? .lockRelease s)) := by
  cases hacquire : i.lock? .lockAcquire s with
  | some v =>
    obtain ⟨name, hbefore⟩ := before_of_acquires site hacquire
    have hrelease : i.lock? .lockRelease s = none := by
      cases i with
      | invocation method argCount =>
        simp only [Instruction.lock?] at hacquire ⊢
        split at hacquire
        · next hknown => simp [hknown]
        · cases hacquire
      | _ => rfl
    rw [hbefore, hrelease]
    exact fun t ht => State.relocks_of_narrow?_held ht
  | none =>
    cases hrelease : i.lock? .lockRelease s with
    | some v =>
      rw [before_of_releases hrelease]
      exact Sighting.keeps_some (s.relocks_forgetIn_lock v)
    | none =>
      rw [before_of_neither hacquire hrelease]
      exact Sighting.keeps_unchanged (.refl s)

/-- The other rules have nothing to do with locks. -/
theorem Rule.outlives_relocks {rule : Rule} (hrule : rule ≠ .lockRelease) (s : State) :
    rule.Outlives (s.Relocks none none) where
  record hheld ht h := h.trans_right (State.relocks_of_record? (fun hc => hrule (hheld hc)) ht)
  forget v hd h := by
    refine h.trans_right (State.relocks_forgetIn ?_ _ v)
    cases rule with
    | lockRelease => exact absurd rfl hrule
    | emptyCollection =>
      cases hd
      simp
    | _ => cases hd

theorem Rule.relocks_before_of_not_mem {rules : List Rule} (hrules : .lockRelease ∉ rules)
    (site : Site) (i : Instruction) (s : State) :
    (before rules site i s).Keeps (s.Relocks none none) := by
  refine before_keeps (fun rule hrule => outlives_relocks ?_ s) (.refl s) site i
  rintro rfl
  exact hrules hrule

/-- All rules together take and give up what the rule about locks does, if it is among them. -/
theorem Rule.relocks_before {rules : List Rule} (hrules : .lockRelease ∈ rules) (site : Site)
    (i : Instruction) (s : State) :
    (before rules site i s).Keeps
      (s.Relocks (i.lock? .lockAcquire s) (i.lock? .lockRelease s)) := by
  induction rules generalizing s with
  | nil => exact absurd hrules List.not_mem_nil
  | cons rule rest ih =>
    intro t hall
    rw [before, List.map_cons, Sighting.state_inTurn_cons] at hall
    obtain ⟨u, hu, ht⟩ := Option.bind_eq_some_iff.1 hall
    have hstack : u.stack = s.stack := (factsOnly_beforeBy site i rule s u hu).stack
    have hrest : .lockRelease ∈ rest →
        u.Relocks (i.lock? .lockAcquire s) (i.lock? .lockRelease s) t := by
      intro hlater
      have hrelocks := ih hlater u t ht
      rwa [Instruction.lock?_congr hstack, Instruction.lock?_congr hstack] at hrelocks
    by_cases hrule : rule = .lockRelease
    · subst hrule
      have htaken := LockRelease.relocks_before site i s u hu
      by_cases hlater : .lockRelease ∈ rest
      · exact htaken.again (hrest hlater)
      · exact htaken.trans_right (relocks_before_of_not_mem hlater site i u t ht)
    · have hlater : .lockRelease ∈ rest :=
        (List.mem_cons.1 hrules).resolve_left fun h => hrule h.symm
      exact ((outlives_relocks hrule s).beforeBy (.refl s) site i u hu).trans_left (hrest hlater)

theorem Rule.relocks_created (rules : List Rule) (site : Site) (type : TypeInfo) (argCount : Nat)
    (v : Value) (s : State) : s.Relocks none none (created rules site type argCount v s).2 :=
  created_keeps (outlives_relocks (by simp) s) (.refl s) site type argCount v

end Pathwise
