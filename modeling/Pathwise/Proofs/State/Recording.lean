import Pathwise.Proofs.Solver.Valuation

/-!
Facts can be recorded in any order. What a set of facts is true of does not depend on the order in
which the facts were added: it is what all of them are true of. And once it is known whether a value
is null, the facts about it can be read off from what they are true of (`Settled.eq_of_areTrueOf`),
so that the sets themselves do not depend on the order either.

Recording fails exactly if there is nothing that all the facts are true of. `Contradictory` says
what this comes to: it lists the facts that exclude each other.
-/

namespace Pathwise

namespace StringShape

variable {a b : StringShape}

/-- Every shape leaves some texture open. -/
theorem exists_allows (a : StringShape) : ∃ t, a.allows t := by
  have hsome := a.inhabited
  rcases he : a.empty with _ | _
  · rcases hb : a.blank with _ | _
    · exact ⟨.full, by simpa [allows, he, hb] using hsome⟩
    · exact ⟨.blank, hb⟩
  · exact ⟨.empty, he⟩

theorem implies_antisymm (hab : a.implies b) (hba : b.implies a) : a = b := by
  have hallows : ∀ t, a.allows t = b.allows t := fun t =>
    Bool.eq_iff_iff.2 ⟨implies_iff.1 hab t, implies_iff.1 hba t⟩
  rcases a with ⟨_, _, _, _⟩
  rcases b with ⟨_, _, _, _⟩
  obtain rfl := hallows .empty
  obtain rfl := hallows .blank
  obtain rfl := hallows .full
  rfl

end StringShape

/-! ### Sets of facts, read off from what they are true of -/

namespace Facts

variable {f g : Facts} {c : Constraint}

/-- It is known whether the value is null, and nothing else is known if it is. -/
structure Settled (f : Facts) : Prop where
  object : f.object.isSome
  null : f.object = some .null → f.hasContent = false

/-- Once any fact was added, a set of facts is settled. -/
theorem Adds.settled (h : f.Adds c g) : g.Settled := by
  refine ⟨by rw [h.object]; rfl, fun hnull => ?_⟩
  have hc : c.nullness = .null := Option.some.inj (h.object.symm.trans hnull)
  obtain ⟨rfl, hcontent⟩ := h.null hc
  rw [hasContent_eq] at hcontent ⊢
  exact hcontent

/-- What has the facts and, its texture apart, nothing else. -/
def typical (f : Facts) (texture : Option Texture) : Option Entity :=
  if f.object = some .null then none
  else some ⟨f.bool, texture, f.collection, f.disposed, f.held⟩

/-- The texture is open if it is one of the known shape. -/
def Open (f : Facts) (texture : Option Texture) : Prop :=
  ∀ shape, f.string = some shape → ∃ t, texture = some t ∧ shape.allows t

theorem exists_open (f : Facts) : ∃ texture, f.Open texture := by
  cases hstring : f.string with
  | none => exact ⟨none, fun shape hshape => absurd (hstring.symm.trans hshape) (by simp)⟩
  | some known =>
    obtain ⟨t, ht⟩ := known.exists_allows
    refine ⟨some t, fun shape hshape => ⟨t, rfl, ?_⟩⟩
    obtain rfl := Option.some.inj (hstring.symm.trans hshape)
    exact ht

namespace Settled

/-- The facts are true of what has them. -/
theorem areTrueOf_typical (hf : f.Settled) {texture : Option Texture} (ht : f.Open texture) :
    f.areTrueOf (f.typical texture) := by
  obtain ⟨n, hn⟩ := Option.isSome_iff_exists.1 hf.object
  rw [areTrueOf_eq, typical]
  cases n with
  | null =>
    have hcontent := hf.null hn
    rw [hasContent_eq] at hcontent
    simp only [Bool.or_eq_false_iff, Option.isSome_eq_false_iff, Option.isNone_iff_eq_none]
      at hcontent
    obtain ⟨hbool, hstring, hcollection, hdisposed, hheld⟩ := hcontent
    simp [hn, hbool, hstring, hcollection, hdisposed, hheld, Constraint.isTrueOf]
  | notNull =>
    have hstring : f.string.all fun shape => texture.any shape.allows := by
      cases hshape : f.string with
      | none => rfl
      | some shape =>
        obtain ⟨t, rfl, hallows⟩ := ht shape hshape
        simpa using hallows
    simp only [hn, Constraint.isTrueOf, reduceCtorEq, Option.some.injEq, if_false, Option.any_some,
      hstring]
    cases f.bool <;> cases f.collection <;> simp

/-- Whatever is true of all that has the facts is known. -/
theorem implies_of_forall (hf : f.Settled) (h : ∀ o, f.areTrueOf o → c.isTrueOf o) :
    f.implies c := by
  obtain ⟨n, hn⟩ := Option.isSome_iff_exists.1 hf.object
  obtain ⟨texture, htexture⟩ := f.exists_open
  have htypical := h _ (hf.areTrueOf_typical htexture)
  rw [implies_iff]
  cases c with
  | object m =>
    cases n <;> cases m <;> simp_all [typical, Constraint.isTrueOf]
  | string asked =>
    cases hstring : f.string with
    | none =>
      -- nothing is known of the texture, so there may be none
      have hopen : f.Open none := fun shape hshape => absurd (hstring.symm.trans hshape) (by simp)
      have hnone := h _ (hf.areTrueOf_typical hopen)
      unfold typical at hnone
      split at hnone <;> simp [Constraint.isTrueOf] at hnone
    | some known =>
      refine ⟨known, rfl, StringShape.implies_iff.2 fun t ht => ?_⟩
      have hopen : f.Open (some t) := by
        intro shape hshape
        obtain rfl := Option.some.inj (hstring.symm.trans hshape)
        exact ⟨t, rfl, ht⟩
      have hsome := h _ (hf.areTrueOf_typical hopen)
      unfold typical at hsome
      split at hsome
      · cases hsome
      · exact hsome
  | _ =>
    unfold typical at htypical
    split at htypical
    · cases htypical
    · simpa [Constraint.isTrueOf] using htypical

end Settled

/-- Two sets of facts from which the same facts follow are equal. -/
theorem eq_of_implies (h : ∀ c, f.implies c ↔ g.implies c) : f = g := by
  simp only [implies_iff] at h
  have hobject : f.object = g.object := Option.ext fun n => h (.object n)
  have hbool : f.bool = g.bool := Option.ext fun truth => h (.bool truth)
  have hcollection : f.collection = g.collection := Option.ext fun n => h (.collection n)
  have hdisposed : f.disposed = g.disposed := Bool.eq_iff_iff.2 (h .disposed)
  have hheld : f.held = g.held := Bool.eq_iff_iff.2 (h .held)
  have hstring : f.string = g.string := by
    cases hf : f.string with
    | none =>
      cases hg : g.string with
      | none => rfl
      | some b =>
        obtain ⟨a, ha, -⟩ := (h (.string b)).2 ⟨b, hg, b.implies_refl⟩
        exact absurd (hf.symm.trans ha) (by simp)
    | some a =>
      obtain ⟨b, hg, hba⟩ := (h (.string a)).1 ⟨a, hf, a.implies_refl⟩
      obtain ⟨a', ha', hab⟩ := (h (.string b)).2 ⟨b, hg, b.implies_refl⟩
      obtain rfl := Option.some.inj (hf.symm.trans ha')
      rw [hg, StringShape.implies_antisymm hab hba]
  rcases f with ⟨_, _, _, _, _, _⟩
  rcases g with ⟨_, _, _, _, _, _⟩
  simp_all

/-- Settled sets of facts are equal if they are true of the same. -/
theorem Settled.eq_of_areTrueOf (hf : f.Settled) (hg : g.Settled)
    (h : ∀ o, f.areTrueOf o ↔ g.areTrueOf o) : f = g := by
  refine eq_of_implies fun c => ⟨fun hc => ?_, fun hc => ?_⟩
  · exact hg.implies_of_forall fun o ho => isTrueOf_of_implies ((h o).2 ho) hc
  · exact hf.implies_of_forall fun o ho => isTrueOf_of_implies ((h o).1 ho) hc

/-- Less is true of more. -/
theorem areTrueOf_without {o : Option Entity} (h : f.areTrueOf o) (d : Domain) :
    (f.without d).areTrueOf o := by
  rw [areTrueOf, List.all_eq_true] at h ⊢
  intro c hc
  obtain ⟨d', hd', hget⟩ := List.mem_filterMap.1 hc
  rw [get?_without] at hget
  split at hget
  · cases hget
  · exact h c (List.mem_filterMap.2 ⟨d', hd', hget⟩)

end Facts

/-! ### Facts that exclude each other -/

/-- Some of the facts exclude each other: null excludes every other fact, the two truths and the two
kinds of collection exclude each other, and so do shapes that have no texture in common. -/
def Contradictory (known : Constraint → Prop) : Prop :=
  (known .null ∧ ∃ c, known c ∧ c ≠ .null) ∨
  (known (.bool true) ∧ known (.bool false)) ∨
  (known .emptyCollection ∧ known .notEmptyCollection) ∨
  ∀ t, ∃ shape, known (.string shape) ∧ shape.allows t = false

namespace Contradictory

variable {known : Constraint → Prop}

/-- Null has no other fact. -/
theorem eq_null_of_isTrueOf {c : Constraint} (h : c.isTrueOf none) : c = .null := by
  cases c with
  | object n =>
    cases n with
    | null => rfl
    | notNull => cases h
  | _ => cases h

/-- Facts that exclude each other are not true together of anything. -/
theorem not_forall_isTrueOf (h : Contradictory known) (o : Option Entity) :
    ¬∀ c, known c → c.isTrueOf o := by
  intro htrue
  cases o with
  | none =>
    rcases h with ⟨-, c, hc, hne⟩ | ⟨hyes, -⟩ | ⟨hempty, -⟩ | hshapes
    · exact hne (eq_null_of_isTrueOf (htrue c hc))
    · exact absurd (htrue _ hyes) (by simp [Constraint.isTrueOf])
    · exact absurd (htrue _ hempty) (by simp [Constraint.isTrueOf])
    · obtain ⟨shape, hshape, -⟩ := hshapes .empty
      exact absurd (htrue _ hshape) (by simp [Constraint.isTrueOf])
  | some e =>
    rcases h with ⟨hnull, -⟩ | ⟨hyes, hno⟩ | ⟨hempty, hfull⟩ | hshapes
    · exact absurd (htrue _ hnull) (by simp [Constraint.isTrueOf])
    · have hyes := htrue _ hyes
      have hno := htrue _ hno
      simp_all [Constraint.isTrueOf]
    · have hempty := htrue _ hempty
      have hfull := htrue _ hfull
      simp_all [Constraint.isTrueOf]
    · cases ht : e.texture with
      | none =>
        obtain ⟨shape, hshape, -⟩ := hshapes .empty
        exact absurd (htrue _ hshape) (by simp [Constraint.isTrueOf, ht])
      | some t =>
        obtain ⟨shape, hshape, hnot⟩ := hshapes t
        exact absurd (htrue _ hshape) (by simp [Constraint.isTrueOf, ht, hnot])

open Classical in
/-- Facts that do not exclude each other are true together of something. -/
theorem exists_forall_isTrueOf (h : ¬Contradictory known) :
    ∃ o, ∀ c, known c → c.isTrueOf o := by
  simp only [Contradictory, not_or, not_and, not_exists, not_forall, Decidable.not_not,
    Bool.not_eq_false] at h
  obtain ⟨hnull, htruth, hfullness, t, ht⟩ := h
  by_cases hknown : known .null
  · -- then nothing else is known
    refine ⟨none, fun c hc => ?_⟩
    obtain rfl := hnull hknown c hc
    rfl
  · -- of two facts that exclude each other take the one that is known
    refine ⟨some ⟨some (decide (known (.bool true))), some t,
      some (if known .emptyCollection then .empty else .notEmpty), true, true⟩, fun c hc => ?_⟩
    cases c with
    | object n =>
      cases n with
      | null => exact absurd hc hknown
      | notNull => rfl
    | bool truth =>
      cases truth with
      | true => simp [Constraint.isTrueOf, hc]
      | false =>
        have hyes : ¬known (.bool true) := fun hyes => htruth hyes hc
        simp [Constraint.isTrueOf, hyes]
    | string shape => simpa [Constraint.isTrueOf] using ht shape hc
    | collection fullness =>
      cases fullness with
      | empty => simp [Constraint.isTrueOf, show known .emptyCollection from hc]
      | notEmpty =>
        have hempty : ¬known .emptyCollection := fun hempty => hfullness hempty hc
        simp [Constraint.isTrueOf, hempty]
    | disposed | held => rfl

end Contradictory

theorem not_contradictory_iff {known : Constraint → Prop} :
    ¬Contradictory known ↔ ∃ o, ∀ c, known c → c.isTrueOf o :=
  ⟨Contradictory.exists_forall_isTrueOf, fun ⟨o, ho⟩ h => h.not_forall_isTrueOf o ho⟩

/-! ### Recording facts one after the other -/

namespace State

variable {s t t' : State} {l l' : List (Value × Constraint)}

/-- Records facts about values, one after the other. There is no such state if one of the facts
contradicts what is known by then. -/
def recordAll? (s : State) (l : List (Value × Constraint)) : Option State :=
  l.foldlM (fun s p => s.record? p.1 p.2) s

/-- What is known about each value does not contradict itself. So it is at the start, and neither
recording nor forgetting facts leads to anything else. -/
def Consistent (s : State) : Prop := ∀ v, ¬Contradictory (· ∈ (s.factsOf v).toList)

/-- What is there once the listed facts are recorded. -/
structure Records (s : State) (l : List (Value × Constraint)) (t : State) : Prop where
  stack : t.stack = s.stack
  bindings : t.bindings = s.bindings
  visits : t.visits = s.visits
  /-- Nothing is recorded about values that are not listed. -/
  others : ∀ v, v ∉ l.map Prod.fst → t.facts[v]? = s.facts[v]?
  /-- There are facts about the values that are listed. -/
  settled : ∀ v ∈ l.map Prod.fst, v ∈ t.facts ∧ (t.factsOf v).Settled
  /-- The facts about a value are true of what both the old and the listed ones are true of. -/
  areTrueOf : ∀ v o, (t.factsOf v).areTrueOf o ↔
    (s.factsOf v).areTrueOf o ∧ ∀ c, (v, c) ∈ l → c.isTrueOf o

/-- One more fact in front. -/
theorem Records.cons {u : State} {v : Value} {c : Constraint} (h : s.record? v c = some u)
    (hl : u.Records l t) : s.Records ((v, c) :: l) t := by
  obtain ⟨g, hadd, rfl⟩ := Option.map_eq_some_iff.1 h
  have hfacts := factsOf_record? h
  refine ⟨hl.stack, hl.bindings, hl.visits, fun w hw => ?_, fun w hw => ?_, fun w o => ?_⟩
  · rw [List.map_cons, List.mem_cons, not_or] at hw
    rw [hl.others w hw.2, Std.ExtTreeMap.getElem?_insert]
    simp [Ne.symm hw.1]
  · by_cases hlisted : w ∈ l.map Prod.fst
    · exact hl.settled w hlisted
    · -- the fact in front is the only one about this value
      obtain rfl : w = v := by
        rw [List.map_cons, List.mem_cons] at hw
        exact hw.resolve_right hlisted
      have hsame : t.facts[w]? = some g := by
        rw [hl.others w hlisted, Std.ExtTreeMap.getElem?_insert_self]
      refine ⟨Std.ExtTreeMap.mem_iff_isSome_getElem?.2 (by rw [hsame]; rfl), ?_⟩
      rw [factsOf, Std.ExtTreeMap.getD_eq_getD_getElem?, hsame]
      exact (Facts.adds_of_add? hadd).settled
  · have hw := hfacts w
    rw [hl.areTrueOf w o]
    by_cases hvw : v = w
    · subst hvw
      rw [if_pos rfl] at hw
      rw [Facts.areTrueOf_add? hw.symm, Bool.and_eq_true]
      simp only [List.mem_cons, Prod.mk.injEq, true_and, forall_eq_or_imp, and_assoc]
    · rw [if_neg hvw, Option.some.injEq] at hw
      rw [hw]
      simp only [List.mem_cons, Prod.mk.injEq, Ne.symm hvw, false_and, false_or]

theorem records_of_recordAll? (h : s.recordAll? l = some t) : s.Records l t := by
  induction l generalizing s with
  | nil =>
    obtain rfl := Option.some.inj h
    exact ⟨rfl, rfl, rfl, fun _ _ => rfl, by simp, by simp⟩
  | cons p l ih =>
    rw [recordAll?, List.foldlM_cons] at h
    obtain ⟨u, hrecord, hrest⟩ := Option.bind_eq_some_iff.1 h
    exact (ih hrest).cons hrecord

/-- Facts that are true together can be recorded. -/
theorem exists_recordAll? (h : ∀ v ∈ l.map Prod.fst,
    ∃ o, (s.factsOf v).areTrueOf o ∧ ∀ c, (v, c) ∈ l → c.isTrueOf o) :
    ∃ t, s.recordAll? l = some t := by
  induction l generalizing s with
  | nil => exact ⟨s, rfl⟩
  | cons p l ih =>
    obtain ⟨v, c⟩ := p
    obtain ⟨o, hs, hlisted⟩ := h v (by simp)
    obtain ⟨g, hadd⟩ := Facts.exists_add? hs (hlisted c (by simp))
    have hrecord : s.record? v c = some { s with facts := s.facts.insert v g } := by
      rw [record?, hadd]
      rfl
    have hrest := ih (s := { s with facts := s.facts.insert v g }) fun w hw => ?_
    · obtain ⟨t, ht⟩ := hrest
      exact ⟨t, by rw [recordAll?, List.foldlM_cons, hrecord]; exact ht⟩
    obtain ⟨o, hs, hlisted⟩ := h w (by simp [hw])
    refine ⟨o, ?_, fun k hk => hlisted k (List.mem_cons_of_mem _ hk)⟩
    have hfacts := factsOf_record? hrecord w
    by_cases hvw : v = w
    · subst hvw
      rw [if_pos rfl] at hfacts
      rw [Facts.areTrueOf_add? hfacts.symm, hs, hlisted c (by simp)]
      rfl
    · rw [if_neg hvw, Option.some.injEq] at hfacts
      rw [hfacts]
      exact hs

/-- Facts can be recorded exactly if what is known about each listed value and what is listed for it
are true together of something. -/
theorem exists_recordAll?_iff : (∃ t, s.recordAll? l = some t) ↔ ∀ v ∈ l.map Prod.fst,
    ∃ o, (s.factsOf v).areTrueOf o ∧ ∀ c, (v, c) ∈ l → c.isTrueOf o := by
  refine ⟨fun ⟨t, ht⟩ v hv => ?_, exists_recordAll?⟩
  have hrecords := records_of_recordAll? ht
  obtain ⟨texture, htexture⟩ := (t.factsOf v).exists_open
  exact ⟨_, (hrecords.areTrueOf v _).1 ((hrecords.settled v hv).2.areTrueOf_typical htexture)⟩

/-- The state in which facts are recorded depends on which facts they are and on nothing else. -/
theorem Records.eq (h : s.Records l t) (h' : s.Records l' t') (hmem : ∀ p, p ∈ l ↔ p ∈ l') :
    t = t' := by
  have hlisted : ∀ v, v ∈ l.map Prod.fst ↔ v ∈ l'.map Prod.fst := by
    intro v
    simp only [List.mem_map, hmem]
  have hfacts : t.facts = t'.facts := by
    refine Std.ExtTreeMap.ext_getElem? fun v => ?_
    by_cases hv : v ∈ l.map Prod.fst
    · obtain ⟨hin, hsettled⟩ := h.settled v hv
      obtain ⟨hin', hsettled'⟩ := h'.settled v ((hlisted v).1 hv)
      have heq : t.factsOf v = t'.factsOf v := by
        refine hsettled.eq_of_areTrueOf hsettled' fun o => ?_
        rw [h.areTrueOf v o, h'.areTrueOf v o]
        simp only [hmem]
      rw [factsOf, factsOf, Std.ExtTreeMap.getD_eq_getD_getElem?,
        Std.ExtTreeMap.getD_eq_getD_getElem?] at heq
      obtain ⟨g, hg⟩ := Option.isSome_iff_exists.1 (Std.ExtTreeMap.mem_iff_isSome_getElem?.1 hin)
      obtain ⟨g', hg'⟩ := Option.isSome_iff_exists.1 (Std.ExtTreeMap.mem_iff_isSome_getElem?.1 hin')
      rw [hg, hg'] at heq ⊢
      exact congrArg some heq
    · rw [h.others v hv, h'.others v fun hv' => hv ((hlisted v).2 hv')]
  rcases t with ⟨_, _, _, _⟩
  rcases t' with ⟨_, _, _, _⟩
  obtain rfl := h.stack.trans h'.stack.symm
  obtain rfl := h.bindings.trans h'.bindings.symm
  obtain rfl := h.visits.trans h'.visits.symm
  obtain rfl := hfacts
  rfl

/-- Neither the order of the facts nor how often each is listed matters. -/
theorem recordAll?_congr (hmem : ∀ p, p ∈ l ↔ p ∈ l') : s.recordAll? l = s.recordAll? l' := by
  have hexists : (∃ t, s.recordAll? l = some t) ↔ ∃ t, s.recordAll? l' = some t := by
    simp only [exists_recordAll?_iff, List.mem_map, hmem]
  cases hl : s.recordAll? l with
  | none =>
    cases hl' : s.recordAll? l' with
    | none => rfl
    | some t' =>
      obtain ⟨t, ht⟩ := hexists.2 ⟨t', hl'⟩
      exact absurd (hl.symm.trans ht) (by simp)
  | some t =>
    obtain ⟨t', hl'⟩ := hexists.1 ⟨t, hl⟩
    rw [hl', (records_of_recordAll? hl).eq (records_of_recordAll? hl') hmem]

/-- Facts cannot be recorded exactly if what is known about a listed value and what is listed for it
exclude each other. -/
theorem recordAll?_eq_none_iff : s.recordAll? l = none ↔ ∃ v ∈ l.map Prod.fst,
    Contradictory fun c => c ∈ (s.factsOf v).toList ∨ (v, c) ∈ l := by
  have htogether : ∀ v, (∃ o, (s.factsOf v).areTrueOf o ∧ ∀ c, (v, c) ∈ l → c.isTrueOf o) ↔
      ¬Contradictory fun c => c ∈ (s.factsOf v).toList ∨ (v, c) ∈ l := by
    intro v
    simp only [not_contradictory_iff, or_imp, forall_and, Facts.areTrueOf, List.all_eq_true]
  have hexists := exists_recordAll?_iff (s := s) (l := l)
  simp only [htogether] at hexists
  constructor
  · intro hnone
    refine Classical.byContradiction fun hnot => ?_
    obtain ⟨t, ht⟩ := hexists.2 fun v hv hcontra => hnot ⟨v, hv, hcontra⟩
    exact absurd (hnone.symm.trans ht) (by simp)
  · rintro ⟨v, hv, hcontra⟩
    rw [Option.eq_none_iff_forall_ne_some]
    exact fun t ht => hexists.1 ⟨t, ht⟩ v hv hcontra

/-! ### States that do not contradict themselves -/

theorem consistent_iff : s.Consistent ↔ ∀ v, ∃ o, (s.factsOf v).areTrueOf o := by
  simp only [Consistent, not_contradictory_iff, Facts.areTrueOf, List.all_eq_true]

theorem consistent_initial : State.initial.Consistent :=
  consistent_iff.2 fun v =>
    ⟨_, (Valuation.extend_coherent fun _ => none).satisfies_initial v⟩

theorem Consistent.record? (hs : s.Consistent) {v : Value} {c : Constraint}
    (h : s.record? v c = some t) : t.Consistent := by
  rw [consistent_iff] at hs ⊢
  intro w
  have hfacts := factsOf_record? h w
  by_cases hvw : v = w
  · subst hvw
    rw [if_pos rfl] at hfacts
    obtain ⟨texture, htexture⟩ := (t.factsOf v).exists_open
    exact ⟨_, (Facts.adds_of_add? hfacts.symm).settled.areTrueOf_typical htexture⟩
  · rw [if_neg hvw, Option.some.injEq] at hfacts
    rw [hfacts]
    exact hs w

theorem Consistent.forgetIn (hs : s.Consistent) (v : Value) (d : Domain) :
    (s.forgetIn v d).Consistent := by
  rw [consistent_iff] at hs ⊢
  intro w
  obtain ⟨o, ho⟩ := hs w
  refine ⟨o, ?_⟩
  rw [factsOf_forgetIn]
  split
  · next hvw => exact hvw ▸ Facts.areTrueOf_without (hvw ▸ ho) d
  · exact ho

/-- In a state that does not contradict itself, only what is listed can make recording fail. -/
theorem Consistent.recordAll?_eq_none_iff (hs : s.Consistent) : s.recordAll? l = none ↔
    ∃ v, Contradictory fun c => c ∈ (s.factsOf v).toList ∨ (v, c) ∈ l := by
  rw [State.recordAll?_eq_none_iff]
  refine ⟨fun ⟨v, _, hcontra⟩ => ⟨v, hcontra⟩, fun ⟨v, hcontra⟩ => ⟨v, ?_, hcontra⟩⟩
  refine Classical.byContradiction fun hunlisted => hs v ?_
  have hnone : ∀ c, (v, c) ∉ l := fun c hc => hunlisted (List.mem_map_of_mem hc)
  simpa only [hnone, or_false] using hcontra

/-! ### Recording in any order -/

/-- Facts can be recorded in any order and as often as one likes: this changes neither whether they
can be recorded nor the state that results. They cannot be recorded exactly if for some listed value
what is known about it and what is listed for it exclude each other. In a state that does not
contradict itself this is never so for a value that is not listed. -/
theorem recordAll?_unordered (s : State) (l : List (Value × Constraint)) :
    (∀ l' : List (Value × Constraint), l'.Perm l → s.recordAll? l' = s.recordAll? l) ∧
    (∀ l' ⊆ l, s.recordAll? (l ++ l') = s.recordAll? l) ∧
    (s.recordAll? l = none ↔ ∃ v ∈ l.map Prod.fst,
      Contradictory fun c => c ∈ (s.factsOf v).toList ∨ (v, c) ∈ l) ∧
    (s.Consistent → (s.recordAll? l = none ↔
      ∃ v, Contradictory fun c => c ∈ (s.factsOf v).toList ∨ (v, c) ∈ l)) := by
  refine ⟨fun l' hperm => recordAll?_congr fun p => hperm.mem_iff,
    fun l' hsub => recordAll?_congr fun p => ?_, recordAll?_eq_none_iff,
    fun hs => hs.recordAll?_eq_none_iff⟩
  rw [List.mem_append]
  exact ⟨fun hp => hp.elim id fun hp => hsub hp, .inl⟩

/-- Of three shapes any two have a texture in common, but not all three: a text that is not empty,
that is empty or white space, and that is not white space alone. It does not matter whether the text
is still known not to be null. -/
theorem recordAll?_unordered_shapes :
    ∃ s : State, State.initial.record? (.unknown 0) (.string .notEmpty) = some s ∧
      (s.forgetIn (.unknown 0) .object).Consistent ∧
      (s.forgetIn (.unknown 0) .object).recordAll? [(.unknown 0, .string .emptyOrWhitespace),
        (.unknown 0, .string .notWhitespace)] = none ∧
      (s.forgetIn (.unknown 0) .object).recordAll? [(.unknown 0, .string .notWhitespace),
        (.unknown 0, .string .emptyOrWhitespace)] = none := by
  obtain ⟨s, hrecord, hfacts⟩ := exists_record?_unknown (n := 0)
    (show Facts.nothing.add? (.string .notEmpty) = some _ from rfl)
  have hs := (consistent_initial.record? hrecord).forgetIn (.unknown 0) .object
  obtain ⟨hperm, -, -, hfails⟩ := recordAll?_unordered (s.forgetIn (.unknown 0) .object)
    [(.unknown 0, .string .emptyOrWhitespace), (.unknown 0, .string .notWhitespace)]
  have hnone := (hfails hs).2 ⟨.unknown 0, .inr (.inr (.inr fun t => ?_))⟩
  · exact ⟨s, hrecord, hs, hnone, (hperm _ (.swap ..)).trans hnone⟩
  rw [factsOf_forgetIn, if_pos rfl, hfacts]
  cases t with
  | empty => exact ⟨.notEmpty, .inl (by decide), rfl⟩
  | blank => exact ⟨.notWhitespace, .inr (by simp), rfl⟩
  | full => exact ⟨.emptyOrWhitespace, .inr (by simp), rfl⟩

end State

end Pathwise
