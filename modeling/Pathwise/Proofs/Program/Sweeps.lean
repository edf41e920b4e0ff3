import Mathlib.Algebra.Order.BigOperators.Group.Finset
import Pathwise.Proofs.Program.Liveness

/-!
Live variables by sweeps. The live sets can also be settled in place. A sweep comes to the blocks in
some order and replaces the sets of each, so that the blocks after it see what was found; sweeps are
repeated until one changes nothing.

Live sets are ordered by inclusion. Recomputing all of them at once, `Liveness.carry`, respects this
order, and the analysis is the least that it leaves as it is. A sweep only adds to the sets, it adds
nothing that the analysis does not find, and it changes nothing only if nothing is left to find.
Whatever the order, sweeps therefore come to an end, and end with the analysis: `settles_sweep`.
-/

namespace Pathwise

/-! ### Repetition -/

/-- Repeating the step until it changes nothing leads from the one value to the other. -/
inductive Settles {α : Type} (step : α → α) : α → α → Prop where
  | still {x : α} (h : step x = x) : Settles step x x
  | again {x y : α} (h : step x ≠ x) (hrest : Settles step (step x) y) : Settles step x y

/-- A step that makes something greater or changes nothing cannot be repeated forever if there is a
bound. -/
theorem exists_settles {α : Type} {step : α → α} {P : α → Prop} (size : α → Nat) (bound : Nat)
    (hkeeps : ∀ x, P x → P (step x)) (hgrows : ∀ x, P x → step x ≠ x → size x < size (step x))
    (hbound : ∀ x, P x → size x ≤ bound) {x : α} (hx : P x) :
    ∃ y, P y ∧ step y = y ∧ Settles step x y := by
  by_cases hstill : step x = x
  · exact ⟨x, hx, hstill, .still hstill⟩
  · have hlt := hgrows x hx hstill
    have hle := hbound _ (hkeeps x hx)
    obtain ⟨y, hy, hend, hsettles⟩ := exists_settles size bound hkeeps hgrows hbound (hkeeps x hx)
    exact ⟨y, hy, hend, .again hstill hsettles⟩
termination_by bound - size x

/-! ### The order of live sets -/

/-- The sets of as many blocks, each included in its counterpart. -/
structure Included (xs ys : List (List SymbolId)) : Prop where
  length : xs.length = ys.length
  entry : ∀ index : Nat, (xs[index]?.getD []).Sublist (ys[index]?.getD [])

namespace Included

variable {xs ys zs : List (List SymbolId)}

theorem refl (xs : List (List SymbolId)) : Included xs xs := ⟨rfl, fun _ => .refl _⟩

theorem trans (h : Included xs ys) (h' : Included ys zs) : Included xs zs :=
  ⟨h.length.trans h'.length, fun index => (h.entry index).trans (h'.entry index)⟩

theorem antisymm (h : Included xs ys) (h' : Included ys xs) : xs = ys := by
  refine List.ext_getElem h.length fun index hx hy => ?_
  have hentry := (h.entry index).antisymm (h'.entry index)
  simpa [hx, hy] using hentry

theorem map {blocks : List BlockSummary} {f g : BlockSummary → List SymbolId}
    (h : ∀ b, (f b).Sublist (g b)) : Included (blocks.map f) (blocks.map g) where
  length := by simp
  entry index := by
    rw [List.getElem?_map, List.getElem?_map]
    cases blocks[index]? with
    | none => exact .refl _
    | some b => exact h b

/-- Replacing a set by its counterpart only adds to it. -/
theorem set_right (h : Included xs ys) (index : Nat) :
    Included xs (xs.set index (ys[index]?.getD [])) where
  length := by simp
  entry i := by
    rw [List.getElem?_set]
    split
    · next hi =>
      subst hi
      split
      · exact h.entry index
      · next hlength => simp [List.getElem?_eq_none (Nat.le_of_not_lt hlength)]
    · exact .refl _

/-- Replacing a set by its counterpart adds nothing else. -/
theorem set_left (h : Included xs ys) (index : Nat) :
    Included (xs.set index (ys[index]?.getD [])) ys where
  length := by simp [h.length]
  entry i := by
    rw [List.getElem?_set]
    split
    · next hi =>
      subst hi
      split
      · exact .refl _
      · exact List.nil_sublist _
    · exact h.entry i

/-- How many symbols the sets have in all. -/
def size (xs : List (List SymbolId)) : Nat :=
  ∑ index ∈ Finset.range xs.length, (xs[index]?.getD []).length

theorem size_le (h : Included xs ys) : size xs ≤ size ys := by
  rw [size, size, h.length]
  exact Finset.sum_le_sum fun index _ => (h.entry index).length_le

/-- Sets that include others and have no more symbols are the same. -/
theorem eq_of_size_eq (h : Included xs ys) (hsize : size xs = size ys) : xs = ys := by
  rw [size, size, h.length,
    Finset.sum_eq_sum_iff_of_le fun index _ => (h.entry index).length_le] at hsize
  refine List.ext_getElem h.length fun index hx hy => ?_
  have hentry := (h.entry index).eq_of_length (hsize index (Finset.mem_range.2 hy))
  simpa [hx, hy] using hentry

end Included

namespace Liveness

variable {blocks : List BlockSummary} {l m : Liveness} {index : Nat}

/-- Live variables are ordered by inclusion. -/
instance : PartialOrder Liveness where
  le l m := l.tracked = m.tracked ∧ Included l.ins m.ins ∧ Included l.outs m.outs
  le_refl l := ⟨rfl, .refl _, .refl _⟩
  le_trans _ _ _ h h' := ⟨h.1.trans h'.1, h.2.1.trans h'.2.1, h.2.2.trans h'.2.2⟩
  le_antisymm l m h h' := by
    cases l; cases m
    obtain ⟨rfl, hins, houts⟩ := h
    rw [Liveness.mk.injEq]
    exact ⟨rfl, hins.antisymm h'.2.1, houts.antisymm h'.2.2⟩

/-- How many symbols are found live, on entry and on exit, in all. -/
def size (l : Liveness) : Nat := Included.size l.ins + Included.size l.outs

theorem size_le_of_le (h : l ≤ m) : l.size ≤ m.size :=
  Nat.add_le_add h.2.1.size_le h.2.2.size_le

theorem size_lt_of_lt (h : l < m) : l.size < m.size := by
  obtain ⟨hle, hne⟩ := lt_iff_le_and_ne.1 h
  refine lt_of_le_of_ne (size_le_of_le hle) fun hsize => hne ?_
  obtain ⟨htracked, hins, houts⟩ := hle
  have hins_le := hins.size_le
  have houts_le := houts.size_le
  unfold size at hsize
  cases l; cases m
  rw [Liveness.mk.injEq]
  exact ⟨htracked, hins.eq_of_size_eq (by omega), houts.eq_of_size_eq (by omega)⟩

/-! ### Recomputing the sets -/

theorem liveOut_sublist {tracked : List SymbolId} {xs ys : List (List SymbolId)}
    (h : Included xs ys) (b : BlockSummary) :
    (b.liveOut tracked xs).Sublist (b.liveOut tracked ys) := by
  refine List.monotone_filter_right tracked fun s hs => ?_
  rw [List.any_eq_true] at hs ⊢
  obtain ⟨target, htarget, hmem⟩ := hs
  rw [List.contains_iff_mem] at hmem
  exact ⟨target, htarget, List.contains_iff_mem.2 ((h.entry target.index).subset hmem)⟩

theorem liveIn_sublist {tracked : List SymbolId} {xs ys : List (List SymbolId)}
    (h : Included xs ys) (b : BlockSummary) :
    (b.liveIn tracked xs).Sublist (b.liveIn tracked ys) := by
  refine List.monotone_filter_right tracked fun s hs => ?_
  simp only [Bool.or_eq_true, Bool.and_eq_true, List.contains_iff_mem] at hs ⊢
  exact hs.imp_right fun hs => ⟨hs.1, (liveOut_sublist h b).subset hs.2⟩

/-- Recomputes the sets of all blocks at once. -/
def carry (blocks : List BlockSummary) (l : Liveness) : Liveness :=
  ⟨l.tracked, round l.tracked blocks l.ins, blocks.map (BlockSummary.liveOut l.tracked l.ins)⟩

theorem carry_mono (blocks : List BlockSummary) : Monotone (carry blocks) := by
  intro l m h
  obtain ⟨htracked, hins, _⟩ := h
  refine ⟨htracked, ?_, ?_⟩
  · rw [carry, carry, htracked]
    exact .map (liveIn_sublist hins)
  · rw [carry, carry, htracked]
    exact .map (liveOut_sublist hins)

/-- Recomputes the sets of one block in place. -/
def revisit (blocks : List BlockSummary) (l : Liveness) (index : Nat) : Liveness :=
  match blocks[index]? with
  | none => l
  | some b =>
    { l with
      ins := l.ins.set index (b.liveIn l.tracked l.ins)
      outs := l.outs.set index (b.liveOut l.tracked l.ins) }

/-- Comes to the blocks in the given order, such as from the last to the first, and recomputes the
sets of each. -/
def sweep (blocks : List BlockSummary) (order : List Nat) (l : Liveness) : Liveness :=
  order.foldl (revisit blocks) l

theorem length_of_le_carry (h : l ≤ carry blocks l) :
    l.ins.length = blocks.length ∧ l.outs.length = blocks.length := by
  rw [h.2.1.length, h.2.2.length, carry, round, List.length_map, List.length_map]
  exact ⟨rfl, rfl⟩

/-- As long as recomputing the sets only adds to them, a visit takes the sets of its block from the
recomputed ones. -/
theorem revisit_eq (h : l ≤ carry blocks l) (index : Nat) :
    revisit blocks l index =
      { l with
        ins := l.ins.set index ((carry blocks l).ins[index]?.getD [])
        outs := l.outs.set index ((carry blocks l).outs[index]?.getD []) } := by
  obtain ⟨hins, houts⟩ := length_of_le_carry h
  unfold revisit carry round
  cases hb : blocks[index]? with
  | none =>
    have hlength : blocks.length ≤ index := List.getElem?_eq_none_iff.1 hb
    rw [List.set_eq_of_length_le (hins.trans_le hlength),
      List.set_eq_of_length_le (houts.trans_le hlength)]
  | some b => simp [hb]

theorem le_revisit (h : l ≤ carry blocks l) (index : Nat) : l ≤ revisit blocks l index := by
  rw [revisit_eq h]
  exact ⟨rfl, h.2.1.set_right index, h.2.2.set_right index⟩

theorem revisit_le_carry (h : l ≤ carry blocks l) (index : Nat) :
    revisit blocks l index ≤ carry blocks l := by
  rw [revisit_eq h]
  exact ⟨rfl, h.2.1.set_left index, h.2.2.set_left index⟩

/-- After a visit, too, recomputing the sets only adds to them. -/
theorem revisit_le_carry_revisit (h : l ≤ carry blocks l) (index : Nat) :
    revisit blocks l index ≤ carry blocks (revisit blocks l index) :=
  (revisit_le_carry h index).trans (carry_mono blocks (le_revisit h index))

/-- If a visit changes nothing, then recomputing the sets of the block adds nothing. -/
theorem entry_of_revisit_eq (h : l ≤ carry blocks l) (hindex : index < blocks.length)
    (hsame : revisit blocks l index = l) :
    (carry blocks l).ins[index]?.getD [] = l.ins[index]?.getD [] ∧
      (carry blocks l).outs[index]?.getD [] = l.outs[index]?.getD [] := by
  obtain ⟨hins, houts⟩ := length_of_le_carry h
  rw [revisit_eq h] at hsame
  have hins_same := congrArg (fun m => m.ins[index]?.getD []) hsame
  have houts_same := congrArg (fun m => m.outs[index]?.getD []) hsame
  rw [List.getElem?_set_self (hindex.trans_eq hins.symm)] at hins_same
  rw [List.getElem?_set_self (hindex.trans_eq houts.symm)] at houts_same
  exact ⟨hins_same, houts_same⟩

/-! ### Sweeps -/

/-- A sweep only adds to the sets, and keeps it so that recomputing them only adds to them. -/
theorem le_sweep (h : l ≤ carry blocks l) (order : List Nat) :
    l ≤ sweep blocks order l ∧ sweep blocks order l ≤ carry blocks (sweep blocks order l) := by
  induction order generalizing l with
  | nil => exact ⟨le_rfl, h⟩
  | cons index rest ih =>
    obtain ⟨hle, hcarry⟩ := ih (revisit_le_carry_revisit h index)
    exact ⟨(le_revisit h index).trans hle, hcarry⟩

/-- A sweep stays within sets that recomputing leaves as they are. -/
theorem sweep_le (hm : carry blocks m = m) (h : l ≤ carry blocks l) (hle : l ≤ m)
    (order : List Nat) : sweep blocks order l ≤ m := by
  induction order generalizing l with
  | nil => exact hle
  | cons index rest ih =>
    have hcarry : carry blocks l ≤ m := (carry_mono blocks hle).trans_eq hm
    exact ih (revisit_le_carry_revisit h index) ((revisit_le_carry h index).trans hcarry)

/-- A sweep changes nothing only if each of its visits changes nothing. -/
theorem revisit_eq_of_sweep_eq (h : l ≤ carry blocks l) {order : List Nat}
    (hsame : sweep blocks order l = l) : ∀ index ∈ order, revisit blocks l index = l := by
  induction order with
  | nil => simp
  | cons first rest ih =>
    -- what the first visit adds is still there after the sweep, so it adds nothing
    have hlater := (le_sweep (revisit_le_carry_revisit h first) rest).1
    have hfirst : revisit blocks l first = l :=
      (hlater.trans_eq hsame).antisymm (le_revisit h first)
    have hrest : sweep blocks rest l = l := by
      have hsame' : sweep blocks rest (revisit blocks l first) = l := hsame
      rwa [hfirst] at hsame'
    intro index hindex
    rcases List.mem_cons.1 hindex with rfl | hindex
    · exact hfirst
    · exact ih hrest index hindex

/-- A sweep over all blocks changes nothing only if recomputing changes nothing. -/
theorem carry_eq_of_sweep_eq (h : l ≤ carry blocks l) {order : List Nat}
    (horder : ∀ index < blocks.length, index ∈ order) (hsame : sweep blocks order l = l) :
    carry blocks l = l := by
  have hentry : ∀ index : Nat,
      (carry blocks l).ins[index]?.getD [] = l.ins[index]?.getD [] ∧
        (carry blocks l).outs[index]?.getD [] = l.outs[index]?.getD [] := by
    intro index
    by_cases hindex : index < blocks.length
    · have hvisit := revisit_eq_of_sweep_eq h hsame index (horder index hindex)
      exact entry_of_revisit_eq h hindex hvisit
    · obtain ⟨hins, houts⟩ := length_of_le_carry h
      simp [carry, round, hins, houts, Nat.le_of_not_lt hindex]
  have hle : carry blocks l ≤ l :=
    ⟨rfl, ⟨h.2.1.length.symm, fun index => (hentry index).1 ▸ .refl _⟩,
      ⟨h.2.2.length.symm, fun index => (hentry index).2 ▸ .refl _⟩⟩
  exact hle.antisymm h

/-- The sets before any sweep, when nothing is found live yet. -/
def unswept (tracked : List SymbolId) (blocks : List BlockSummary) : Liveness :=
  ⟨tracked, blocks.map fun _ => [], blocks.map fun _ => []⟩

theorem unswept_le_carry (blocks : List BlockSummary) (l : Liveness) :
    unswept l.tracked blocks ≤ carry blocks l :=
  ⟨rfl, .map fun _ => List.nil_sublist _, .map fun _ => List.nil_sublist _⟩

/-- Sweeps that come to every block end with the least sets that recomputing leaves as they are. -/
theorem settles_of_least (hm : carry blocks m = m)
    (hleast : ∀ l, l.tracked = m.tracked → carry blocks l = l → m ≤ l) {order : List Nat}
    (horder : ∀ index < blocks.length, index ∈ order) :
    Settles (sweep blocks order) (unswept m.tracked blocks) m := by
  -- sweeps keep to sets that recomputing only adds to and that lie within the least settled ones
  have hstart : unswept m.tracked blocks ≤ carry blocks (unswept m.tracked blocks) ∧
      unswept m.tracked blocks ≤ m :=
    ⟨unswept_le_carry blocks (unswept m.tracked blocks), (unswept_le_carry blocks m).trans_eq hm⟩
  obtain ⟨l, ⟨hrising, hle⟩, hsame, hsettles⟩ : ∃ l, (l ≤ carry blocks l ∧ l ≤ m) ∧
      sweep blocks order l = l ∧ Settles (sweep blocks order) (unswept m.tracked blocks) l := by
    refine exists_settles size m.size (fun l hl => ?_) (fun l hl hne => ?_) (fun l hl => ?_) hstart
    · exact ⟨(le_sweep hl.1 order).2, sweep_le hm hl.1 hl.2 order⟩
    · exact size_lt_of_lt (lt_of_le_of_ne (le_sweep hl.1 order).1 hne.symm)
    · exact size_le_of_le hl.2
  have hl : carry blocks l = l := carry_eq_of_sweep_eq hrising horder hsame
  have heq : l = m := hle.antisymm (hleast l hle.1 hl)
  exact heq ▸ hsettles

/-! ### The analysis -/

/-- The rounds hold each symbol in the blocks where they find it, in the order of the tracked
symbols. -/
theorem getElem?_rounds (tracked : List SymbolId) (blocks : List BlockSummary) (n : Nat)
    (hindex : index < blocks.length) :
    (rounds tracked blocks n)[index]? =
      some (tracked.filter fun id => index ∈ found tracked blocks id n) := by
  cases n with
  | zero => simp [rounds, hindex, found_zero]
  | succ n =>
    have hb : blocks[index]? = some blocks[index] := List.getElem?_eq_getElem hindex
    rw [rounds, round, List.getElem?_map, hb, Option.map_some, Option.some_inj]
    refine List.filter_congr fun id hid => ?_
    rw [Bool.eq_iff_iff, decide_eq_true_iff, mem_found_succ]
    simp [mem_liveOut, hb, hid]

theorem rounds_length_eq_succ (tracked : List SymbolId) (blocks : List BlockSummary) :
    rounds tracked blocks (blocks.length + 1) = rounds tracked blocks blocks.length := by
  refine List.ext_getElem? fun index => ?_
  by_cases hindex : index < blocks.length
  · rw [getElem?_rounds _ _ _ hindex, getElem?_rounds _ _ _ hindex]
    simp only [found_length_eq_succ]
  · rw [List.getElem?_eq_none (by rw [length_rounds]; omega),
      List.getElem?_eq_none (by rw [length_rounds]; omega)]

/-- Recomputing leaves the analysis as it is. -/
theorem carry_analyze (g : Graph) : carry g.summaries (analyze g) = analyze g := by
  rw [analyze_eq, carry, ← rounds, rounds_length_eq_succ]

theorem rounds_included (hl : carry blocks l = l) (n : Nat) :
    Included (rounds l.tracked blocks n) l.ins := by
  have hins : round l.tracked blocks l.ins = l.ins := congrArg Liveness.ins hl
  induction n with
  | zero =>
    rw [← hins, rounds, round]
    exact .map fun b => List.nil_sublist _
  | succ n ih =>
    rw [← hins, rounds, round, round]
    exact .map (liveIn_sublist ih)

/-- The analysis is the least that recomputing leaves as it is. -/
theorem analyze_le {g : Graph} (htracked : l.tracked = g.trackedSymbols)
    (hl : carry g.summaries l = l) : analyze g ≤ l := by
  have hins := rounds_included hl g.summaries.length
  have houts : (carry _ l).outs = l.outs := congrArg Liveness.outs hl
  rw [htracked] at hins
  refine ⟨htracked.symm, hins, ?_⟩
  rw [← houts, carry, htracked]
  exact .map (liveOut_sublist hins)

/-- Sweeps that come to every block end, in whatever order, with the analysis. -/
theorem settles_sweep (g : Graph) {order : List Nat}
    (horder : ∀ index < g.blocks.length, index ∈ order) :
    Settles (sweep g.summaries order) (unswept g.trackedSymbols g.summaries) (analyze g) :=
  settles_of_least (carry_analyze g) (fun _ => analyze_le) (by simpa using horder)

end Liveness

end Pathwise
