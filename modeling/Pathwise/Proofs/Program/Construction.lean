import Mathlib.Data.List.Induction
import Pathwise.Proofs.Program.Closed

/-!
Which drafts are closed into graphs, and into which. A draft is made by calls, in any order: symbols
are declared, blocks and the exit are reserved, and blocks are defined, perhaps before they are
reserved, again and again, or without ever being reserved. What a draft amounts to is told here by
the calls alone. An id is reserved if some call returned it (`Reserved`). A block is given what it
was last defined with while it was reserved, and the exit is given a block of its own until it is
defined (`Gives`).

A draft fails to be a graph if no exit was asked for, if it is to be entered at an id that was not
reserved, or if some block leaves a gap (`Gap`). Where several things are wrong, the first of them
in this order is reported, and of the gaps the one of the first block.
-/

namespace Pathwise

/-- The ids of the parameters, in order of declaration. -/
def SymbolTable.parameterIds (t : SymbolTable) : List SymbolId :=
  t.ids.filter fun id => (t.get? id).any fun s => s.kind = .parameter

/-- One symbol more is a parameter more if it is of this kind. -/
theorem SymbolTable.parameterIds_add (t : SymbolTable) (s : Symbol) :
    (t.add s).1.parameterIds =
      t.parameterIds ++ if s.kind = .parameter then [⟨t.size⟩] else [] := by
  have hids : (t.add s).1.ids = t.ids ++ [⟨t.size⟩] := by
    simp [ids, add, size, List.range_succ]
  have hold : ∀ id ∈ t.ids, (t.add s).1.get? id = t.get? id := by
    intro id hid
    obtain ⟨i, hi, rfl⟩ := List.mem_map.1 hid
    exact List.getElem?_append_left (List.mem_range.1 hi)
  have hnew : (t.add s).1.get? ⟨t.size⟩ = some s := List.getElem?_concat_length
  rw [parameterIds, hids, List.filter_append, parameterIds]
  congr 1
  · exact List.filter_congr fun id hid => by rw [hold id hid]
  · simp [List.filter_cons, hnew]

namespace Draft

/-! ### Calls -/

/-- A call that works on a draft. -/
inductive Call where
  | declare (s : Symbol)
  | reserve
  | reserveExit
  | define (id : BlockId) (block : Block)

/-- The symbol that a call declares. -/
def Call.symbol? : Call → Option Symbol
  | .declare s => some s
  | _ => none

/-- What a call makes of a draft. -/
def call (d : Draft) : Call → Draft
  | .declare s => (d.declare s).1
  | .reserve => d.reserve.1
  | .reserveExit => d.reserveExit.1
  | .define id block => d.define id block

/-- The id that a call returns, if it asks for a block. -/
def granted? (d : Draft) : Call → Option BlockId
  | .reserve => some d.reserve.2
  | .reserveExit => some d.reserveExit.2
  | .declare _ | .define .. => none

/-- The draft that calls make, one after the other. -/
def ofCalls (method : String) (calls : List Call) : Draft := calls.foldl call (new method)

/-! ### What calls amount to -/

section Amount

variable (method : String) (calls : List Call)

/-- Some call returned the id. -/
def Reserved (id : BlockId) : Prop :=
  ∃ before c after, calls = before ++ c :: after ∧ (ofCalls method before).granted? c = some id

/-- The contents that calls give to a block. -/
inductive Gives (id : BlockId) : Block → Prop where
  /-- What a block was last defined with, if it was reserved by then. -/
  | defined {before after : List Call} {block : Block}
      (hcalls : calls = before ++ .define id block :: after) (hreserved : Reserved method before id)
      (hlast : ∀ b, .define id b ∉ after) : Gives id block
  /-- The exit that was not defined since it was first asked for. -/
  | exit {before after : List Call} (hcalls : calls = before ++ .reserveExit :: after)
      (hfirst : .reserveExit ∉ before) (hid : (ofCalls method before).reserveExit.2 = id)
      (hkept : ∀ b, .define id b ∉ after) : Gives id exitBlock

/-- What keeps a block out of a graph, named by the id that is missing. -/
inductive Gap (id : BlockId) : BlockId → Prop where
  /-- The block was reserved, and was given nothing. -/
  | undefined (hreserved : Reserved method calls id) (hnothing : ∀ b, ¬Gives method calls id b) :
      Gap id id
  /-- The first successor of the block that was not reserved. -/
  | dangling {b : Block} {before after : List BlockId} {target : BlockId}
      (hgives : Gives method calls id b)
      (hsuccessors : b.terminator.successors = before ++ target :: after)
      (hbefore : ∀ t ∈ before, Reserved method calls t) (htarget : ¬Reserved method calls target) :
      Gap id target

/-- The gap of the first block that leaves one. -/
def FirstGap (target : BlockId) : Prop :=
  ∃ id, Gap method calls id target ∧ ∀ id', id'.index < id.index → ∀ t, ¬Gap method calls id' t

/-- The graph is the one that the calls describe. -/
structure Describes (entry : BlockId) (g : Graph) : Prop where
  named : g.method = method
  entered : g.entry = entry
  /-- Whenever the exit was asked for, the call returned it. -/
  exit : ∀ before after, calls = before ++ .reserveExit :: after →
    (ofCalls method before).reserveExit.2 = g.exit
  /-- The blocks that were reserved are there, each under its id, and no others. -/
  reserved : ∀ id, Reserved method calls id ↔ id.index < g.blocks.length
  /-- Each block has what it was given. -/
  block : ∀ id b, g.block? id = some b ↔ Gives method calls id b
  /-- Control does not leave the graph. -/
  closed : g.Closed
  exit_lt : g.exit.index < g.blocks.length
  /-- The symbols are those that were declared, in this order. -/
  symbols : g.symbols.symbols = calls.filterMap Call.symbol?
  /-- The parameters are the symbols of this kind, in the same order. -/
  parameters : g.parameters = g.symbols.parameterIds

end Amount

variable {method : String} {calls before after : List Call} {c : Call} {id : BlockId} {b : Block}
  {d : Draft}

/-! ### One call more -/

theorem ofCalls_concat (method : String) (calls : List Call) (c : Call) :
    ofCalls method (calls ++ [c]) = (ofCalls method calls).call c := by
  rw [ofCalls, List.foldl_append]
  rfl

/-- A call among some calls and one more is that one, or among the others. -/
theorem concat_eq_iff {x : Call} : calls ++ [c] = before ++ x :: after ↔
    (before = calls ∧ x = c ∧ after = []) ∨
      ∃ rest, after = rest ++ [c] ∧ calls = before ++ x :: rest := by
  constructor
  · intro h
    rcases List.eq_nil_or_concat after with rfl | ⟨rest, last, rfl⟩
    · obtain ⟨rfl, rfl⟩ := List.append_singleton_inj.1 h
      exact .inl ⟨rfl, rfl, rfl⟩
    · rw [List.concat_eq_append, ← List.cons_append, ← List.append_assoc] at h
      obtain ⟨rfl, rfl⟩ := List.append_singleton_inj.1 h
      exact .inr ⟨rest, List.concat_eq_append, rfl⟩
  · rintro (⟨rfl, rfl, rfl⟩ | ⟨rest, rfl, rfl⟩)
    · rfl
    · simp

theorem reserved_concat : Reserved method (calls ++ [c]) id ↔
    Reserved method calls id ∨ (ofCalls method calls).granted? c = some id := by
  constructor
  · rintro ⟨before, x, after, hcalls, hgranted⟩
    rcases concat_eq_iff.1 hcalls with ⟨rfl, rfl, rfl⟩ | ⟨rest, -, rfl⟩
    · exact .inr hgranted
    · exact .inl ⟨before, x, rest, rfl, hgranted⟩
  · rintro (⟨before, x, after, rfl, hgranted⟩ | hgranted)
    · exact ⟨before, x, after ++ [c], by simp, hgranted⟩
    · exact ⟨calls, c, [], rfl, hgranted⟩

/-- One call more defines the block, asks for the exit for the first time, or leaves to the block
what it was given before. -/
theorem gives_concat : Gives method (calls ++ [c]) id b ↔
    (c = .define id b ∧ Reserved method calls id) ∨
    (c = .reserveExit ∧ .reserveExit ∉ calls ∧ (ofCalls method calls).reserveExit.2 = id ∧
      b = exitBlock) ∨
    (Gives method calls id b ∧ ∀ b', c ≠ .define id b') := by
  constructor
  · rintro (⟨hcalls, hreserved, hlast⟩ | ⟨hcalls, hfirst, hid, hkept⟩)
    · rcases concat_eq_iff.1 hcalls with ⟨rfl, rfl, rfl⟩ | ⟨rest, rfl, rfl⟩
      · exact .inl ⟨rfl, hreserved⟩
      · simp only [List.mem_append, List.mem_singleton, not_or] at hlast
        exact .inr (.inr ⟨.defined rfl hreserved fun b => (hlast b).1,
          fun b' => Ne.symm (hlast b').2⟩)
    · rcases concat_eq_iff.1 hcalls with ⟨rfl, rfl, rfl⟩ | ⟨rest, rfl, rfl⟩
      · exact .inr (.inl ⟨rfl, hfirst, hid, rfl⟩)
      · simp only [List.mem_append, List.mem_singleton, not_or] at hkept
        exact .inr (.inr ⟨.exit rfl hfirst hid fun b => (hkept b).1,
          fun b' => Ne.symm (hkept b').2⟩)
  · rintro (⟨rfl, hreserved⟩ | ⟨rfl, hfirst, hid, rfl⟩ | ⟨hgives, hne⟩)
    · exact .defined rfl hreserved (by simp)
    · exact .exit rfl hfirst hid (by simp)
    · have hlast : ∀ {after : List Call}, (∀ b, .define id b ∉ after) →
          ∀ b, .define id b ∉ after ++ [c] := by
        intro after hafter b hb
        rcases List.mem_append.1 hb with hb | hb
        · exact hafter b hb
        · exact hne b (List.mem_singleton.1 hb).symm
      cases hgives with
      | defined hcalls hreserved hafter =>
        exact .defined (by rw [hcalls]; simp) hreserved (hlast hafter)
      | exit hcalls hfirst hid hafter =>
        exact .exit (by rw [hcalls]; simp) hfirst hid (hlast hafter)

/-! ### The exit -/

theorem reserveExit_of_some {e : BlockId} (h : d.exit = some e) : d.reserveExit = (d, e) := by
  rw [reserveExit, h]

theorem reserveExit_of_none (h : d.exit = none) : d.reserveExit =
    ({ d with blocks := d.blocks ++ [some exitBlock], exit := some ⟨d.blocks.length⟩ },
      ⟨d.blocks.length⟩) := by
  rw [reserveExit, h]

/-- Once there is an exit, it stays. -/
theorem exit_call {e : BlockId} (h : d.exit = some e) (c : Call) : (d.call c).exit = some e := by
  cases c with
  | declare | reserve | define => exact h
  | reserveExit =>
    rw [call, reserveExit_of_some h]
    exact h

theorem exit_foldl {e : BlockId} (h : d.exit = some e) (calls : List Call) :
    (calls.foldl call d).exit = some e := by
  induction calls generalizing d with
  | nil => exact h
  | cons c calls ih => exact ih (exit_call h c)

/-- A call that asks for the exit returns the one that there is from then on. -/
theorem exit_reserveExit (d : Draft) : d.reserveExit.1.exit = some d.reserveExit.2 := by
  cases h : d.exit with
  | none => rw [reserveExit_of_none h]
  | some e =>
    rw [reserveExit_of_some h]
    exact h

theorem exit_ofCalls (hcalls : calls = before ++ .reserveExit :: after) :
    (ofCalls method calls).exit = some (ofCalls method before).reserveExit.2 := by
  rw [hcalls, ofCalls, List.foldl_append, List.foldl_cons]
  exact exit_foldl (exit_reserveExit _) after

theorem exit_eq_none_iff : (ofCalls method calls).exit = none ↔ .reserveExit ∉ calls := by
  constructor
  · intro hnone hmem
    obtain ⟨before, after, hcalls⟩ := List.append_of_mem hmem
    rw [exit_ofCalls hcalls] at hnone
    cases hnone
  · induction calls using List.reverseRecOn with
    | nil => exact fun _ => rfl
    | append_singleton calls c ih =>
      intro hmem
      rw [List.mem_append, List.mem_singleton, not_or] at hmem
      rw [ofCalls_concat]
      cases c with
      | declare | reserve | define => exact ih hmem.1
      | reserveExit => exact absurd rfl hmem.2

theorem exists_exit_iff : (∃ e, (ofCalls method calls).exit = some e) ↔ .reserveExit ∈ calls := by
  rw [← Option.ne_none_iff_exists', Ne, exit_eq_none_iff, Classical.not_not]

theorem exit_lt_length : ∀ e, (ofCalls method calls).exit = some e →
    e.index < (ofCalls method calls).blocks.length := by
  induction calls using List.reverseRecOn with
  | nil => exact fun e he => absurd he (by simp [ofCalls, new])
  | append_singleton calls c ih =>
    rw [ofCalls_concat]
    intro e he
    cases c with
    | declare => exact ih e he
    | reserve =>
      have hlt := ih e he
      simp only [call, Draft.reserve, List.length_append, List.length_singleton]
      omega
    | define id block =>
      have hlt := ih e he
      simpa [call, define] using hlt
    | reserveExit =>
      cases hexit : (ofCalls method calls).exit with
      | none =>
        rw [call, reserveExit_of_none hexit] at he ⊢
        obtain rfl := Option.some.inj he
        simp
      | some old =>
        rw [call, reserveExit_of_some hexit] at he ⊢
        exact ih e he

/-! ### Blocks -/

/-- The reserved ids are those of the places in the list of blocks. -/
theorem reserved_iff :
    Reserved method calls id ↔ id.index < (ofCalls method calls).blocks.length := by
  induction calls using List.reverseRecOn with
  | nil => simp [Reserved, ofCalls, new]
  | append_singleton calls c ih =>
    have hnext : ∀ n : Nat, (id.index < n ∨ some (BlockId.mk n) = some id) ↔ id.index < n + 1 := by
      intro n
      rcases id with ⟨i⟩
      simp only [Option.some.injEq, BlockId.mk.injEq]
      omega
    rw [reserved_concat, ih, ofCalls_concat]
    cases c with
    | declare s => simp [granted?, call, Draft.declare]
    | reserve =>
      simp only [granted?, call, Draft.reserve, List.length_append, List.length_singleton]
      exact hnext _
    | define id' block => simp [granted?, call, define]
    | reserveExit =>
      rw [granted?, call]
      cases hexit : (ofCalls method calls).exit with
      | none =>
        rw [reserveExit_of_none hexit]
        simp only [List.length_append, List.length_singleton]
        exact hnext _
      | some e =>
        -- the exit is returned again, and was reserved when it was first asked for
        rw [reserveExit_of_some hexit]
        refine or_iff_left_of_imp fun he => ?_
        obtain rfl := Option.some.inj he
        exact exit_lt_length _ hexit

/-- In each place stands what its block was given. -/
theorem gives_iff : Gives method calls id b ↔
    (ofCalls method calls).blocks[id.index]? = some (some b) := by
  induction calls using List.reverseRecOn with
  | nil =>
    refine iff_of_false ?_ (by simp [ofCalls, new])
    rintro (⟨hcalls, -, -⟩ | ⟨hcalls, -, -, -⟩)
    · simp at hcalls
    · simp at hcalls
  | append_singleton calls c ih =>
    rw [gives_concat, ofCalls_concat, ih]
    cases c with
    | declare s => simp [call, Draft.declare]
    | reserve =>
      simp only [call, Draft.reserve, List.getElem?_append, reduceCtorEq, false_and, ne_eq,
        not_false_eq_true, implies_true, and_true, false_or]
      split
      · rfl
      · next hlt =>
        refine iff_of_false (by simp [List.getElem?_eq_none (Nat.not_lt.1 hlt)]) ?_
        cases id.index - (ofCalls method calls).blocks.length <;> simp
    | define id' block =>
      rw [reserved_iff]
      simp only [call, define, List.getElem?_set, Call.define.injEq, reduceCtorEq, false_and,
        false_or, ne_eq, not_and]
      by_cases hid : id' = id
      · subst hid
        by_cases hlt : id'.index < (ofCalls method calls).blocks.length
        · simp [hlt]
        · simp [hlt]
      · have hindex : id'.index ≠ id.index := by
          rcases id with ⟨i⟩
          rcases id' with ⟨i'⟩
          simpa using hid
        simp [hid, hindex]
    | reserveExit =>
      rw [call]
      cases hexit : (ofCalls method calls).exit with
      | none =>
        have hfirst := exit_eq_none_iff.1 hexit
        rw [reserveExit_of_none hexit]
        simp only [List.getElem?_append, reduceCtorEq, false_and, false_or, hfirst,
          not_false_eq_true, true_and, ne_eq, implies_true, and_true]
        split
        · next hlt =>
          refine or_iff_right ?_
          rintro ⟨rfl, -⟩
          exact absurd hlt (Nat.lt_irrefl _)
        · next hlt =>
          rw [List.getElem?_eq_none (Nat.not_lt.1 hlt)]
          rcases id with ⟨i⟩
          simp only [BlockId.mk.injEq, reduceCtorEq, or_false, List.getElem?_singleton] at hlt ⊢
          by_cases hi : (ofCalls method calls).blocks.length = i
          · subst hi
            simp [eq_comm]
          · have hbeyond : i - (ofCalls method calls).blocks.length ≠ 0 := by omega
            simp [hi, hbeyond]
      | some e =>
        rw [reserveExit_of_some hexit]
        simp [exists_exit_iff.1 ⟨e, hexit⟩]

/-! ### Symbols -/

theorem method_ofCalls : (ofCalls method calls).method = method := by
  induction calls using List.reverseRecOn with
  | nil => rfl
  | append_singleton calls c ih =>
    rw [ofCalls_concat]
    cases c with
    | declare | reserve | define => exact ih
    | reserveExit =>
      rw [call, reserveExit]
      split <;> exact ih

theorem symbols_ofCalls :
    (ofCalls method calls).symbols.symbols = calls.filterMap Call.symbol? := by
  induction calls using List.reverseRecOn with
  | nil => rfl
  | append_singleton calls c ih =>
    rw [ofCalls_concat, List.filterMap_append, ← ih]
    cases c with
    | declare s => rfl
    | reserve | define => exact (List.append_nil _).symm
    | reserveExit =>
      rw [call, reserveExit]
      split <;> exact (List.append_nil _).symm

theorem parameters_ofCalls :
    (ofCalls method calls).parameters = (ofCalls method calls).symbols.parameterIds := by
  induction calls using List.reverseRecOn with
  | nil => rfl
  | append_singleton calls c ih =>
    rw [ofCalls_concat]
    cases c with
    | declare s =>
      show (if s.kind = .parameter then _ else _) = SymbolTable.parameterIds (SymbolTable.add _ s).1
      rw [SymbolTable.parameterIds_add, ← ih]
      split
      · rfl
      · exact (List.append_nil _).symm
    | reserve | define => exact ih
    | reserveExit =>
      rw [call, reserveExit]
      split <;> exact ih

theorem made_ofCalls (method : String) (calls : List Call) : Made (ofCalls method calls) := by
  refine (Made.new method).foldl (fun d c hd => ?_) calls
  cases c with
  | declare s => exact hd.declare s
  | reserve => exact hd.reserve
  | reserveExit => exact hd.reserveExit
  | define id block => exact hd.define id block

/-! ### Gaps -/

/-- The id that is missing in a place of a draft of `count` blocks: that of the place itself if it
is empty, and otherwise the first target out of range. -/
def lacking? (count index : Nat) : Option Block → Option BlockId
  | none => some ⟨index⟩
  | some block => block.terminator.successors.find? fun target => count ≤ target.index

/-- The gaps are where something is missing. -/
theorem gap_iff {target : BlockId} : Gap method calls id target ↔
    ∃ slot, (ofCalls method calls).blocks[id.index]? = some slot ∧
      lacking? (ofCalls method calls).blocks.length id.index slot = some target := by
  constructor
  · rintro (⟨hreserved, hnothing⟩ | ⟨hgives, hsuccessors, hbefore, htarget⟩)
    · obtain ⟨slot, hslot⟩ : ∃ slot, (ofCalls method calls).blocks[id.index]? = some slot :=
        ⟨_, List.getElem?_eq_getElem (reserved_iff.1 hreserved)⟩
      cases slot with
      | none => exact ⟨none, hslot, rfl⟩
      | some b => exact absurd (gives_iff.2 hslot) (hnothing b)
    · refine ⟨_, gives_iff.1 hgives, List.find?_eq_some_iff_append.2 ⟨?_, _, _, hsuccessors, ?_⟩⟩
      · simpa [reserved_iff] using htarget
      · intro t ht
        simpa [reserved_iff] using hbefore t ht
  · rintro ⟨slot, hslot, hlacking⟩
    cases slot with
    | none =>
      obtain rfl : id = target := Option.some.inj hlacking
      refine .undefined (reserved_iff.2 (List.getElem?_eq_some_iff.1 hslot).1) fun b hb => ?_
      rw [gives_iff, hslot] at hb
      cases hb
    | some b =>
      obtain ⟨hbeyond, before, after, hsuccessors, hbefore⟩ :=
        List.find?_eq_some_iff_append.1 hlacking
      refine .dangling (gives_iff.2 hslot) hsuccessors (fun t ht => ?_) ?_
      · simpa [reserved_iff] using hbefore t ht
      · simpa [reserved_iff] using hbeyond

/-- Closing blocks fails at the first place where something is missing, and otherwise gives the
blocks. -/
theorem close_cases (count index : Nat) (blocks : List (Option Block)) :
    (∃ i slot target, blocks[i]? = some slot ∧ lacking? count (index + i) slot = some target ∧
      (∀ j < i, ∀ slot, blocks[j]? = some slot → lacking? count (index + j) slot = none) ∧
      close count index blocks = .error (.noSuchBlock target)) ∨
    ∃ closed : List Block, blocks = closed.map some ∧
      (∀ (j : Nat) (slot : Option Block), blocks[j]? = some slot →
        lacking? count (index + j) slot = none) ∧
      close count index blocks = .ok closed := by
  induction blocks generalizing index with
  | nil => exact .inr ⟨[], rfl, by simp, rfl⟩
  | cons slot rest ih =>
    cases hlacking : lacking? count index slot with
    | some target =>
      refine .inl ⟨0, slot, target, rfl, hlacking, by simp, ?_⟩
      cases slot with
      | none =>
        obtain rfl := Option.some.inj hlacking
        rfl
      | some block =>
        have hfind : block.terminator.successors.find? (fun t => count ≤ t.index) = some target :=
          hlacking
        simp [close, hfind]
    | none =>
      cases slot with
      | none => cases hlacking
      | some block =>
        have hfind : block.terminator.successors.find? (fun t => count ≤ t.index) = none := hlacking
        have hclose : close count index (some block :: rest) =
            (close count (index + 1) rest).map (block :: ·) := by
          simp only [close, hfind]
          rfl
        have hfirst : ∀ slot, (some block :: rest)[0]? = some slot →
            lacking? count (index + 0) slot = none := by
          intro slot hslot
          obtain rfl := Option.some.inj hslot
          exact hlacking
        have hshift : ∀ j, index + 1 + j = index + (j + 1) := by omega
        have hrest := ih (index + 1)
        simp only [hshift] at hrest
        rcases hrest with ⟨i, slot, target, hslot, htarget, hbefore, herror⟩ |
          ⟨closed, rfl, hnone, hok⟩
        · refine .inl ⟨i + 1, slot, target, hslot, htarget, ?_, by rw [hclose, herror]; rfl⟩
          rintro (_ | j) hj slot hslot
          · exact hfirst slot hslot
          · exact hbefore j (Nat.lt_of_succ_lt_succ hj) slot hslot
        · refine .inr ⟨block :: closed, rfl, ?_, by rw [hclose, hok]; rfl⟩
          rintro (_ | j) slot hslot
          · exact hfirst slot hslot
          · exact hnone j slot hslot

/-! ### Closing a draft -/

theorem Gap.eq {target target' : BlockId} (h : Gap method calls id target)
    (h' : Gap method calls id target') : target = target' := by
  obtain ⟨slot, hslot, htarget⟩ := gap_iff.1 h
  obtain ⟨slot', hslot', htarget'⟩ := gap_iff.1 h'
  obtain rfl := Option.some.inj (hslot.symm.trans hslot')
  exact Option.some.inj (htarget.symm.trans htarget')

/-- There is at most one first gap. -/
theorem FirstGap.eq {target target' : BlockId} (h : FirstGap method calls target)
    (h' : FirstGap method calls target') : target = target' := by
  obtain ⟨⟨i⟩, hgap, hfirst⟩ := h
  obtain ⟨⟨i'⟩, hgap', hfirst'⟩ := h'
  rcases Nat.lt_trichotomy i i' with hlt | rfl | hlt
  · exact absurd hgap (hfirst' ⟨i⟩ hlt target)
  · exact hgap.eq hgap'
  · exact absurd hgap' (hfirst ⟨i'⟩ hlt target')

/-- Closing the blocks that calls left behind fails at the first gap, and otherwise gives them. -/
theorem close_ofCalls (method : String) (calls : List Call) :
    (∃ target, FirstGap method calls target ∧
      close (ofCalls method calls).blocks.length 0 (ofCalls method calls).blocks =
        .error (.noSuchBlock target)) ∨
    ∃ closed : List Block, (ofCalls method calls).blocks = closed.map some ∧
      (∀ id target, ¬Gap method calls id target) ∧
      close (ofCalls method calls).blocks.length 0 (ofCalls method calls).blocks = .ok closed := by
  rcases close_cases (ofCalls method calls).blocks.length 0 (ofCalls method calls).blocks with
    ⟨i, slot, target, hslot, htarget, hbefore, herror⟩ | ⟨closed, hclosed, hnone, hok⟩
  · rw [Nat.zero_add] at htarget
    refine .inl ⟨target, ⟨⟨i⟩, gap_iff.2 ⟨slot, hslot, htarget⟩, fun id hid t hgap => ?_⟩, herror⟩
    obtain ⟨slot', hslot', hlacking⟩ := gap_iff.1 hgap
    have hnone := hbefore id.index hid slot' hslot'
    rw [Nat.zero_add, hlacking] at hnone
    cases hnone
  · refine .inr ⟨closed, hclosed, fun id target hgap => ?_, hok⟩
    obtain ⟨slot, hslot, hlacking⟩ := gap_iff.1 hgap
    have hnone := hnone id.index slot hslot
    rw [Nat.zero_add, hlacking] at hnone
    cases hnone

section Build

variable {entry target : BlockId}

theorem build_of_not_mem (h : .reserveExit ∉ calls) (entry : BlockId) :
    (ofCalls method calls).build entry = .error .missingExitBlock := by
  rw [build, exit_eq_none_iff.2 h]

theorem build_of_not_reserved (hmem : .reserveExit ∈ calls) (h : ¬Reserved method calls entry) :
    (ofCalls method calls).build entry = .error (.noSuchBlock entry) := by
  obtain ⟨exit, hexit⟩ := exists_exit_iff.2 hmem
  rw [reserved_iff, Nat.not_lt] at h
  rw [build, hexit]
  simp only [h, if_true]

/-- A draft that is entered at one of its blocks is a graph if its blocks can be closed. -/
theorem build_of_reserved (hmem : .reserveExit ∈ calls) (h : Reserved method calls entry) :
    ∃ exit, (ofCalls method calls).exit = some exit ∧ (ofCalls method calls).build entry =
      (close (ofCalls method calls).blocks.length 0 (ofCalls method calls).blocks).map
        fun blocks => ⟨(ofCalls method calls).method, blocks, entry, exit,
          (ofCalls method calls).parameters, (ofCalls method calls).symbols⟩ := by
  obtain ⟨exit, hexit⟩ := exists_exit_iff.2 hmem
  rw [reserved_iff, ← Nat.not_le] at h
  refine ⟨exit, hexit, ?_⟩
  rw [build, hexit]
  simp only [h, if_false]
  rfl

theorem build_of_firstGap (hmem : .reserveExit ∈ calls) (hentry : Reserved method calls entry)
    (h : FirstGap method calls target) :
    (ofCalls method calls).build entry = .error (.noSuchBlock target) := by
  obtain ⟨exit, -, hbuild⟩ := build_of_reserved hmem hentry
  rcases close_ofCalls method calls with ⟨target', hfirst, herror⟩ | ⟨blocks, -, hnone, -⟩
  · rw [hbuild, herror, h.eq hfirst]
    rfl
  · obtain ⟨id, hgap, -⟩ := h
    exact absurd hgap (hnone id target)

/-- Without gaps there is a graph, and it is the one that the calls describe. -/
theorem exists_build (hmem : .reserveExit ∈ calls) (hentry : Reserved method calls entry)
    (h : ∀ id target, ¬Gap method calls id target) :
    ∃ g, (ofCalls method calls).build entry = .ok g ∧ Describes method calls entry g := by
  obtain ⟨exit, hexit, hbuild⟩ := build_of_reserved hmem hentry
  rcases close_ofCalls method calls with ⟨target, ⟨id, hgap, -⟩, -⟩ | ⟨blocks, hblocks, -, hok⟩
  · exact absurd hgap (h id target)
  · rw [hok] at hbuild
    have hclosed := Graph.Built.closed ⟨_, entry, made_ofCalls method calls, hbuild⟩
    have hlength : (ofCalls method calls).blocks.length = blocks.length := by
      rw [hblocks, List.length_map]
    refine ⟨_, hbuild, method_ofCalls, rfl, fun before after hcalls => ?_, fun id => ?_,
      fun id b => ?_, hclosed, hlength ▸ exit_lt_length exit hexit, symbols_ofCalls,
      parameters_ofCalls⟩
    · exact Option.some.inj ((exit_ofCalls hcalls).symm.trans hexit)
    · rw [reserved_iff, hlength]
    · rw [gives_iff, hblocks]
      simp [Graph.block?, List.getElem?_map]

/-- There is a first gap, or there is none at all. -/
theorem firstGap_or_forall_not_gap (method : String) (calls : List Call) :
    (∃ target, FirstGap method calls target) ∨ ∀ id target, ¬Gap method calls id target := by
  rcases close_ofCalls method calls with ⟨target, hfirst, -⟩ | ⟨-, -, hnone, -⟩
  · exact .inl ⟨target, hfirst⟩
  · exact .inr hnone

end Build

/-- A draft is closed into a graph exactly if the exit was asked for, the draft is entered at an id
that was reserved, and no block leaves a gap; the graph is the one that the calls describe. If the
exit was not asked for, just this is reported. Otherwise an id is reported as missing exactly if it
is that of an entry that was not reserved, or if the entry was reserved and the id is missing in the
first block that leaves a gap. -/
theorem build_ofCalls (method : String) (calls : List Call) (entry : BlockId) :
    ((ofCalls method calls).build entry = .error .missingExitBlock ↔ .reserveExit ∉ calls) ∧
    (.reserveExit ∈ calls → ∀ target,
      ((ofCalls method calls).build entry = .error (.noSuchBlock target) ↔
        (¬Reserved method calls entry ∧ target = entry) ∨
        (Reserved method calls entry ∧ FirstGap method calls target))) ∧
    ((∃ g, (ofCalls method calls).build entry = .ok g) ↔
      .reserveExit ∈ calls ∧ Reserved method calls entry ∧
        ∀ id target, ¬Gap method calls id target) ∧
    ∀ g, (ofCalls method calls).build entry = .ok g → Describes method calls entry g := by
  by_cases hmem : .reserveExit ∈ calls
  · by_cases hentry : Reserved method calls entry
    · rcases firstGap_or_forall_not_gap method calls with ⟨first, hfirst⟩ | hnone
      · -- the first gap is reported
        have ⟨id, hgap, _⟩ := hfirst
        simp only [build_of_firstGap hmem hentry hfirst, reduceCtorEq, Except.error.injEq,
          Fault.noSuchBlock.injEq, hmem, hentry, not_true_eq_false, false_and, true_and, false_or,
          forall_const, exists_false, false_iff, IsEmpty.forall_iff, implies_true, and_true]
        exact ⟨fun target => ⟨fun h => h ▸ hfirst, hfirst.eq⟩, fun hnone => hnone id first hgap⟩
      · -- there is nothing to report
        obtain ⟨g, hbuild, hdescribes⟩ := exists_build hmem hentry hnone
        have hfirst : ∀ target, ¬FirstGap method calls target :=
          fun target ⟨id, hgap, _⟩ => hnone id target hgap
        simp [hbuild, hmem, hentry, hnone, hfirst, hdescribes]
    · -- the entry is reported
      simp only [build_of_not_reserved hmem hentry, reduceCtorEq, Except.error.injEq,
        Fault.noSuchBlock.injEq, hmem, hentry, not_true_eq_false, not_false_eq_true, false_and,
        and_false, true_and, or_false, forall_const, exists_false, IsEmpty.forall_iff, implies_true,
        and_true]
      exact fun target => eq_comm
  · simp [build_of_not_mem hmem, hmem]

/-- What is said about a block before it is reserved is lost. -/
example : (ofCalls "M" [.define ⟨0⟩ exitBlock, .reserve, .reserveExit]).build ⟨1⟩ =
    .error (.noSuchBlock ⟨0⟩) := rfl

end Draft

end Pathwise
