import Pathwise.Program.Draft

/-!
Graphs that drafts are closed into. The entry of such a graph is one of its blocks, no terminator
leads out of it, and its parameters are declared. Nothing else about how the draft was made is used
later on: explorations only ask for a closed graph.
-/

namespace Pathwise

/-- The drafts that the operations on drafts lead to. -/
inductive Draft.Made : Draft → Prop where
  | new (method : String) : Made (.new method)
  | declare {d : Draft} (h : Made d) (s : Symbol) : Made (d.declare s).1
  | reserve {d : Draft} (h : Made d) : Made d.reserve.1
  | reserveExit {d : Draft} (h : Made d) : Made d.reserveExit.1
  | define {d : Draft} (h : Made d) (id : BlockId) (block : Block) : Made (d.define id block)

/-- The graphs that such drafts are closed into. -/
def Graph.Built (g : Graph) : Prop := ∃ d entry, Draft.Made d ∧ d.build entry = .ok g

/-- Control does not leave the graph, and its parameters are declared. -/
structure Graph.Closed (g : Graph) : Prop where
  entry : g.entry.index < g.blocks.length
  successors : ∀ b ∈ g.blocks, ∀ target ∈ b.terminator.successors, target.index < g.blocks.length
  parameters : ∀ id ∈ g.parameters, id.index < g.symbols.size

namespace Draft

/-- The draft with the given symbols and blocks, and an exit behind the blocks. -/
def ofBlocks (method : String) (symbols : List Symbol) (blocks : List Block) : Draft :=
  let declared := symbols.foldl (fun (d : Draft) s => (d.declare s).1) (new method)
  let reserved := (blocks.foldl (fun (d : Draft) _ => d.reserve.1) declared).reserveExit.1
  blocks.zipIdx.foldl (fun d b => d.define ⟨b.2⟩ b.1) reserved

theorem Made.foldl {α : Type} {f : Draft → α → Draft} (hf : ∀ d x, Made d → Made (f d x))
    {d : Draft} (hd : Made d) (xs : List α) : Made (xs.foldl f d) := by
  induction xs generalizing d with
  | nil => exact hd
  | cons x xs ih => exact ih (hf d x hd)

theorem made_ofBlocks (method : String) (symbols : List Symbol) (blocks : List Block) :
    Made (ofBlocks method symbols blocks) := by
  have hdeclared : Made (symbols.foldl (fun (d : Draft) s => (d.declare s).1) (new method)) :=
    (Made.new method).foldl (fun _ s hd => hd.declare s) symbols
  have hreserved := hdeclared.foldl (fun _ _ hd => hd.reserve) blocks
  exact hreserved.reserveExit.foldl (fun _ b hd => hd.define ⟨b.2⟩ b.1) blocks.zipIdx

/-- The parameters of a draft are declared in it. -/
theorem Made.parameters {d : Draft} (h : d.Made) :
    ∀ id ∈ d.parameters, id.index < d.symbols.size := by
  induction h with
  | new => simp [Draft.new]
  | @declare d _ s ih =>
    have hsize : (d.declare s).1.symbols.size = d.symbols.size + 1 := by
      simp [Draft.declare, SymbolTable.add, SymbolTable.size]
    have hparameters : ∀ id ∈ (d.declare s).1.parameters,
        id ∈ d.parameters ∨ id.index = d.symbols.size := by
      intro id hid
      simp only [Draft.declare, SymbolTable.add] at hid
      split at hid
      · rcases List.mem_append.1 hid with hid | hid
        · exact .inl hid
        · obtain rfl := List.mem_singleton.1 hid
          exact .inr rfl
      · exact .inl hid
    intro id hid
    rw [hsize]
    rcases hparameters id hid with hid | hid
    · exact Nat.lt_succ_of_lt (ih id hid)
    · omega
  | reserve _ ih => exact ih
  | @reserveExit d _ ih =>
    unfold Draft.reserveExit
    split <;> exact ih
  | define _ id block ih => exact ih

/-- Closing the blocks keeps their number, and lets no terminator lead beyond the count. -/
theorem close_eq_ok {count index : Nat} {blocks : List (Option Block)} {closed : List Block}
    (h : close count index blocks = .ok closed) :
    closed.length = blocks.length ∧
      ∀ b ∈ closed, ∀ target ∈ b.terminator.successors, target.index < count := by
  induction blocks generalizing index closed with
  | nil =>
    cases h
    exact ⟨rfl, by simp⟩
  | cons block rest ih =>
    cases block with
    | none => cases h
    | some block =>
      unfold close at h
      split at h
      · cases h
      · next hfind =>
        cases hrest : close count (index + 1) rest with
        | error fault => simp [hrest, bind, Except.bind] at h
        | ok closedRest =>
          obtain ⟨hlength, hsuccessors⟩ := ih hrest
          rw [hrest] at h
          cases h
          refine ⟨by rw [List.length_cons, List.length_cons, hlength], ?_⟩
          intro b hb target htarget
          rcases List.mem_cons.1 hb with rfl | hb
          · have hin := List.find?_eq_none.1 hfind target htarget
            simpa using hin
          · exact hsuccessors b hb target htarget

end Draft

/-- A graph that a draft is closed into is closed. -/
theorem Graph.Built.closed {g : Graph} (h : g.Built) : g.Closed := by
  obtain ⟨d, entry, hmade, hbuild⟩ := h
  unfold Draft.build at hbuild
  split at hbuild
  · cases hbuild
  · split at hbuild
    · cases hbuild
    · next hentry =>
      cases hclose : Draft.close d.blocks.length 0 d.blocks with
      | error fault => simp [hclose, bind, Except.bind] at hbuild
      | ok blocks =>
        obtain ⟨hlength, hsuccessors⟩ := Draft.close_eq_ok hclose
        rw [hclose] at hbuild
        cases hbuild
        exact ⟨by show entry.index < blocks.length; omega,
          fun b hb target htarget => hlength ▸ hsuccessors b hb target htarget, hmade.parameters⟩

namespace Graph.Closed

variable {g : Graph}

/-- There is a block at the target of every terminator. -/
theorem exists_block (hg : g.Closed) {id : BlockId} {b : Block} (hb : g.block? id = some b)
    {target : BlockId} (htarget : target ∈ b.terminator.successors) :
    ∃ b', g.block? target = some b' := by
  have hlt := hg.successors b (List.mem_of_getElem? hb) target htarget
  exact ⟨_, List.getElem?_eq_getElem hlt⟩

theorem exists_entry (hg : g.Closed) : ∃ b, g.block? g.entry = some b :=
  ⟨_, List.getElem?_eq_getElem hg.entry⟩

theorem exists_parameter (hg : g.Closed) {id : SymbolId} (hid : id ∈ g.parameters) :
    ∃ symbol, g.symbols.get? id = some symbol :=
  ⟨_, List.getElem?_eq_getElem (hg.parameters id hid)⟩

end Graph.Closed

end Pathwise
