import Mathlib.Logic.Relation
import Pathwise.Proofs.Transfer.Changes

/-!
The changes that states undergo. However an instruction changes a state, it does so by a few kinds
of small changes, one after the other: the stack is changed, facts are learned, members are
forgotten, declared symbols are bound, symbols are unbound, and so on. `State.Edits` is any number
of them. What each small change keeps, every instruction therefore keeps.
-/

namespace Pathwise

/-- One small change of a state. -/
inductive State.Edit (symbols : SymbolTable) : State → State → Prop where
  | restack (s : State) (stack : List Value) : Edit symbols s { s with stack }
  | revisit (s : State) (visits : Std.ExtTreeMap ProgramPoint Nat) :
      Edit symbols s { s with visits }
  | learn {s t : State} (h : s.Learns t) : Edit symbols s t
  | forgetMember (s : State) (receiver : Value) (id : SymbolId) :
      Edit symbols s (s.forget (.member receiver id))
  | assign (s : State) {id : SymbolId} {symbol : Symbol} (hid : symbols.get? id = some symbol)
      (v : Value) : Edit symbols s (s.assign id v)
  | unbind (s : State) (id : SymbolId) : Edit symbols s (s.unbind id)
  | unbindWhere (s : State) (test : SymbolId → Value → Bool) :
      Edit symbols s (s.unbindWhere test)
  | collectGarbage (s : State) : Edit symbols s s.collectGarbage

/-- Any number of small changes. -/
def State.Edits (symbols : SymbolTable) : State → State → Prop :=
  Relation.ReflTransGen (State.Edit symbols)

namespace State.Edits

variable {symbols : SymbolTable} {s t u : State} {v : Value}

theorem refl (s : State) : Edits symbols s s := Relation.ReflTransGen.refl

theorem tail (h : Edits symbols s t) (h' : Edit symbols t u) : Edits symbols s u :=
  Relation.ReflTransGen.tail h h'

theorem trans (h : Edits symbols s t) (h' : Edits symbols t u) : Edits symbols s u :=
  Relation.ReflTransGen.trans h h'

/-- What every small change keeps, any number of them keep. -/
theorem keeps {P : State → Prop} (h : Edits symbols s t)
    (hedit : ∀ {t u}, P t → Edit symbols t u → P u) (hs : P s) : P t := by
  induction h with
  | refl => exact hs
  | tail _ hu ih => exact hedit ih hu

theorem learn (h : Edits symbols s t) (h' : t.Learns u) : Edits symbols s u := h.tail (.learn h')

theorem pop (h : Edits symbols s t) (hpop : t.pop = .ok (u, v)) : Edits symbols s u := by
  rw [State.eq_of_pop hpop]
  exact h.tail (.restack t _)

end State.Edits

namespace Transfer

variable {t : Transfer} {s u w : State} {ids ids' : Supply} {v : Value}

/-- Everything that an instruction may do to a state is a small change. -/
theorem outlives_edits (t : Transfer) (i : Instruction) (s : State) :
    t.Outlives i (s.Edits t.symbols) where
  restack stack h := h.tail (.restack _ stack)
  record _ hu h := h.learn (.record (.refl _) hu)
  assign v _ hid h := h.tail (.assign _ hid v)
  unbind _ h := h.tail (.unbind _ _)
  clearFields _ h := h.tail (.unbindWhere _ _)
  forget _ receiver id h := h.tail (.forgetMember _ receiver id)

/-- Instructions change states by small changes. -/
theorem visit_yields (t : Transfer) (i : Instruction) (s : State) (ids : Supply) :
    Yields (s.Edits t.symbols) (t.visit i s ids) :=
  visit_keeps (t.outlives_edits i s) (.refl s) ids

end Transfer

end Pathwise
