import Pathwise.Symbolic.Value

/-!
A supply of identities for new unknowns. The analysis draws one whenever it meets a value about
which nothing is known; two draws from one supply give different unknowns as long as the sequence
behind the supply does not repeat itself. Nothing else about the sequence matters.
-/

namespace Pathwise

/-- A sequence of identities and how many of them have been drawn. -/
structure Supply where
  draw : Nat → Identity
  used : Nat

namespace Supply

/-- The next unknown, and the supply without it. -/
def fresh (s : Supply) : Value × Supply := (.unknown (s.draw s.used), { s with used := s.used + 1 })

/-- The odd numbers. Identities that are chosen elsewhere as multiples of a power of two do not
meet them. -/
def odd : Supply := ⟨fun n => 2 * n + 1, 0⟩

/-- Does something with every item in turn, each time with what the items before it have left of the
supply. -/
def collect {α β ε : Type} (f : α → Supply → Except ε (β × Supply)) :
    List α → Supply → Except ε (List β × Supply)
  | [], ids => .ok ([], ids)
  | a :: rest, ids => do
    let (b, ids) ← f a ids
    let (more, ids) ← collect f rest ids
    return (b :: more, ids)

/-- If nothing is drawn, the items do not depend on each other. -/
theorem collect_eq_map {α β ε : Type} {f : α → Supply → Except ε (β × Supply)} {g : α → β}
    {xs : List α} {ids : Supply} (h : ∀ a ∈ xs, f a ids = .ok (g a, ids)) :
    collect f xs ids = .ok (xs.map g, ids) := by
  induction xs with
  | nil => rfl
  | cons a rest ih =>
    have hrest := ih fun b hb => h b (List.mem_cons_of_mem _ hb)
    rw [collect, h a List.mem_cons_self]
    dsimp only [bind, Except.bind]
    rw [hrest]
    rfl

/-- What is made of each outcome can be made of all of them in the end. -/
theorem collect_map {α β γ ε : Type} (f : α → Supply → Except ε (β × Supply)) (g : β → γ)
    (xs : List α) (ids : Supply) :
    collect (fun a ids => do
      let (b, ids) ← f a ids
      return (g b, ids)) xs ids = (do
      let (bs, ids) ← collect f xs ids
      return (bs.map g, ids)) := by
  induction xs generalizing ids with
  | nil => rfl
  | cons a rest ih =>
    simp only [collect, bind, Except.bind] at ih ⊢
    cases f a ids with
    | error fault => rfl
    | ok r =>
      dsimp only [pure, Except.pure] at ih ⊢
      rw [ih]
      cases collect f rest r.2 <;> rfl

end Supply

end Pathwise
