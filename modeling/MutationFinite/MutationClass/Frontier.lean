import MutationFinite.Matrix.Basic

/-!
# Frontiers

A first-in, first-out queue of matrices.  Its view is `toList`, the matrices in the order in which
they leave: `push` appends to the view, and `pop?` takes the head of the view.
-/

namespace MutationFinite

/-- A queue: the matrices to leave next in order, and the rest in reverse order. -/
structure Frontier where
  front : List ExchangeMatrix
  back : List ExchangeMatrix
  size : Nat

namespace Frontier

/-- The matrices, in the order in which they leave. -/
def toList (f : Frontier) : List ExchangeMatrix := f.front ++ f.back.reverse

/-- The queue of one matrix. -/
def singleton (m : ExchangeMatrix) : Frontier := ⟨[m], [], 1⟩

/-- Adds a matrix at the end. -/
def push (f : Frontier) (m : ExchangeMatrix) : Frontier := ⟨f.front, m :: f.back, f.size + 1⟩

/-- The first matrix and the queue after it. -/
def pop? (f : Frontier) : Option (ExchangeMatrix × Frontier) :=
  match f.front with
  | m :: front => some (m, ⟨front, f.back, f.size - 1⟩)
  | [] =>
    match f.back.reverse with
    | m :: front => some (m, ⟨front, [], f.size - 1⟩)
    | [] => none

@[simp] theorem toList_singleton (m : ExchangeMatrix) : (singleton m).toList = [m] := rfl

@[simp] theorem toList_push (f : Frontier) (m : ExchangeMatrix) :
    (f.push m).toList = f.toList ++ [m] := by
  simp [toList, push]

theorem pop?_eq_none {f : Frontier} : f.pop? = none ↔ f.toList = [] := by
  unfold pop? toList
  cases hf : f.front with
  | cons m front => simp
  | nil => cases hb : f.back.reverse <;> simp

theorem toList_of_pop? {f g : Frontier} {m : ExchangeMatrix} (h : f.pop? = some (m, g)) :
    f.toList = m :: g.toList := by
  unfold pop? at h
  unfold toList
  cases hf : f.front with
  | cons _ front =>
    simp only [hf, Option.some.injEq, Prod.mk.injEq] at h
    obtain ⟨rfl, rfl⟩ := h
    rfl
  | nil =>
    cases hb : f.back.reverse with
    | nil => simp [hf, hb] at h
    | cons _ front =>
      simp only [hf, hb, Option.some.injEq, Prod.mk.injEq] at h
      obtain ⟨rfl, rfl⟩ := h
      simp

end Frontier

end MutationFinite
