import MutationFinite.Proofs.Mutation.Checked
import Mathlib.Data.Fintype.BigOperators
import Mathlib.Data.Set.Card

/-!
# Reachable matrices

The mutation class of a matrix of entries: what defined mutations lead to.

* `Reaches`, `mutationClass`: the matrices reachable by defined mutations.
* `Reaches.iff_of_kept`: what every exact mutation keeps is neither gained nor lost on the way.
* `Reaches.exact`: exact mutations reach their values, too.
* `length_le_of_nodup`: there are at most `2 ^ (32 * (rows * cols))` matrices of a shape, so that
  every mutation class is finite, and a list without repetition bounds how long it gets.
-/

namespace MutationFinite

namespace ExchangeMatrix

/-- Defined mutations lead from one matrix to another. -/
inductive Reaches : ExchangeMatrix → ExchangeMatrix → Prop where
  | refl (m : ExchangeMatrix) : Reaches m m
  | step {a b c : ExchangeMatrix} {k : Nat} (h : Reaches a b) (hm : b.mutate? k = .ok c) :
      Reaches a c

/-- The matrices that defined mutations of `m` lead to. -/
def mutationClass (m : ExchangeMatrix) : Set ExchangeMatrix := {c | Reaches m c}

variable {a b c m : ExchangeMatrix} {k : Nat}

namespace Reaches

theorem one (h : a.mutate? k = .ok b) : Reaches a b := .step (.refl a) h

theorem trans (h₁ : Reaches a b) (h₂ : Reaches b c) : Reaches a c := by
  induction h₂ with
  | refl => exact h₁
  | step _ hm ih => exact .step ih hm

theorem shape (h : Reaches a b) : SameShape b a := by
  induction h with
  | refl => exact ⟨rfl, rfl⟩
  | step _ hm ih => exact (mutatesTo_of_mutate? hm).shape.trans ih

/-- **What every exact mutation keeps is neither gained nor lost on the way**, since the mutations
on the way back are exact, too. -/
theorem iff_of_kept {P : ExchangeMatrix → Prop} (kept : ∀ {x k y}, MutatesTo x k y → P x → P y)
    (h : Reaches a b) : P b ↔ P a := by
  induction h with
  | refl => exact .rfl
  | step _ hm ih =>
      have hto := mutatesTo_of_mutate? hm
      exact Iff.trans ⟨kept hto.symm, kept hto⟩ ih

theorem exact (h : Reaches a b) : IntegerMatrix.Reaches a.rank a.values b.values := by
  induction h with
  | refl => exact .refl _
  | step h hm ih =>
      have hto := mutatesTo_of_mutate? hm
      rw [hto.values]
      exact .step ih (h.shape.rank_eq ▸ hto.pivot)

end Reaches

/-- A matrix without mutable vertices reaches itself only. -/
theorem mutationClass_of_rank_eq_zero (hzero : a.rank = 0) : a.mutationClass = {a} := by
  refine Set.Subset.antisymm (fun c hc => ?_) (Set.singleton_subset_iff.mpr (.refl a))
  induction hc with
  | refl => rfl
  | @step x y k hx hto ih =>
      have hk : k < a.rank := hx.shape.rank_eq ▸ (mutatesTo_of_mutate? hto).pivot
      omega

/-- When every mutation leads from one matrix to another and back, the class is the two of them. -/
theorem mutationClass_eq_pair (hrank : 0 < a.rank)
    (h : ∀ k < a.rank, a.mutate? k = .ok b ∧ b.mutate? k = .ok a) : a.mutationClass = {a, b} := by
  refine Set.Subset.antisymm (fun c hc => ?_) ?_
  · induction hc with
    | refl => exact .inl rfl
    | @step x y k hx hto ih =>
        have hk : k < a.rank := hx.shape.rank_eq ▸ (mutatesTo_of_mutate? hto).pivot
        rcases ih with rfl | rfl
        · rw [(h k hk).1] at hto
          exact .inr (Except.ok.inj hto).symm
        · rw [(h k hk).2] at hto
          exact .inl (Except.ok.inj hto).symm
  · rintro _ (rfl | rfl)
    · exact .refl _
    · exact .one (h 0 hrank).1

/-! ### The number of matrices of a shape -/

/-- The entries in row order as numbers below `2 ^ 32`. -/
def code (rows cols : Nat) (m : ExchangeMatrix) : Fin (rows * cols) → Fin (2 ^ 32) := fun p =>
  ⟨((m.cell (p / cols) (p % cols)).val + 2147483648).toNat, by
    have := (m.cell (p / cols) (p % cols)).least_le
    have := (m.cell (p / cols) (p % cols)).le_greatest
    omega⟩

theorem eq_of_code_eq (ha : SameShape a m) (hb : SameShape b m)
    (h : code m.rows m.cols a = code m.rows m.cols b) : a = b := by
  refine ext_cell (ha.trans hb.symm).1 (ha.trans hb.symm).2 fun i hi j hj => Entry.ext ?_
  obtain ⟨hlt, hdiv, hmod⟩ := pos_div_mod (ha.1 ▸ hi) (ha.2 ▸ hj)
  have hval := congrArg Fin.val (congrFun h ⟨i * m.cols + j, hlt⟩)
  simp only [code, hdiv, hmod] at hval
  have := (a.cell i j).least_le
  have := (b.cell i j).least_le
  omega

/-- A list of distinct matrices of one shape is no longer than there are such matrices. -/
theorem length_le_of_nodup {l : List ExchangeMatrix} (hl : l.Nodup)
    (hs : ∀ x ∈ l, SameShape x m) : l.length ≤ 2 ^ (32 * (m.rows * m.cols)) := by
  have hcodes : (l.map (code m.rows m.cols)).Nodup :=
    hl.map_on fun x hx y hy h => eq_of_code_eq (hs x hx) (hs y hy) h
  have := hcodes.length_le_card
  rw [List.length_map, Fintype.card_fun, Fintype.card_fin, Fintype.card_fin, ← pow_mul] at this
  exact this

theorem finite_sameShape (m : ExchangeMatrix) : {x | SameShape x m}.Finite :=
  Set.Finite.of_injOn (f := code m.rows m.cols) (t := Set.univ) (fun _ _ => trivial)
    (fun _ hx _ hy h => eq_of_code_eq hx hy h) (Set.toFinite _)

theorem finite_mutationClass (m : ExchangeMatrix) : m.mutationClass.Finite :=
  (finite_sameShape m).subset fun _ h => Reaches.shape h

end ExchangeMatrix

end MutationFinite
