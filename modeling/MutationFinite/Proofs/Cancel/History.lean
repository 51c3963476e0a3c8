import MutationFinite.Cancel.Family
import Mathlib.Logic.Relation

/-!
# Calls on tokens, and which token heeds which

Tokens form a forest: a child hangs below the token it was made from, and a clone stands at the
same place as its original.

* `TokenCall`, `IsHistory`: the calls on a family of tokens, each of them on a token that there is.
* `MadeBy`: the call that made a token; `madeBy_make`, `madeBy_stop`: what one more call adds.
* `Heeds`: a token heeds its ancestors, and clones heed what their originals heed.
-/

namespace MutationFinite

/-- A call on a family of tokens. -/
inductive TokenCall where
  | new
  | child (t : Nat)
  | clone (t : Nat)
  | stop (t : Nat)
deriving DecidableEq

namespace TokenCall

/-- The call makes a token. -/
def makes : TokenCall → Bool
  | new | child _ | clone _ => true
  | stop _ => false

/-- The token that the call is made on. -/
def on? : TokenCall → Option Nat
  | new => none
  | child t | clone t | stop t => some t

end TokenCall

/-- The calls that made the tokens, in the order of their numbers. -/
def origins (calls : List TokenCall) : List TokenCall := calls.filter TokenCall.makes

/-- The token `t` was made by the call `c`. -/
def MadeBy (calls : List TokenCall) (t : Nat) (c : TokenCall) : Prop := (origins calls)[t]? = some c

/-- Each of the calls is made on a token that there is by then. -/
inductive IsHistory : List TokenCall → Prop where
  | start : IsHistory []
  | call {calls : List TokenCall} {c : TokenCall} (h : IsHistory calls)
      (hon : ∀ t ∈ c.on?, t < (origins calls).length) : IsHistory (calls ++ [c])

/-- The token `t` heeds itself, its clones, its ancestors and the clones of these: from `t` to the
token that it heeds one goes up from children to parents, and from clones to their originals and
back. -/
inductive Heeds (calls : List TokenCall) : Nat → Nat → Prop where
  | self (t : Nat) : Heeds calls t t
  | child {t u v : Nat} (h : MadeBy calls t (.child u)) (rest : Heeds calls u v) : Heeds calls t v
  | clone {t u v : Nat} (h : MadeBy calls t (.clone u)) (rest : Heeds calls u v) : Heeds calls t v
  | original {t u v : Nat} (h : MadeBy calls u (.clone t)) (rest : Heeds calls u v) :
      Heeds calls t v

variable {calls : List TokenCall} {c d : TokenCall} {t u v : Nat}

/-! ### Histories -/

theorem length_origins_le (calls more : List TokenCall) :
    (origins calls).length ≤ (origins (calls ++ more)).length := by
  rw [origins, origins, List.filter_append, List.length_append]
  exact Nat.le_add_right _ _

/-- A call that makes a token adds it to those made before. -/
theorem origins_make (hc : c.makes = true) : origins (calls ++ [c]) = origins calls ++ [c] := by
  rw [origins, List.filter_append, List.filter_cons_of_pos hc, List.filter_nil, origins]

theorem origins_stop : origins (calls ++ [.stop u]) = origins calls := by
  rw [origins, List.filter_append, List.filter_cons_of_neg Bool.false_ne_true, List.filter_nil,
    List.append_nil, origins]

theorem madeBy_stop : MadeBy (calls ++ [.stop u]) t d ↔ MadeBy calls t d := by
  rw [MadeBy, origins_stop, MadeBy]

theorem MadeBy.lt (h : MadeBy calls t d) : t < (origins calls).length :=
  (List.getElem?_eq_some_iff.mp h).1

theorem madeBy_make (hc : c.makes = true) :
    MadeBy (calls ++ [c]) t d ↔ MadeBy calls t d ∨ t = (origins calls).length ∧ c = d := by
  have hnew : (origins calls ++ [c])[(origins calls).length]? = some c := by simp
  rw [MadeBy, origins_make hc]
  constructor
  · intro h
    rcases Nat.lt_or_eq_of_le (Nat.lt_succ_iff.mp
      (by simpa using (List.getElem?_eq_some_iff.mp h).1)) with hlt | heq
    · rw [List.getElem?_append_left hlt] at h
      exact .inl h
    · rw [heq] at h
      exact .inr ⟨heq, Option.some.inj (hnew.symm.trans h)⟩
  · rintro (h | ⟨rfl, rfl⟩)
    · rwa [List.getElem?_append_left (MadeBy.lt h)]
    · exact hnew

/-- Later calls leave the tokens made before. -/
theorem MadeBy.append (h : MadeBy calls t d) (more : List TokenCall) :
    MadeBy (calls ++ more) t d := by
  rw [MadeBy, origins, List.filter_append, ← origins, List.getElem?_append_left h.lt]
  exact h

/-- A token is made from one that was there before. -/
theorem IsHistory.on_lt (h : IsHistory calls) (ht : MadeBy calls t d) : ∀ u ∈ d.on?, u < t := by
  induction h with
  | start => cases ht
  | @call calls c _ hon ih =>
      cases hc : c.makes with
      | true =>
          rcases (madeBy_make hc).mp ht with ht | ⟨rfl, rfl⟩
          · exact ih ht
          · exact hon
      | false =>
          cases c with
          | stop => exact ih (madeBy_stop.mp ht)
          | new | child | clone => cases hc

/-- A token that is stopped is there. -/
theorem IsHistory.lt_of_stop (h : IsHistory calls) (hu : .stop u ∈ calls) :
    u < (origins calls).length := by
  induction h with
  | start => cases hu
  | @call calls c _ hon ih =>
      refine Nat.lt_of_lt_of_le ?_ (length_origins_le calls [c])
      rcases List.mem_append.mp hu with hu | hu
      · exact ih hu
      · exact hon u (List.mem_singleton.mp hu ▸ rfl)

/-! ### What a token heeds -/

namespace Heeds

theorem trans (h : Heeds calls t u) (h' : Heeds calls u v) : Heeds calls t v := by
  induction h with
  | self => exact h'
  | child hmade _ ih => exact .child hmade (ih h')
  | clone hmade _ ih => exact .clone hmade (ih h')
  | original hmade _ ih => exact .original hmade (ih h')

/-- Later calls leave what was heeded before. -/
theorem append (h : Heeds calls t u) (more : List TokenCall) : Heeds (calls ++ more) t u := by
  induction h with
  | self => exact .self _
  | child hmade _ ih => exact .child (hmade.append more) ih
  | clone hmade _ ih => exact .clone (hmade.append more) ih
  | original hmade _ ih => exact .original (hmade.append more) ih

/-- A stop changes nothing about which token heeds which. -/
theorem of_stop (h : Heeds (calls ++ [.stop v]) t u) : Heeds calls t u := by
  induction h with
  | self => exact .self _
  | child hmade _ ih => exact .child (madeBy_stop.mp hmade) ih
  | clone hmade _ ih => exact .clone (madeBy_stop.mp hmade) ih
  | original hmade _ ih => exact .original (madeBy_stop.mp hmade) ih

end Heeds

end MutationFinite
