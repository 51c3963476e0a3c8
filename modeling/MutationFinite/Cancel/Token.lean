/-!
# Cancel tokens as their holder sees them

Whoever holds a cancel token polls it from time to time and stops when the answer says so.  All
that a computation can learn of the token is the sequence of these answers.
-/

namespace MutationFinite

/-- The answers of a cancel token to its polls, and how many polls there have been. -/
structure Token where
  answers : Nat → Bool
  polls : Nat

namespace Token

/-- A token that always gives the same answer. -/
def constant (stopped : Bool) : Token := ⟨fun _ => stopped, 0⟩

/-- A token that nobody stops. -/
def running : Token := constant false

/-- What a holder of two tokens sees who polls both at the same time and asks whether one of them is
stopped. -/
def either (t u : Token) : Token :=
  ⟨fun i => t.answers (t.polls + i) || u.answers (u.polls + i), 0⟩

/-- Asks whether the token is stopped. -/
def poll (t : Token) : Bool × Token := (t.answers t.polls, { t with polls := t.polls + 1 })

/-- Once stopped, the token stays stopped. -/
def Monotone (t : Token) : Prop := ∀ i j, i ≤ j → t.answers i = true → t.answers j = true

/-- Nobody stops the token. -/
def NeverStops (t : Token) : Prop := ∀ i, t.answers i = false

theorem NeverStops.poll {t : Token} (h : t.NeverStops) :
    t.poll.1 = false ∧ t.poll.2.NeverStops :=
  ⟨h t.polls, h⟩

theorem neverStops_running : running.NeverStops := fun _ => rfl

theorem NeverStops.either {t u : Token} (ht : t.NeverStops) (hu : u.NeverStops) :
    (t.either u).NeverStops := by
  intro i
  show (t.answers _ || u.answers _) = false
  rw [ht, hu]
  rfl

end Token

end MutationFinite
