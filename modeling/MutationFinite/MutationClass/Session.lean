import MutationFinite.Cancel.Token
import MutationFinite.Equivalence.Context

/-!
# Sessions

The state that a series of questions shares: the equivalence checkers made so far, and the cancel
token.  A question may fail, and what it learned before stays learned.
-/

namespace MutationFinite

/-- The checkers and the token that questions share. -/
structure Session where
  context : EquivalenceContext
  token : Token

/-- A question asked in a session. -/
abbrev SessionM (α : Type) := ExceptT Error (StateM Session) α

namespace Session

/-- A session with the given cache limits and token. -/
def new (config : EquivalenceConfig) (token : Token) : Session := ⟨.new config, token⟩

/-- Runs a computation that polls the token. -/
def withToken {α : Type} (f : Token → α × Token) : SessionM α := do
  let ⟨context, token⟩ ← getThe Session
  let (answer, token) := f token
  set (Session.mk context token)
  return answer

/-- The answer to a question, and the session afterwards. -/
def ask {α : Type} (s : Session) (question : SessionM α) : Except Error α × Session :=
  question.run s

end Session

end MutationFinite
