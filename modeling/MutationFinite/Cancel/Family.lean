/-!
# Families of cancel tokens

Tokens are handles to flags.  A child token has a flag of its own below that of its parent; a
clone shares the flag of the token it was made from.  A token is stopped when its flag or one above
it was raised, so that stopping a token reaches its clones and everything below, and nothing else.
-/

namespace MutationFinite

/-- A flag below another one, or below none. -/
structure StopFlag where
  parent : Option Nat
  raised : Bool
deriving DecidableEq

/-- The flags made so far, and the flag of each token; flags and tokens are numbered in the order
in which they were made. -/
structure TokenFamily where
  flags : Array StopFlag
  tokens : Array Nat
deriving DecidableEq

namespace TokenFamily

/-- A family without tokens. -/
def empty : TokenFamily := ⟨#[], #[]⟩

/-- The flag of token `t`. -/
def flagOf (f : TokenFamily) (t : Nat) : Nat := f.tokens.getD t 0

/-- Adds a token with a flag of its own below `parent`. -/
def addFlag (f : TokenFamily) (parent : Option Nat) : TokenFamily :=
  ⟨f.flags.push ⟨parent, false⟩, f.tokens.push f.flags.size⟩

/-- Adds a token unrelated to the others. -/
def new (f : TokenFamily) : TokenFamily := f.addFlag none

/-- Adds a child of token `t`. -/
def child (f : TokenFamily) (t : Nat) : TokenFamily := f.addFlag (some (f.flagOf t))

/-- Adds a clone of token `t`. -/
def clone (f : TokenFamily) (t : Nat) : TokenFamily :=
  { f with tokens := f.tokens.push (f.flagOf t) }

/-- Stops token `t`. -/
def requestStop (f : TokenFamily) (t : Nat) : TokenFamily :=
  { f with flags := f.flags.modify (f.flagOf t) fun flag => { flag with raised := true } }

/-- Flag `i` or one of the `depth` flags above it is raised. -/
def isRaised (f : TokenFamily) : (depth : Nat) → (i : Nat) → Bool
  | 0, _ => false
  | depth + 1, i =>
    match f.flags[i]? with
    | none => false
    | some flag => flag.raised || (flag.parent.map (f.isRaised depth)).getD false

/-- Token `t` or an ancestor of it was stopped. -/
def isStopped (f : TokenFamily) (t : Nat) : Bool := f.isRaised f.flags.size (f.flagOf t)

end TokenFamily

end MutationFinite
