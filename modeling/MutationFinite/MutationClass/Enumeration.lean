import MutationFinite.MutationClass.Session
import MutationFinite.MutationClass.Walk

/-!
# Enumeration of mutation classes

* `enumerate`: the size of the mutation class of a matrix, in either mode.
* `areMutationEquivalent?`: whether a relabelling of one matrix lies in the class of another.
-/

namespace MutationFinite

/-- The greatest rank whose edges a link record can track. -/
def maxTrackedRank : Nat := 64

/-- The rank of `m`, refused when link records cannot track it. -/
def ExchangeMatrix.checkedRank (m : ExchangeMatrix) : Except Error Nat :=
  if maxTrackedRank < m.rank then .error (.tooManyMutableVertices m.rank) else .ok m.rank

/-- The checker of rank `n` if the context can hold it, and direct search otherwise. -/
def acquireOracle (n : Nat) : SessionM Oracle := do
  let ⟨context, token⟩ ← getThe Session
  match context.acquire n with
  | .ok context =>
    let checker := context.checker n
    set (Session.mk context token)
    return .cached checker
  | .error _ => return .direct

/-- Hands what an oracle learned back to the context. -/
def releaseOracle (oracle : Oracle) : SessionM Unit := do
  match oracle with
  | .direct => return
  | .cached checker =>
    let ⟨context, token⟩ ← getThe Session
    set (Session.mk (context.putChecker checker) token)

namespace EnumerationConfig

/-- What a walk over equal matrices looks out for. -/
def exactRules (cfg : EnumerationConfig) : WalkRules ExactVisited :=
  ⟨cfg.stopOnCertificate, max cfg.cancelPollEvery 1, fun v _ => (false, v)⟩

/-- What a walk up to relabelling looks out for, a matrix that `isTarget` recognises among it. -/
def collapsedRules (cfg : EnumerationConfig) (isTarget : Oracle → ExchangeMatrix → Bool × Oracle) :
    WalkRules CollapsedVisited :=
  let recognise : CollapsedVisited → ExchangeMatrix → Bool × CollapsedVisited :=
    fun ⟨rank, oracle, buckets, size⟩ m =>
      let (found, oracle) := isTarget oracle m
      (found, ⟨rank, oracle, buckets, size⟩)
  ⟨cfg.stopOnCertificate, max cfg.cancelPollEvery 1, recognise⟩

end EnumerationConfig

/-- Walks over equal matrices. -/
def exploreExact (cfg : EnumerationConfig) (seed : ExchangeMatrix) (token : Token) :
    Halt × Walk ExactVisited :=
  explore cfg.exactRules seed (.new seed.rank) token

/-- Walks over matrices up to relabelling, looking for a matrix that `isTarget` recognises. -/
def exploreCollapsed (cfg : EnumerationConfig) (seed : ExchangeMatrix) (oracle : Oracle)
    (isTarget : Oracle → ExchangeMatrix → Bool × Oracle) (token : Token) :
    Halt × Walk CollapsedVisited :=
  explore (cfg.collapsedRules isTarget) seed (.new seed.rank oracle) token

/-- The size that a walk found when it halted. -/
def ClassSize.ofHalt (halt : Halt) (discovered : Nat) : ClassSize :=
  match halt with
  | .exhausted | .target => .finite discovered
  | .certificate | .overflow => .infinite
  | .cancelled | .outOfSteps => .cancelled

/-- The enumeration of the mutation class of `seed`. -/
def enumerate (cfg : EnumerationConfig) (seed : ExchangeMatrix) : SessionM Enumeration := do
  let n ← MonadExcept.ofExcept seed.checkedRank
  match cfg.mode with
  | .exact =>
    Session.withToken fun token =>
      let (halt, w) := exploreExact cfg seed token
      (⟨.ofHalt halt w.stats.discovered, w.stats⟩, w.token)
  | .upToEquivalence =>
    let oracle ← acquireOracle n
    let (halt, visited, stats) ← Session.withToken fun token =>
      let (halt, w) := exploreCollapsed cfg seed oracle (fun o _ => (false, o)) token
      ((halt, w.visited, w.stats), w.token)
    releaseOracle visited.oracle
    return ⟨.ofHalt halt stats.discovered, stats⟩

/-- Whether the mutation class of `a` holds a relabelling of `b`; none if that was not decided. -/
def areMutationEquivalent? (a b : ExchangeMatrix) : SessionM (Option Bool) := do
  if ¬ ExchangeMatrix.SameShape a b then return some false
  let n ← MonadExcept.ofExcept a.checkedRank
  let oracle ← acquireOracle n
  let key := Fingerprint.of b
  let isTarget := fun (oracle : Oracle) (m : ExchangeMatrix) =>
    if Fingerprint.of m = key then
      let (found, oracle) := oracle.witness m b
      (found.isSome, oracle)
    else (false, oracle)
  let (halt, oracle) ← Session.withToken fun token =>
    let (halt, w) :=
      exploreCollapsed (.withMode .upToEquivalence) a oracle isTarget token
    ((halt, w.visited.oracle), w.token)
  releaseOracle oracle
  match halt with
  | .target => return some true
  | .exhausted => return some false
  | _ => return none

end MutationFinite
