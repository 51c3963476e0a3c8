import MutationFinite.Cancel.Token
import MutationFinite.Matrix.Component
import MutationFinite.Matrix.Mutation
import MutationFinite.MutationClass.Frontier
import MutationFinite.MutationClass.Size
import MutationFinite.MutationClass.Visited

/-!
# The walk through a mutation class

A walk keeps visited matrices with the marks on their mutation edges and a frontier of matrices
still to be expanded.  It takes the first matrix of the frontier, follows its unmarked edges, the
lowest vertex first, and gives the matrix up once all of its edges are marked.  An edge is marked at
both ends at once.

* `Walk.step`: one atomic step: take a matrix, follow one edge, or give a matrix up.
* `explore`: steps until the walk halts; `stepBound` bounds their number.
-/

namespace MutationFinite

/-- Why a walk ended. -/
inductive Halt where
  /-- Every edge of every matrix found was followed. -/
  | exhausted
  /-- A matrix certifies infinite type. -/
  | certificate
  /-- A mutation is undefined because an entry leaves the range. -/
  | overflow
  /-- The matrix looked for was found. -/
  | target
  /-- The token was stopped. -/
  | cancelled
  /-- The allotted steps were used up. -/
  | outOfSteps
deriving DecidableEq

/-- What a walk looks out for. -/
structure WalkRules (V : Type) where
  stopOnCertificate : Bool
  /-- The number of followed edges between two polls. -/
  pollEvery : Nat
  /-- Recognises the matrix looked for; the store may learn from the question. -/
  isTarget : V → ExchangeMatrix → Bool × V

/-- The state of a walk. -/
structure Walk (V : Type) where
  visited : V
  frontier : Frontier
  /-- The matrix whose edges are being followed. -/
  current : Option ExchangeMatrix
  stats : WalkStats
  token : Token

/-- The state after a step. -/
inductive Progress (V : Type) where
  | going (w : Walk V)
  | halted (h : Halt) (w : Walk V)

namespace Walk

variable {V : Type} [Visited V]

/-- Marks the near end of the edge at `k` of `m`, just followed, and records the peaks. -/
def closeEdge (w : Walk V) (m : ExchangeMatrix) (k : Nat) : Walk V :=
  match w with
  | ⟨visited, frontier, current, stats, token⟩ =>
    let visited := Visited.mark visited m k
    let stats := { stats with
      peakVisited := max stats.peakVisited (Visited.size visited)
      peakFrontier := max stats.peakFrontier frontier.size }
    ⟨visited, frontier, current, stats, token⟩

/-- Takes up the matrix `next`, found along the edge at `k` of `m`. -/
def discover (rules : WalkRules V) (w : Walk V) (m : ExchangeMatrix) (k : Nat)
    (next : ExchangeMatrix) : Progress V :=
  match w with
  | ⟨visited, frontier, current, stats, token⟩ =>
    let stats := { stats with discovered := stats.discovered + 1 }
    match rules.isTarget visited next with
    | (true, visited) => .halted .target ⟨visited, frontier, current, stats, token⟩
    | (false, visited) =>
      if rules.stopOnCertificate && next.certifiesInfinite then
        .halted .certificate ⟨visited, frontier, current, stats, token⟩
      else
        .going <| closeEdge
          ⟨Visited.insert visited next (some k), frontier.push next, current, stats, token⟩ m k

/-- Follows the edge at `k` of `m`, after the poll. -/
def crossEdge (rules : WalkRules V) (w : Walk V) (m : ExchangeMatrix) (k : Nat) : Progress V :=
  match m.mutate? k with
  | .error _ => .halted .overflow w
  | .ok next =>
    match w with
    | ⟨visited, frontier, current, stats, token⟩ =>
      match Visited.reach visited next k with
      | (some _, visited) => .going (closeEdge ⟨visited, frontier, current, stats, token⟩ m k)
      | (none, visited) => discover rules ⟨visited, frontier, current, stats, token⟩ m k next

/-- Counts the edge at `k` of `m`, polls the token if it is time to, and follows the edge. -/
def followEdge (rules : WalkRules V) (w : Walk V) (m : ExchangeMatrix) (k : Nat) : Progress V :=
  match w with
  | ⟨visited, frontier, current, stats, token⟩ =>
    let stats := { stats with exploredEdges := stats.exploredEdges + 1 }
    if stats.exploredEdges % rules.pollEvery = 0 then
      let (stopped, token) := token.poll
      if stopped then .halted .cancelled ⟨visited, frontier, current, stats, token⟩
      else crossEdge rules ⟨visited, frontier, current, stats, token⟩ m k
    else crossEdge rules ⟨visited, frontier, current, stats, token⟩ m k

/-- Takes the first matrix of the frontier. -/
def takeUp (w : Walk V) : Progress V :=
  match w with
  | ⟨visited, frontier, _, stats, token⟩ =>
    match frontier.pop? with
    | none => .halted .exhausted ⟨visited, frontier, none, stats, token⟩
    | some (m, frontier) =>
      let (stopped, token) := token.poll
      if stopped then .halted .cancelled ⟨visited, frontier, none, stats, token⟩
      else .going ⟨visited, frontier, some m, stats, token⟩

/-- Gives up `m`, whose edges are all marked. -/
def giveUp (w : Walk V) (m : ExchangeMatrix) : Walk V :=
  match w with
  | ⟨visited, frontier, _, stats, token⟩ =>
    match Visited.remove visited m with
    | (removed, visited) =>
      let stats := { stats with evicted := stats.evicted + if removed then 1 else 0 }
      ⟨visited, frontier, none, stats, token⟩

/-- One step of the walk. -/
def step (rules : WalkRules V) (w : Walk V) : Progress V :=
  match w.current with
  | none => takeUp w
  | some m =>
    match (Visited.record? w.visited m).bind LinkRecord.nextUnmarked? with
    | none => .going (giveUp w m)
    | some k => followEdge rules w m k

/-- At most `fuel` steps of the walk. -/
def run (rules : WalkRules V) : (fuel : Nat) → Walk V → Halt × Walk V
  | 0, w => (.outOfSteps, w)
  | fuel + 1, w =>
    match step rules w with
    | .going w => run rules fuel w
    | .halted h w => (h, w)

/-- The walk that has found `seed` alone and stores it. -/
def start (seed : ExchangeMatrix) (visited : V) (token : Token) : Walk V :=
  ⟨Visited.insert visited seed none, .singleton seed, none, ⟨1, 0, 0, 1, 1⟩, token⟩

/-- A number of steps within which every walk from `seed` halts: each of the matrices of its shape
is taken up once, given up once, and has as many edges as `seed` has mutable vertices. -/
def stepBound (seed : ExchangeMatrix) : Nat :=
  (seed.rank + 2) * (1 <<< (32 * (seed.rows * seed.cols))) + 1

/-- The state of an exploration before its first step: the seed is asked for, and stored unless that
settles the matter. -/
def opening (rules : WalkRules V) (seed : ExchangeMatrix) (visited : V) (token : Token) :
    Progress V :=
  match rules.isTarget visited seed with
  | (true, visited) => .halted .target ⟨visited, .singleton seed, none, ⟨1, 0, 0, 1, 1⟩, token⟩
  | (false, visited) =>
    if rules.stopOnCertificate && seed.certifiesInfinite then
      .halted .certificate ⟨visited, .singleton seed, none, ⟨1, 0, 0, 1, 1⟩, token⟩
    else .going (start seed visited token)

end Walk

/-- Walks from `seed` over an empty store. -/
def explore {V : Type} [Visited V] (rules : WalkRules V) (seed : ExchangeMatrix) (visited : V)
    (token : Token) : Halt × Walk V :=
  match Walk.opening rules seed visited token with
  | .going w => Walk.run rules (Walk.stepBound seed) w
  | .halted h w => (h, w)

end MutationFinite
