import MutationFinite.Proofs.RandomWalk.Stopping
import Mathlib.Order.Bounds.Basic

/-!
# Random walks as plain runs of mutations

A random walk writes each matrix over the one before the last, draws among the vertices other than
the last one, and looks at its token now and then.  What it finds is said here without all that: a
run mutates at the vertices picked, one after another, up to the first step that proves the class
infinite.

* `pickedVertex`: the vertices picked; `exists_draw_iff` says how a draw picks one.
* `mutateAlong`, `ProvesAt`: the plain run, and the steps of it that prove the class infinite.
* `walkSteps_eq_some_iff`: a walk that nobody stops finds the first of these steps.
* `walkSteps_late`: a walk that somebody stops misses late steps only.
-/

namespace MutationFinite

open ExchangeMatrix

/-! ### The vertices picked -/

/-- The number of vertices, of `n`, that a draw decides between after `last`. -/
def choices (n : Nat) : (last : Option Nat) → Nat
  | none => n
  | some _ => n - 1

section Picks

variable {σ : Type} (draw : Nat → σ → Nat × σ) (n : Nat) (s : σ)

/-- The vertex of the last of `count` picks, and the state of the source after them. -/
def picks : (count : Nat) → Option Nat × σ
  | 0 => (none, s)
  | count + 1 =>
    let (last, s) := picks count
    let (k, s) := pickVertex draw n last s
    (some k, s)

/-- The vertex of pick `i`, counted from 0. -/
def pickedVertex (i : Nat) : Nat := (pickVertex draw n (picks draw n s i).1 (picks draw n s i).2).1

variable {draw n s} {last : Option Nat} {s' : σ} {i : Nat}

theorem pickedVertex_eq (h : picks draw n s i = (last, s')) :
    pickedVertex draw n s i = (pickVertex draw n last s').1 := by
  rw [pickedVertex, h]

theorem picks_succ (h : picks draw n s i = (last, s')) :
    picks draw n s (i + 1) =
      (some (pickedVertex draw n s i), (pickVertex draw n last s').2) := by
  rw [pickedVertex_eq h, picks, h]

theorem pickedVertex_lt (hdraw : DrawsBelow draw n) (hn : 2 ≤ n) (i : Nat) :
    pickedVertex draw n s i < n :=
  pickVertex_lt hdraw hn _ _

/-- A pick is no repetition. -/
theorem pickVertex_ne (draw : Nat → σ → Nat × σ) (n l : Nat) (s : σ) :
    (pickVertex draw n (some l) s).1 ≠ l := by
  rcases hdraw : draw (n - 1) s with ⟨k, s'⟩
  simp only [pickVertex, hdraw]
  split <;> omega

theorem pickedVertex_succ_ne (i : Nat) :
    pickedVertex draw n s (i + 1) ≠ pickedVertex draw n s i := by
  rw [pickedVertex_eq (picks_succ rfl)]
  exact pickVertex_ne draw n _ _

/-- **Each vertex other than the last one is picked at one value of the draw.** -/
theorem exists_draw_iff (draw : Nat → σ → Nat × σ) {n v : Nat} {last : Option Nat}
    (hlast : ∀ l ∈ last, l < n) (hv : v < n) (hne : last ≠ some v) :
    ∃ d < choices n last, ∀ s,
      (pickVertex draw n last s).1 = v ↔ (draw (choices n last) s).1 = d := by
  cases last with
  | none => exact ⟨v, hv, fun s => .rfl⟩
  | some l =>
      have hl : l < n := hlast l rfl
      have hvl : v ≠ l := fun h => hne (by rw [h])
      -- the vertices above the last one are moved down by one
      refine ⟨if v < l then v else v - 1, ?_, fun s => ?_⟩
      · show _ < n - 1
        split <;> omega
      · rcases hdraw : draw (n - 1) s with ⟨k, s'⟩
        simp only [pickVertex, choices, hdraw]
        split <;> split <;> omega

end Picks

/-! ### Plain runs -/

/-- The matrix after `count` mutations of `seed`, one after another, at the vertices `k`. -/
def mutateAlong (seed : ExchangeMatrix) (k : Nat → Nat) :
    (count : Nat) → Except Error ExchangeMatrix
  | 0 => .ok seed
  | count + 1 => do (← mutateAlong seed k count).mutate? (k count)

/-- A step of the run, counted from 1, overflows or comes to a matrix with a certificate. -/
inductive ProvesAt (seed : ExchangeMatrix) (k : Nat → Nat) : Nat → Prop where
  | overflows {i : Nat} {m : ExchangeMatrix} (hm : mutateAlong seed k i = .ok m)
      (h : m.mutate? (k i) = .error (.entryOverflow (k i))) : ProvesAt seed k (i + 1)
  | certifies {i : Nat} {m : ExchangeMatrix} (hm : mutateAlong seed k (i + 1) = .ok m)
      (h : m.certifiesInfinite = true) : ProvesAt seed k (i + 1)

theorem ProvesAt.pos {seed : ExchangeMatrix} {k : Nat → Nat} {i : Nat} (h : ProvesAt seed k i) :
    0 < i := by
  cases h <;> exact Nat.succ_pos _

section Run

variable {seed m m' : ExchangeMatrix} {k : Nat → Nat} {i : Nat}

theorem mutateAlong_succ (hm : mutateAlong seed k i = .ok m) :
    mutateAlong seed k (i + 1) = m.mutate? (k i) := by
  rw [mutateAlong, hm]
  rfl

theorem reaches_of_mutateAlong (hm : mutateAlong seed k i = .ok m) : Reaches seed m := by
  induction i generalizing m with
  | zero =>
      cases hm
      exact .refl seed
  | succ i ih =>
      cases hbefore : mutateAlong seed k i with
      | error e =>
          rw [mutateAlong, hbefore] at hm
          cases hm
      | ok b =>
          rw [mutateAlong_succ hbefore] at hm
          exact .step (ih hbefore) hm

/-- A step that does not overflow proves the class infinite by the certificate alone. -/
theorem provesAt_iff_certifies (hm : mutateAlong seed k i = .ok m)
    (h : m.mutate? (k i) = .ok m') : ProvesAt seed k (i + 1) ↔ m'.certifiesInfinite = true := by
  have hnext : mutateAlong seed k (i + 1) = .ok m' := (mutateAlong_succ hm).trans h
  refine ⟨fun hproves => ?_, .certifies hnext⟩
  cases hproves with
  | overflows hm' herror =>
      obtain rfl := Except.ok.inj (hm.symm.trans hm')
      cases h.symm.trans herror
  | certifies hm' hcert =>
      obtain rfl := Except.ok.inj (hnext.symm.trans hm')
      exact hcert

end Run

/-! ### First steps -/

section First

variable {P : Nat → Prop} {i remaining steps : Nat}

/-- The first of the next `remaining` steps after `i` with the property `P`. -/
def FirstWithin (P : Nat → Prop) (i remaining steps : Nat) : Prop :=
  IsLeast {j | i < j ∧ j ≤ i + remaining ∧ P j} steps

theorem not_firstWithin_zero : ¬ FirstWithin P i 0 steps := by
  rintro ⟨⟨hlt, hle, -⟩, -⟩
  omega

theorem firstWithin_here (h : P (i + 1)) :
    FirstWithin P i (remaining + 1) steps ↔ steps = i + 1 := by
  have hleast : FirstWithin P i (remaining + 1) (i + 1) :=
    ⟨⟨Nat.lt_succ_self i, by omega, h⟩, fun _ hj => hj.1⟩
  exact ⟨fun hsteps => hsteps.unique hleast, fun hsteps => hsteps ▸ hleast⟩

theorem firstWithin_later (h : ¬ P (i + 1)) :
    FirstWithin P i (remaining + 1) steps ↔ FirstWithin P (i + 1) remaining steps := by
  have hsame : {j | i < j ∧ j ≤ i + (remaining + 1) ∧ P j} =
      {j | i + 1 < j ∧ j ≤ i + 1 + remaining ∧ P j} := by
    ext j
    refine ⟨fun ⟨hlt, hle, hj⟩ => ⟨?_, by omega, hj⟩,
      fun ⟨hlt, hle, hj⟩ => ⟨by omega, by omega, hj⟩⟩
    exact Nat.lt_of_le_of_ne hlt fun heq => h (heq ▸ hj)
  rw [FirstWithin, hsame, FirstWithin]

theorem firstWithin_zero_iff (hpos : ∀ i, P i → 0 < i) :
    FirstWithin P 0 remaining steps ↔ IsLeast {i | i ≤ remaining ∧ P i} steps := by
  have hsame : {j | 0 < j ∧ j ≤ 0 + remaining ∧ P j} = {i | i ≤ remaining ∧ P i} := by
    ext j
    rw [Nat.zero_add]
    exact and_iff_right_of_imp fun hj => hpos j hj.2
  rw [FirstWithin, hsame]

/-- Without a first step there is none. -/
theorem forall_not_isLeast_iff :
    (∀ steps, ¬ IsLeast {i | i ≤ remaining ∧ P i} steps) ↔ ∀ i ≤ remaining, ¬ P i := by
  refine ⟨fun h i hi hP => ?_, fun h steps hsteps => h steps hsteps.1.1 hsteps.1.2⟩
  classical
  have hex : ∃ i, i ≤ remaining ∧ P i := ⟨i, hi, hP⟩
  exact h _ ⟨Nat.find_spec hex, fun _ hj => Nat.find_min' hex hj⟩

end First

/-! ### Walks that nobody stops -/

section Walk

variable {σ : Type} {draw : Nat → σ → Nat × σ} {n : Nat} {seed current spare : ExchangeMatrix}
  {last : Option Nat} {s s₀ : σ} {token : Token} {steps : Nat}

/-- **A walk that nobody stops finds the first step that proves the class infinite.**  The stale
cells of the buffer are all written over, so that step by step the walk is at the matrix of the
plain run. -/
theorem walkSteps_eq_some_iff (hdraw : DrawsBelow draw n) (hn : 2 ≤ n) (hrank : n = seed.rank)
    (remaining i : Nat) (hcurrent : mutateAlong seed (pickedVertex draw n s₀) i = .ok current)
    (hspare : SameShape spare current) (hpicks : picks draw n s₀ i = (last, s))
    (ht : token.NeverStops) :
    (walkSteps draw n remaining i current spare last s token).1 = some steps ↔
      FirstWithin (ProvesAt seed (pickedVertex draw n s₀)) i remaining steps := by
  induction remaining generalizing i current spare last s token with
  | zero => exact iff_of_false nofun not_firstWithin_zero
  | succ remaining ih =>
      obtain ⟨token', hpoll, ht'⟩ := ht.poll_if ((i + 1) % walkPollEvery = 0)
      have hnext := picks_succ hpicks
      have hk := pickedVertex_eq hpicks
      rcases hpick : pickVertex draw n last s with ⟨k, s'⟩
      rw [hpick] at hnext hk
      obtain rfl : pickedVertex draw n s₀ i = k := hk
      have hlt : pickedVertex draw n s₀ i < current.rank := by
        rw [(reaches_of_mutateAlong hcurrent).shape.rank_eq, ← hrank]
        exact pickedVertex_lt hdraw hn i
      simp only [walkSteps, hpoll, hpick, Bool.false_eq_true, if_false]
      rcases hwrite : current.overwriteMutated (pickedVertex draw n s₀ i) spare with ⟨next, done⟩
      cases done with
      | false =>
          have hover := mutate?_error_of_overwriteMutated hspare hlt (by rw [hwrite])
          rw [firstWithin_here (.overflows hcurrent hover), Option.some_inj, eq_comm]
      | true =>
          have hto := mutate?_of_overwriteMutated hspare hlt hwrite
          have hproves := provesAt_iff_certifies hcurrent hto
          by_cases hcert : next.certifiesInfinite = true
          · simp only [hcert, if_true]
            rw [firstWithin_here (hproves.mpr hcert), Option.some_inj, eq_comm]
          · simp only [hcert]
            rw [firstWithin_later (mt hproves.mp hcert)]
            exact ih (i + 1) ((mutateAlong_succ hcurrent).trans hto)
              (mutatesTo_of_mutate? hto).shape.symm hnext ht'

/-! ### Walks that somebody stops -/

/-- A step that a walk finds is one of those that were left. -/
theorem walkSteps_lt (remaining i : Nat)
    (h : (walkSteps draw n remaining i current spare last s token).1 = some steps) : i < steps := by
  induction remaining generalizing i current spare last s token with
  | zero => cases h
  | succ remaining ih =>
      rcases hpoll : (if (i + 1) % walkPollEvery = 0 then token.poll else (false, token))
        with ⟨stopped, token'⟩
      simp only [walkSteps, hpoll] at h
      cases stopped with
      | true => cases h
      | false =>
          simp only [Bool.false_eq_true, if_false] at h
          split at h
          · cases h
            exact Nat.lt_succ_self i
          · split at h
            · cases h
              exact Nat.lt_succ_self i
            · exact Nat.lt_of_succ_lt (ih _ h)

/-- **A walk that somebody stops misses late steps only**: it looks at its token every 64 steps. -/
theorem walkSteps_late (remaining i : Nat) {token' : Token} (ht : token.NeverStops) :
    let quiet := (walkSteps draw n remaining i current spare last s token).1
    let found := (walkSteps draw n remaining i current spare last s token').1
    found = quiet ∨ found = none ∧ ∃ steps, quiet = some steps ∧ walkPollEvery ≤ steps := by
  intro quiet found
  induction remaining generalizing i current spare last s token token' with
  | zero => exact .inl rfl
  | succ remaining ih =>
      rcases hpoll' : (if (i + 1) % walkPollEvery = 0 then token'.poll else (false, token'))
        with ⟨stopped, t'⟩
      cases stopped with
      | true =>
          have hfound : found = none := by simp only [found, walkSteps, hpoll', if_true]
          -- the walk has looked at its token, so that this step is a late one
          have hindex : (i + 1) % walkPollEvery = 0 := by
            by_contra hindex
            rw [if_neg hindex] at hpoll'
            cases hpoll'
          have hlate : walkPollEvery ≤ i + 1 :=
            Nat.le_of_dvd (Nat.succ_pos i) (Nat.dvd_of_mod_eq_zero hindex)
          cases hquiet : quiet with
          | none => exact .inl hfound
          | some steps => exact .inr ⟨hfound, steps, rfl, hlate.trans (walkSteps_lt _ i hquiet)⟩
      | false =>
          obtain ⟨t, hpoll, ht⟩ := ht.poll_if ((i + 1) % walkPollEvery = 0)
          simp only [quiet, found, walkSteps, hpoll, hpoll', Bool.false_eq_true, if_false]
          split
          · exact .inl rfl
          · split
            · exact .inl rfl
            · exact ih (i + 1) ht

end Walk

/-! ### Random walks -/

/-- **A random walk is a plain run of mutations.**  Over draws that keep below their bounds, and
with the flag of the other walks down and the token not stopped, it finds the first of `maxSteps`
steps along the vertices picked that overflows or comes to a matrix with a certificate, and nothing
if there is none.  All vertices picked are mutable and none is picked twice in a row; a vertex that
may be picked is picked at one value of the draw.  A flag that is raised and a token that is stopped
lose nothing but finds after 64 steps or more. -/
theorem randomWalk_eq_plainRun {σ : Type} (draw : Nat → σ → Nat × σ) (seed : ExchangeMatrix)
    (maxSteps : Nat) (s : σ) (hrank : 2 ≤ seed.rank) (hdraw : DrawsBelow draw seed.rank) :
    let picked := pickedVertex draw seed.rank s
    let found (flag token : Token) := (randomWalk draw seed maxSteps s (flag.either token)).1
    (∀ flag token : Token, flag.NeverStops → token.NeverStops →
      (∀ steps, found flag token = some steps ↔
        IsLeast {i | i ≤ maxSteps ∧ ProvesAt seed picked i} steps) ∧
      (found flag token = none ↔ ∀ i ≤ maxSteps, ¬ ProvesAt seed picked i)) ∧
    (∀ i, picked i < seed.rank ∧ picked (i + 1) ≠ picked i) ∧
    (∀ last : Option Nat, (∀ l ∈ last, l < seed.rank) → ∀ v < seed.rank, last ≠ some v →
      ∃ d < choices seed.rank last, ∀ s,
        (pickVertex draw seed.rank last s).1 = v ↔ (draw (choices seed.rank last) s).1 = d) ∧
    ∀ flag token : Token, found flag token = found .running .running ∨
      found flag token = none ∧ ∃ steps, found .running .running = some steps ∧ 64 ≤ steps := by
  intro picked found
  have hquiet : ∀ flag token : Token, flag.NeverStops → token.NeverStops → ∀ steps,
      found flag token = some steps ↔
        IsLeast {i | i ≤ maxSteps ∧ ProvesAt seed picked i} steps := by
    intro flag token hflag ht steps
    rw [← firstWithin_zero_iff fun i h => h.pos]
    simp only [found, randomWalk, if_neg (Nat.not_lt.mpr hrank)]
    exact walkSteps_eq_some_iff hdraw hrank rfl maxSteps 0 rfl seed.sameShape_zeros rfl
      (hflag.either ht)
  refine ⟨fun flag token hflag ht => ⟨hquiet flag token hflag ht, ?_⟩, fun i => ?_,
    fun last hlast v hv hne => exists_draw_iff draw hlast hv hne, fun flag token => ?_⟩
  · rw [Option.eq_none_iff_forall_ne_some]
    simp only [ne_eq, hquiet flag token hflag ht]
    exact forall_not_isLeast_iff
  · exact ⟨pickedVertex_lt hdraw hrank i, pickedVertex_succ_ne i⟩
  · simp only [found, randomWalk, if_neg (Nat.not_lt.mpr hrank)]
    exact walkSteps_late maxSteps 0
      (Token.neverStops_running.either Token.neverStops_running)

/-! ### A walk of three steps -/

/-- A matrix of four vertices. -/
def fourVertices (rows : List (List Int)) : ExchangeMatrix :=
  .ofFn 4 4 fun i j => .ofInt ((rows.getD i []).getD j 0)

/-- Draws that count. -/
def counting (bound s : Nat) : Nat × Nat := (s % bound, s + 1)

/-- An acyclic tournament is walked from at the vertices 0, 2 and 3, until there are four arrows
between two vertices; the second step writes over the seed, and the third over the first. -/
theorem randomWalk_eq_plainRun_tournament :
    let tournament := fourVertices [[0, 1, 1, 1], [-1, 0, 1, 1], [-1, -1, 0, 1], [-1, -1, -1, 0]]
    2 ≤ tournament.rank ∧ DrawsBelow counting tournament.rank ∧
      (randomWalk counting tournament 100 0 (Token.running.either .running)).1 = some 3 := by
  intro tournament
  have hrank : 2 ≤ tournament.rank := by decide
  have hdraw : DrawsBelow counting tournament.rank := fun bound s hpos _ => Nat.mod_lt s hpos
  refine ⟨hrank, hdraw, ?_⟩
  let picked := pickedVertex counting 4 0
  let first := fourVertices [[0, -1, -1, -1], [1, 0, 1, 1], [1, -1, 0, 1], [1, -1, -1, 0]]
  let second := fourVertices [[0, -2, 1, -1], [2, 0, -1, 2], [-1, 1, 0, -1], [1, -2, 1, 0]]
  let third := fourVertices [[0, -4, 1, 1], [4, 0, 1, -2], [-1, -1, 0, 1], [-1, 2, -1, 0]]
  have h₁ : tournament.mutate? (picked 0) = .ok first := mutate?_eq_ok_iff.mpr (by decide)
  have h₂ : first.mutate? (picked 1) = .ok second := mutate?_eq_ok_iff.mpr (by decide)
  have h₃ : second.mutate? (picked 2) = .ok third := mutate?_eq_ok_iff.mpr (by decide)
  have along₁ : mutateAlong tournament picked 1 = .ok first := h₁
  have along₂ : mutateAlong tournament picked 2 = .ok second := (mutateAlong_succ along₁).trans h₂
  have along₃ : mutateAlong tournament picked 3 = .ok third := (mutateAlong_succ along₂).trans h₃
  obtain ⟨hquiet, -⟩ := randomWalk_eq_plainRun counting tournament 100 0 hrank hdraw
  refine ((hquiet .running .running Token.neverStops_running Token.neverStops_running).1 3).mpr
    ⟨⟨by decide, .certifies along₃ (by decide)⟩, ?_⟩
  rintro i ⟨-, hi⟩
  by_contra hlt
  have hcases : i = 1 ∨ i = 2 := by
    have := hi.pos
    omega
  rcases hcases with rfl | rfl
  · cases ((provesAt_iff_certifies rfl h₁).mp hi).symm.trans (by decide : _ = false)
  · cases ((provesAt_iff_certifies along₁ h₂).mp hi).symm.trans (by decide : _ = false)

end MutationFinite
