import MutationFinite.Matrix.Sweep
import MutationFinite.Proofs.Mutation.Overflow

/-!
# Buffers of mutations

A mutation is written over a buffer, position after position in the order of the rows.  Whether all
positions are written does not hang on the buffer, and those written hold the mutation whatever the
buffer held; from the first position that overflows on, the buffer is as it was.

* `Written`: a buffer with the mutation up to a position and its old entries from there on;
  `Written.unique` says that the position determines it.
* `Wrote`: how writing ends; `Wrote.unique` says that the matrix, the vertex and the old buffer
  determine it.
* `Sweeps`: what a part of a sweep does, one rule for each way to put parts together;
  `run_sweep` says that a sweep row by row is the same as writing position after position.
* `mutateInto_ignores_buffer`: **what the buffer held before does not matter.**
-/

namespace MutationFinite

instance (x y : Int) : Decidable (Entry.Fits x y) := decidable_of_iff _ Entry.fits_iff.symm

namespace ExchangeMatrix

variable {m m' out : ExchangeMatrix} {k p q : Nat} {old a b : Array Entry} {done done' : Bool}

/-! ### Positions -/

/-- The value at position `p` of the mutation of `m` at `k`. -/
def mutatedAt? (m : ExchangeMatrix) (k p : Nat) : Option Entry :=
  m.mutatedCell? k (p / m.cols) (p % m.cols)

/-- The value at position `p` of the exact mutation at `k`. -/
def exactAt (m : ExchangeMatrix) (k p : Nat) : Int :=
  m.values.mutate k (p / m.cols) (p % m.cols)

/-- The value at position `p` of the exact mutation at `k` is in range, and so are the steps on the
way to it when it is not a negation. -/
def FitsAt (m : ExchangeMatrix) (k p : Nat) : Prop :=
  Entry.InRange (m.exactAt k p) ∧
    (p / m.cols ≠ k → p % m.cols ≠ k →
      Entry.Fits (m.values (p / m.cols) k) (m.values k (p % m.cols)))

instance (m : ExchangeMatrix) (k p : Nat) : Decidable (m.FitsAt k p) :=
  inferInstanceAs (Decidable (_ ∧ (_ → _ → _)))

theorem mutatedAt?_eq_none_iff : m.mutatedAt? k p = none ↔ ¬ m.FitsAt k p := by
  rw [FitsAt, exactAt, ← exists_mutatedCell?_iff, ← Option.isSome_iff_exists,
    Option.not_isSome_iff_eq_none]
  rfl

theorem mutatedAt?_pos {i j : Nat} (hi : i < m.rows) (hj : j < m.cols) :
    m.mutatedAt? k (i * m.cols + j) = m.mutatedCell? k i j := by
  obtain ⟨-, hdiv, hmod⟩ := pos_div_mod hi hj
  rw [mutatedAt?, hdiv, hmod]

/-! ### Buffers written up to a position -/

/-- The buffer `out` holds the mutation of `m` at `k` at the positions below `q`, and what `old`
held at all others. -/
structure Written (m : ExchangeMatrix) (k : Nat) (old : Array Entry) (q : Nat)
    (out : Array Entry) : Prop where
  before : ∀ p < q, ∃ e, m.mutatedAt? k p = some e ∧ out[p]? = some e
  behind : ∀ p, q ≤ p → out[p]? = old[p]?

namespace Written

theorem start (m : ExchangeMatrix) (k : Nat) (old : Array Entry) : Written m k old 0 old :=
  ⟨fun _ h => absurd h (Nat.not_lt_zero _), fun _ _ => rfl⟩

theorem unique (ha : Written m k old q a) (hb : Written m k old q b) : a = b := by
  refine Array.ext_getElem? fun p => ?_
  rcases Nat.lt_or_ge p q with hp | hp
  · obtain ⟨e, he, hae⟩ := ha.before p hp
    obtain ⟨e', he', hbe⟩ := hb.before p hp
    rw [hae, hbe, ← he, ← he']
  · rw [ha.behind p hp, hb.behind p hp]

/-- The next position is written. -/
theorem next {e : Entry} (h : Written m k old q a) (he : m.mutatedAt? k q = some e)
    (hq : q < old.size) : Written m k old (q + 1) (a.setIfInBounds q e) := by
  have hsame : a[q]? = some old[q] := by rw [h.behind q le_rfl, Array.getElem?_eq_getElem hq]
  obtain ⟨hlt, -⟩ := Array.getElem?_eq_some_iff.mp hsame
  constructor
  · intro p hp
    rcases Nat.lt_succ_iff_lt_or_eq.mp hp with hp | rfl
    · rw [Array.getElem?_setIfInBounds_ne (Nat.ne_of_gt hp)]
      exact h.before p hp
    · exact ⟨e, he, by rw [Array.getElem?_setIfInBounds_self_of_lt hlt]⟩
  · intro p hp
    rw [Array.getElem?_setIfInBounds_ne (Nat.ne_of_lt hp)]
    exact h.behind p (Nat.le_of_succ_le hp)

/-- All positions that are written are defined. -/
theorem le_of_undefined (h : Written m k old q a) (hnone : m.mutatedAt? k p = none) : q ≤ p := by
  by_contra hlt
  obtain ⟨e, he, -⟩ := h.before p (Nat.lt_of_not_le hlt)
  cases hnone.symm.trans he

end Written

/-- A position that is written holds the exact mutation. -/
theorem Written.exact (h : Written m k old q a) (hp : p < q) :
    ∃ e, a[p]? = some e ∧ e.val = m.exactAt k p := by
  obtain ⟨e, he, hap⟩ := h.before p hp
  exact ⟨e, hap, val_of_mutatedCell? he⟩

/-! ### How writing ends -/

/-- Writing over `old` ends with the buffer `out`: at all positions, or at the first one that is
undefined. -/
inductive Wrote (m : ExchangeMatrix) (k : Nat) (old : Array Entry) : Bool → Array Entry → Prop where
  | all {out : Array Entry} (h : Written m k old m.entries.size out) : Wrote m k old true out
  | upTo {q : Nat} {out : Array Entry} (hq : q < m.entries.size) (hnone : m.mutatedAt? k q = none)
      (h : Written m k old q out) : Wrote m k old false out

/-- Where writing ends early, it ends at the first position that does not fit. -/
theorem Wrote.exists_isLeast (h : Wrote m k old false a) :
    ∃ q, IsLeast {p | p < m.rows * m.cols ∧ ¬ m.FitsAt k p} q ∧ Written m k old q a := by
  cases h with
  | upTo hq hnone ha =>
      refine ⟨_, ⟨⟨m.size_entries ▸ hq, mutatedAt?_eq_none_iff.mp hnone⟩, ?_⟩, ha⟩
      rintro p ⟨-, hp⟩
      exact ha.le_of_undefined (mutatedAt?_eq_none_iff.mpr hp)

theorem Wrote.unique (h : Wrote m k old done a) (h' : Wrote m k old done' b) :
    done = done' ∧ a = b := by
  cases h with
  | all ha =>
      cases h' with
      | all hb => exact ⟨rfl, ha.unique hb⟩
      | upTo hq hnone => exact absurd (ha.le_of_undefined hnone) (Nat.not_le.mpr hq)
  | upTo hq hnone ha =>
      cases h' with
      | all hb => exact absurd (hb.le_of_undefined hnone) (Nat.not_le.mpr hq)
      | upTo hq' hnone' hb =>
          obtain rfl := Nat.le_antisymm (ha.le_of_undefined hnone') (hb.le_of_undefined hnone)
          exact ⟨rfl, ha.unique hb⟩

/-- Writing one position after another ends so. -/
theorem wrote_writeMutated (hs : SameShape out m) :
    Wrote m k out.entries (m.writeMutated k out.entries 0).2
      (m.writeMutated k out.entries 0).1 := by
  obtain ⟨q, -, -, hin, hout, hend⟩ :=
    writeMutated_spec m k out.entries 0 hs.size_eq (Nat.zero_le _)
  have hwritten : Written m k out.entries q (m.writeMutated k out.entries 0).1 :=
    ⟨fun p hp => hin p (Nat.zero_le p) hp, fun p hp => hout p (.inr hp)⟩
  rcases hend with ⟨hdone, rfl⟩ | ⟨hdone, hq, hnone⟩
  · rw [hdone]
    exact .all hwritten
  · rw [hdone]
    exact .upTo hq hnone hwritten

/-! ### Sweeps -/

/-- From a buffer that is written up to position `p`, the computation `x` writes on up to position
`p'`, or ends at an undefined position before `p'` with an overflow at `k`. -/
def Sweeps (m : ExchangeMatrix) (k : Nat) (old : Array Entry) (p p' : Nat) (x : SweepM Unit) :
    Prop :=
  ∀ a, Written m k old p a →
    (∃ b, x.run a = (.ok (), b) ∧ Written m k old p' b) ∨
      ∃ q b, q < p' ∧ m.mutatedAt? k q = none ∧ x.run a = (.error (.entryOverflow k), b) ∧
        Written m k old q b

namespace Sweeps

variable {p' p'' n : Nat} {x y : SweepM Unit}

theorem pure (m : ExchangeMatrix) (k : Nat) (old : Array Entry) (p : Nat) :
    Sweeps m k old p p (Pure.pure ()) :=
  fun a ha => .inl ⟨a, rfl, ha⟩

theorem bind (hx : Sweeps m k old p p' x) (hy : Sweeps m k old p' p'' y) (hle : p' ≤ p'') :
    Sweeps m k old p p'' (x >>= fun _ => y) := by
  intro a ha
  have hrun : (x >>= fun _ => y).run a =
      match x.run a with | (answer, b) => ExceptT.bindCont (fun _ => y) answer b := rfl
  rcases hx a ha with ⟨b, hb, hwritten⟩ | ⟨q, b, hq, hnone, hb, hwritten⟩
  · rw [hrun, hb]
    exact hy b hwritten
  · rw [hrun, hb]
    exact .inr ⟨q, b, hq.trans_le hle, hnone, rfl, hwritten⟩

/-- A loop goes on from one stop to the next. -/
theorem forM {f : Nat → SweepM Unit} {stop : Nat → Nat} (hmono : Monotone stop)
    (h : ∀ i < n, Sweeps m k old (stop i) (stop (i + 1)) (f i)) :
    Sweeps m k old (stop 0) (stop n) (ForM.forM (List.range n) f) := by
  induction n with
  | zero => exact pure m k old _
  | succ n ih =>
      have hlast : Sweeps m k old (stop n) (stop (n + 1)) (ForM.forM [n] f) := by
        rw [List.forM_cons]
        exact bind (h n (Nat.lt_succ_self n)) (pure m k old _) le_rfl
      rw [List.range_succ, List.forM_append]
      exact bind (ih fun i hi => h i (Nat.lt_succ_of_lt hi)) hlast (hmono (Nat.le_succ n))

end Sweeps

/-- One cell is written at its position. -/
theorem sweeps_sweepCell {i j : Nat} (hs : SameShape out m) (hi : i < m.rows) (hj : j < m.cols) :
    Sweeps m k out.entries (i * m.cols + j) (i * m.cols + (j + 1))
      (m.sweepCell k i (m.cell i k) j) := by
  intro a ha
  have hcell : m.mutatedAt? k (i * m.cols + j) =
      if i = k ∨ j = k then (m.cell i j).neg?
      else Entry.mutated? (m.cell i j) (m.cell i k) (m.cell k j) := mutatedAt?_pos hi hj
  cases hat : m.mutatedAt? k (i * m.cols + j) with
  | none =>
      have hrun : (m.sweepCell k i (m.cell i k) j).run a = (.error (.entryOverflow k), a) := by
        rw [sweepCell, ← hcell, hat]
        rfl
      exact .inr ⟨_, a, Nat.lt_succ_self _, hat, hrun, ha⟩
  | some e =>
      have hrun : (m.sweepCell k i (m.cell i k) j).run a =
          (.ok (), a.setIfInBounds (i * m.cols + j) e) := by
        rw [sweepCell, ← hcell, hat]
        rfl
      have hsize : i * m.cols + j < out.entries.size := by
        rw [hs.size_eq, m.size_entries]
        exact pos_lt_size hi hj
      exact .inl ⟨_, hrun, ha.next hat hsize⟩

/-- The cells of one row are written between the position where the row starts and the one where
the next row does. -/
theorem sweeps_sweepRow {i : Nat} (hs : SameShape out m) (hi : i < m.rows) :
    Sweeps m k out.entries (i * m.cols) ((i + 1) * m.cols) (m.sweepRow k i) := by
  have hmono : Monotone fun j => i * m.cols + j := fun _ _ h => Nat.add_le_add_left h _
  have hrow := Sweeps.forM hmono fun j hj => sweeps_sweepCell (k := k) hs hi hj
  rwa [Nat.add_zero, ← Nat.succ_mul] at hrow

theorem sweeps_sweep (hs : SameShape out m) :
    Sweeps m k out.entries 0 (m.rows * m.cols) (m.sweep k) := by
  have hmono : Monotone fun i => i * m.cols := fun _ _ h => Nat.mul_le_mul_right _ h
  have hrows := Sweeps.forM hmono fun i hi => sweeps_sweepRow (k := k) hs hi
  rwa [Nat.zero_mul] at hrows

/-- **A sweep row by row writes what writing position after position writes**, and fails when that
comes to an undefined position. -/
theorem run_sweep (hs : SameShape out m) :
    (m.sweep k).run out.entries =
      (if (m.overwriteMutated k out).2 then .ok () else .error (.entryOverflow k),
        (m.overwriteMutated k out).1.entries) := by
  have hwrote := wrote_writeMutated (k := k) hs
  rw [← entries_overwriteMutated, ← done_overwriteMutated] at hwrote
  rcases sweeps_sweep (k := k) hs out.entries (Written.start m k out.entries) with
    ⟨b, hrun, hwritten⟩ | ⟨q, b, hq, hnone, hrun, hwritten⟩
  · rw [← m.size_entries] at hwritten
    obtain ⟨hdone, hb⟩ := hwrote.unique (.all hwritten)
    rw [hrun, hdone, hb]
    rfl
  · rw [← m.size_entries] at hq
    obtain ⟨hdone, hb⟩ := hwrote.unique (.upTo hq hnone hwritten)
    rw [hrun, hdone, hb]
    rfl

/-! ### Any buffer -/

theorem mutateInto_eq (hk : k < m.rank) (hs : SameShape out m) :
    m.mutateInto k out = .ok ((m.overwriteMutated k out).1,
      if (m.overwriteMutated k out).2 then none else some (.entryOverflow k)) := by
  rw [mutateInto, if_neg (Nat.not_le.mpr hk), if_neg (not_not.mpr hs)]

/-- **What the buffer held before does not matter.**  A mutation at a mutable vertex written over a
buffer of the right shape, position after position or in a sweep row by row, succeeds exactly when
the mutation is defined, and the buffer is then the mutated matrix.  Otherwise the error is that of
the mutation, an overflow that names the vertex, and the buffer holds the exact mutation at the
positions before the first one that overflows, and what it held before from there on. -/
theorem mutateInto_ignores_buffer (m out : ExchangeMatrix) (k : Nat) (hk : k < m.rank)
    (hs : SameShape out m) :
    ∃ written answer, m.mutateInto k out = .ok (written, answer) ∧ SameShape written m ∧
      (answer = none ↔ ∃ m', m.mutate? k = .ok m') ∧
      (∀ m', m.mutate? k = .ok m' →
        written = m' ∧ (m.sweep k).run out.entries = (.ok (), m'.entries)) ∧
      ∀ e, m.mutate? k = .error e → answer = some e ∧ e = .entryOverflow k ∧
        (m.sweep k).run out.entries = (.error e, written.entries) ∧
        ∃ q, IsLeast {p | p < m.rows * m.cols ∧ ¬ m.FitsAt k p} q ∧
          (∀ p < q, ∃ x, written.entries[p]? = some x ∧ x.val = m.exactAt k p) ∧
          ∀ p, q ≤ p → written.entries[p]? = out.entries[p]? := by
  have hinto := mutateInto_eq hk hs
  have hsweep := run_sweep (k := k) hs
  have hwrote : Wrote m k out.entries (m.overwriteMutated k out).2
      (m.overwriteMutated k out).1.entries := wrote_writeMutated hs
  refine ⟨_, _, hinto, ⟨hs.1, hs.2⟩, ?_⟩
  rcases hw : m.overwriteMutated k out with ⟨written, done⟩
  rw [hw] at hsweep hwrote
  cases done with
  | true =>
      have hto := mutate?_of_overwriteMutated hs hk hw
      refine ⟨iff_of_true rfl ⟨written, hto⟩, fun m' hm' => ?_, fun e he => ?_⟩
      · obtain rfl := Except.ok.inj (hto.symm.trans hm')
        exact ⟨rfl, hsweep⟩
      · cases hto.symm.trans he
  | false =>
      have hto : m.mutate? k = .error (.entryOverflow k) :=
        mutate?_error_of_overwriteMutated hs hk (by rw [hw])
      refine ⟨iff_of_false nofun fun ⟨m', hm'⟩ => ?_, fun m' hm' => ?_, fun e he => ?_⟩
      · cases hto.symm.trans hm'
      · cases hto.symm.trans hm'
      · obtain rfl := Except.error.inj (hto.symm.trans he)
        obtain ⟨q, hq, hwritten⟩ := hwrote.exists_isLeast
        exact ⟨rfl, rfl, hsweep, q, hq, fun p hp => hwritten.exact hp, hwritten.behind⟩

/-- Two vertices and a frozen row that begins with the least entry, which has no opposite. -/
def framedLeast : ExchangeMatrix :=
  .ofFn 3 2 fun i j =>
    let rows : List (List Int) := [[0, 1], [-1, 5], [-2147483648, 9]]
    .ofInt ((rows.getD i []).getD j 0)

/-- A buffer of sevens. -/
def sevens : ExchangeMatrix := .ofFn 3 2 fun _ _ => .ofInt 7

/-- The mutation at the first vertex overflows in the frozen row: the last cell before holds the
mutation, and the sevens of the frozen row are still there. -/
theorem mutateInto_ignores_buffer_framedLeast :
    0 < framedLeast.rank ∧ SameShape sevens framedLeast ∧
      ∃ written, framedLeast.mutateInto 0 sevens = .ok (written, some (.entryOverflow 0)) ∧
        written.entries[3]?.map Entry.val = some 5 ∧
        written.entries[4]?.map Entry.val = some 7 := by
  have hk : 0 < framedLeast.rank := by decide
  have hs : SameShape sevens framedLeast := by decide
  have hrefused : framedLeast.mutate? 0 = .error (.entryOverflow 0) :=
    (mutate?_eq_error_iff hk).mpr ⟨rfl, 2, by decide, 0, by decide, by decide⟩
  have hfirst :
      IsLeast {p | p < framedLeast.rows * framedLeast.cols ∧ ¬ framedLeast.FitsAt 0 p} 4 := by
    refine ⟨by decide, fun p hp => ?_⟩
    by_contra hlt
    have hfits : ∀ p < 4, framedLeast.FitsAt 0 p := by decide
    exact hp.2 (hfits p (Nat.lt_of_not_le hlt))
  obtain ⟨written, answer, hinto, -, -, -, herror⟩ :=
    mutateInto_ignores_buffer framedLeast sevens 0 hk hs
  obtain ⟨rfl, -, -, q, hq, hbefore, hbehind⟩ := herror _ hrefused
  obtain rfl := hq.unique hfirst
  obtain ⟨x, hx, hval⟩ := hbefore 3 (by decide)
  refine ⟨hk, hs, written, hinto, ?_, ?_⟩
  · rw [hx, Option.map_some, hval]
    decide
  · rw [hbehind 4 le_rfl]
    decide

end ExchangeMatrix

end MutationFinite
