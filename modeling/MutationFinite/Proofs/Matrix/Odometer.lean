import MutationFinite.Matrix.Odometer
import MutationFinite.Proofs.Iteration
import MutationFinite.Proofs.Matrix.Extension
import MutationFinite.Proofs.Matrix.Isolation
import MutationFinite.Proofs.Mutation.Involution
import Mathlib.Data.List.Lex

/-!
# The odometer shows every weight vector

The odometer moves from each reading to the next number, carries included, so that the iteration
over extensions runs through all readings but that of zeros, and ends.

* `wheels`: what the wheels show at a reading; `advance?_wheels`: **the odometer counts.**
* `reverse_wheels_lt`: the readings are in lexicographic order, the last wheel first.
* `yields_extensions`: the iteration yields the extensions in the order of their numbers.
* `weightVectors`: their weight vectors, which are all those in range but that of zeros.
-/

namespace MutationFinite

open ExchangeMatrix (skip map_skip_range Extends)

namespace Extensions

variable {x : Extensions} {n p q : Nat} {w : List Int}

/-! ### Counting -/

/-- What `n` wheels show at reading `p`. -/
def wheels (x : Extensions) (p n : Nat) : List Int := (List.range n).map (x.weightAt p)

@[simp] theorem length_wheels (x : Extensions) (p n : Nat) : (x.wheels p n).length = n := by
  rw [wheels, List.length_map, List.length_range]

theorem getD_wheels {i : Nat} (hi : i < n) : (x.wheels p n).getD i 0 = x.weightAt p i := by
  simp [wheels, hi]

/-- The first wheel shows the last digit, and the others show the reading without it. -/
theorem wheels_succ (x : Extensions) (p n : Nat) :
    x.wheels p (n + 1) = x.weightAt p 0 :: x.wheels (p / x.radix) n := by
  rw [wheels, List.range_succ_eq_map, List.map_cons, List.map_map, wheels]
  exact congrArg (x.weightAt p 0 :: ·) (List.map_congr_left fun i _ => x.weightAt_succ p i)

/-- **The odometer counts.** -/
theorem advance?_wheels (hp : p < x.radix ^ n) :
    advance? x.weight (x.wheels p n) =
      if p + 1 < x.radix ^ n then some (x.wheels (p + 1) n) else none := by
  induction n generalizing p with
  | zero =>
      rw [Nat.pow_zero] at hp ⊢
      rw [if_neg (by omega)]
      rfl
  | succ n ih =>
      have hradix : x.radix = 2 * x.weight + 1 := rfl
      have hsplit := Nat.mod_add_div p x.radix
      have hdigit := Nat.mod_lt p x.radix_pos
      simp only [Nat.pow_succ, ← Nat.div_lt_iff_lt_mul x.radix_pos] at hp ⊢
      rw [wheels_succ, wheels_succ, advance?, weightAt_zero, weightAt_zero]
      rcases Nat.lt_or_eq_of_le hdigit with hturn | hcarry
      · -- the first wheel moves on
        obtain ⟨hdiv, hmod⟩ := (Nat.div_mod_unique x.radix_pos).mpr
          (show p % x.radix + 1 + x.radix * (p / x.radix) = p + 1 ∧ _ from ⟨by omega, hturn⟩)
        rw [if_pos (by omega), hdiv, hmod, if_pos hp, Int.natCast_add_one, add_sub_right_comm]
      · -- the first wheel goes back, and the others show the next reading
        obtain ⟨hdiv, hmod⟩ := (Nat.div_mod_unique x.radix_pos).mpr
          (show 0 + x.radix * (p / x.radix + 1) = p + 1 ∧ _ from
            ⟨by rw [Nat.mul_add]; omega, x.radix_pos⟩)
        rw [if_neg (by omega), ih hp, hdiv, hmod]
        split
        · rw [Option.map_some, Int.natCast_zero, zero_sub]
        · rfl

/-! ### The order of the readings -/

/-- Lists of one length are compared before what follows them. -/
theorem append_lt_append {l l' s s' : List Int} (hlength : l.length = l'.length) (h : l < l') :
    l ++ s < l' ++ s' := by
  induction l generalizing l' with
  | nil => exact absurd h (by simp [List.length_eq_zero_iff.mp hlength.symm])
  | cons a l ih =>
      obtain ⟨b, l', rfl⟩ := List.exists_cons_of_length_eq_add_one hlength.symm
      rw [List.cons_append, List.cons_append, List.cons_lt_cons_iff]
      refine (List.cons_lt_cons_iff.mp h).imp_right fun ⟨hab, hlt⟩ => ⟨hab, ih ?_ hlt⟩
      exact Nat.succ.inj hlength

/-- Of two readings the less one shows less on the last wheel on which they differ. -/
theorem reverse_wheels_lt (hpq : p < q) (hq : q < x.radix ^ n) :
    (x.wheels p n).reverse < (x.wheels q n).reverse := by
  induction n generalizing p q with
  | zero =>
      rw [Nat.pow_zero] at hq
      omega
  | succ n ih =>
      rw [Nat.pow_succ, ← Nat.div_lt_iff_lt_mul x.radix_pos] at hq
      rw [wheels_succ, wheels_succ, List.reverse_cons, List.reverse_cons]
      rcases Nat.lt_or_eq_of_le (Nat.div_le_div_right (c := x.radix) hpq.le) with hrest | hrest
      · exact append_lt_append (by simp) (ih hrest hq)
      · have hlast : p % x.radix < q % x.radix := by
          have := Nat.mod_add_div p x.radix
          have := Nat.mod_add_div q x.radix
          rw [hrest] at *
          omega
        rw [hrest, weightAt_zero, weightAt_zero]
        exact List.Lex.append_left _ (.rel (by omega)) _

/-- On the reading in the middle, and on no other, all wheels show zero. -/
theorem all_wheels_eq_zero_iff (hp : p < x.radix ^ n) :
    (x.wheels p n).all (· == 0) = true ↔ p = x.number (fun _ => 0) n := by
  have hzero : ∀ i < n, |(0 : Int)| ≤ x.weight := by simp
  simp only [wheels, List.all_map, List.all_eq_true, List.mem_range, Function.comp_apply,
    beq_iff_eq]
  constructor
  · intro h
    exact eq_of_weightAt hp (number_lt hzero) fun i hi => by rw [h i hi, weightAt_number hzero hi]
  · rintro rfl i hi
    exact weightAt_number hzero hi

/-! ### The iteration -/

theorem turn?_none (x : Extensions) : x.turn? none = none := by rw [turn?]

/-- A reading of zeros only is passed over. -/
theorem turn?_of_zero (h : w.all (· == 0) = true) :
    x.turn? (some w) = x.turn? (advance? x.weight w) := by
  rw [turn?, if_pos h]
  split
  · next hnone => rw [hnone, turn?_none]
  · next hsome => rw [hsome]

theorem turn?_of_nonzero (h : ¬ w.all (· == 0) = true) :
    x.turn? (some w) = some (attach x.base fun i => w.getD i 0, advance? x.weight w) := by
  rw [turn?, if_neg h]

theorem attach_congr {m : ExchangeMatrix} {f g : Nat → Int} (h : ∀ i < m.rank, f i = g i) :
    attach m f = attach m g := by
  refine ExchangeMatrix.ext_cell rfl rfl fun i hi j hj => ?_
  rw [ExchangeMatrix.cell_attach (Nat.le_of_lt_succ hi) (Nat.le_of_lt_succ hj),
    ExchangeMatrix.cell_attach (Nat.le_of_lt_succ hi) (Nat.le_of_lt_succ hj)]
  split
  · next hlt => rw [h i hlt]
  · split
    · next hlt => rw [h j hlt]
    · rfl

theorem number_zero_eq (x : Extensions) : x.number (fun _ => 0) x.base.rank = x.count / 2 := by
  have := x.count_eq
  omega

/-- From reading `p` on, the iteration yields the extensions of all readings but that of zeros. -/
theorem yields_from (d : Nat) (h : p + d = x.radix ^ x.base.rank) :
    Yields x.turn? (if p < x.radix ^ x.base.rank then some (x.wheels p x.base.rank) else none)
      (((List.range' p d).filter (· != x.count / 2)).map fun q =>
        attach x.base (x.weightAt q)) := by
  induction d generalizing p with
  | zero =>
      rw [if_neg (by omega)]
      exact .ends x.turn?_none
  | succ d ih =>
      have hp : p < x.radix ^ x.base.rank := by omega
      have hnext := ih (p := p + 1) (by omega)
      rw [← advance?_wheels hp] at hnext
      have hzero := (all_wheels_eq_zero_iff hp).trans (by rw [number_zero_eq])
      rw [if_pos hp, List.range'_succ, List.filter_cons]
      by_cases hmiddle : p = x.count / 2
      · rw [if_neg (by simpa using hmiddle)]
        exact hnext.of_turn_eq (turn?_of_zero (hzero.mpr hmiddle))
      · have hattach : (attach x.base fun i => (x.wheels p x.base.rank).getD i 0) =
            attach x.base (x.weightAt p) := attach_congr fun i hi => getD_wheels hi
        rw [if_pos (by simpa using hmiddle), List.map_cons, ← hattach]
        exact .item (turn?_of_nonzero (mt hzero.mp hmiddle)) hnext

theorem reading_eq_skip (x : Extensions) : x.reading = skip (x.count / 2) := rfl

/-- The readings other than that of zeros are those of the extensions, in the order of numbers. -/
theorem readings_eq (x : Extensions) :
    (List.range (x.radix ^ x.base.rank)).filter (· != x.count / 2) =
      (List.range x.count).map x.reading := by
  have hcount := x.count_eq
  have hvectors := x.number_zero x.base.rank
  have hless : x.radix ^ x.base.rank - 1 = x.count := by omega
  rw [reading_eq_skip, ← map_skip_range (by omega), hless]

/-- **The iteration yields the extensions by their numbers**, and ends. -/
theorem yields_extensions (x : Extensions) :
    Yields x.turn? x.start ((List.range x.count).map x.get) := by
  have hfrom := x.yields_from (p := 0) _ (Nat.zero_add _)
  rw [← List.range_eq_range', readings_eq, List.map_map,
    if_pos (Nat.pow_pos x.radix_pos)] at hfrom
  by_cases hnone : x.base.rank = 0 ∨ x.weight = 0
  · have hone : x.radix ^ x.base.rank = 1 := by
      rcases hnone with hrank | hweight
      · rw [hrank, Nat.pow_zero]
      · rw [radix, hweight, Nat.one_pow]
    have hcount : x.count = 0 := by rw [count, vectors_eq, hone]
    rw [start, if_pos hnone, hcount]
    exact .ends x.turn?_none
  · have hwheels : x.wheels 0 x.base.rank = List.replicate x.base.rank (-(x.weight : Int)) := by
      refine List.eq_replicate_iff.mpr ⟨length_wheels _ _ _, fun w hw => ?_⟩
      obtain ⟨i, -, rfl⟩ := List.mem_map.mp hw
      rw [weightAt, Nat.zero_div, Nat.zero_mod, Int.natCast_zero, zero_sub]
    rwa [start, if_neg hnone, ← hwheels]

/-! ### The weight vectors -/

/-- The weight vectors of the extensions, by their numbers. -/
def weightVectors (x : Extensions) : List (List Int) :=
  (List.range x.count).map fun t => x.wheels (x.reading t) x.base.rank

theorem reading_strictMono (x : Extensions) : StrictMono x.reading := by
  intro s t h
  unfold reading
  split <;> split <;> omega

theorem pairwise_weightVectors (x : Extensions) :
    x.weightVectors.Pairwise fun w v => w.reverse < v.reverse := by
  rw [weightVectors, List.pairwise_map]
  refine List.pairwise_lt_range.imp_of_mem fun _ ht hlt => ?_
  exact reverse_wheels_lt (x.reading_strictMono hlt) (reading_lt (List.mem_range.mp ht))

/-- **They are all weight vectors in range** but that of zeros. -/
theorem mem_weightVectors_iff :
    w ∈ x.weightVectors ↔
      w.length = x.base.rank ∧ (∀ a ∈ w, |a| ≤ x.weight) ∧ ∃ a ∈ w, a ≠ 0 := by
  rw [weightVectors, List.mem_map]
  constructor
  · rintro ⟨t, ht, rfl⟩
    obtain ⟨i, hi, hne⟩ := exists_weightAt_ne_zero (List.mem_range.mp ht)
    refine ⟨length_wheels _ _ _, fun a ha => ?_, _, ?_, hne⟩
    · obtain ⟨j, -, rfl⟩ := List.mem_map.mp ha
      exact x.abs_weightAt_le _ _
    · exact List.mem_map_of_mem (List.mem_range.mpr hi)
  · rintro ⟨hlength, hrange, a, ha, hne⟩
    have hget : ∀ i, (hi : i < x.base.rank) → w.getD i 0 = w[i] := by
      intro i hi
      rw [List.getD_eq_getElem?_getD, List.getElem?_eq_getElem (hlength ▸ hi), Option.getD_some]
    have hbound : ∀ i < x.base.rank, |w.getD i 0| ≤ x.weight := by
      intro i hi
      rw [hget i hi]
      exact hrange _ (List.getElem_mem _)
    obtain ⟨i, hi, rfl⟩ := List.getElem_of_mem ha
    have hsome : w.getD i 0 ≠ 0 := by rwa [hget i (hlength ▸ hi)]
    obtain ⟨t, ht, hweights⟩ := exists_weightAt_eq hbound ⟨i, hlength ▸ hi, hsome⟩
    refine ⟨t, List.mem_range.mpr ht, List.ext_getElem ?_ fun j hj hj' => ?_⟩
    · rw [length_wheels, hlength]
    · rw [length_wheels] at hj
      simp only [wheels, List.getElem_map, List.getElem_range]
      rw [hweights j hj, hget j hj]

/-- The extension with a number is the one by the weight vector with this number. -/
theorem extends_wheels (hweight : x.weight ≤ 2147483647) (t : Nat) :
    Extends x.base (fun i => (x.wheels (x.reading t) x.base.rank).getD i 0) (x.get t) :=
  (extends_weightAt hweight t).congr fun _ hi => (getD_wheels hi).symm

/-- Different numbers are those of different extensions. -/
theorem get_injOn (hweight : x.weight ≤ 2147483647) (hp : p < x.count) (hq : q < x.count)
    (h : x.get p = x.get q) : p = q := by
  have hqs := extends_weightAt hweight q
  rw [← h] at hqs
  refine x.reading_strictMono.injective (eq_of_weightAt (reading_lt hp) (reading_lt hq) ?_)
  exact fun i hi => ((extends_weightAt hweight p).row i hi).symm.trans (hqs.row i hi)

end Extensions

namespace ExchangeMatrix

variable {m e : ExchangeMatrix} {w : Nat → Int}

/-- Without its last vertex an extension is the matrix that it extends. -/
theorem Extends.submatrix (h : Extends m w e) (hm : m.rows = m.cols) :
    e.submatrix m.rank m.rank = .ok m := by
  have hrows : m.rank = m.rows := by rw [rank, ← hm, Nat.min_self]
  have hcols : m.rank = m.cols := hrows.trans hm
  rw [submatrix_eq (by rw [h.rank_eq]; omega)]
  refine congrArg Except.ok (ext_cell ?_ ?_ fun i hi j hj => ?_)
  · rw [minor, rows_ofFn, h.rows, Nat.add_sub_cancel, hrows]
  · rw [minor, cols_ofFn, h.cols, Nat.add_sub_cancel, hcols]
  · rw [minor, rows_ofFn, h.rows, Nat.add_sub_cancel] at hi
    rw [minor, cols_ofFn, h.cols, Nat.add_sub_cancel] at hj
    rw [cell_minor (by rw [h.rank_eq]; omega), skip, skip, if_pos hi, if_pos hj]
    exact h.inner i hi j hj

/-- The extensions of a skew-symmetric matrix are skew-symmetric: no new arrow has the least weight,
since the opposite one has a weight, too. -/
theorem Extends.isSkewSymmetric (h : Extends m w e) (hm : m.isSkewSymmetric = true) :
    e.isSkewSymmetric = true := by
  have hcorner : e.values m.rank m.rank = 0 := congrArg Entry.val h.corner
  refine isSkewSymmetric_iff.mpr fun i hi j hj => ?_
  rw [h.rank_eq, Nat.lt_succ_iff_lt_or_eq] at hi hj
  rcases hi with hi | rfl <;> rcases hj with hj | rfl
  · rw [values, values, h.inner i hi j hj, h.inner j hj i hi]
    exact isSkewSymmetric_iff.mp hm i hi j hj
  · have := e.values_inRange i m.rank
    rw [h.col i hi] at this ⊢
    rw [h.row i hi, if_neg (by omega)]
  · have := e.values_inRange m.rank j
    rw [h.row j hj] at this ⊢
    rw [h.col j hj, if_neg (by omega), neg_neg]
  · rw [hcorner, if_neg (by decide), neg_zero]

/-- **The extensions of a square matrix are enumerated completely**, each once, by the weight
vectors in range that are not zero, in lexicographic order with the last weight first. -/
theorem extensions_enumerated (m : ExchangeMatrix) (maxWeight : Entry) (hm : m.isSquare = true)
    (hleast : maxWeight.val ≠ -2147483648) :
    ∃ (x : Extensions) (vectors : List (List Int)) (items : List ExchangeMatrix),
      m.extensions maxWeight = .ok x ∧ Yields x.turn? x.start items ∧
      items = x.slice 0 x.count ∧
      List.Forall₂ (fun (w : List Int) (e : ExchangeMatrix) =>
        Extends m (fun i => w.getD i 0) e ∧ e.submatrix m.rank m.rank = .ok m) vectors items ∧
      vectors.Pairwise (fun w v => w.reverse < v.reverse) ∧
      (∀ w : List Int, w ∈ vectors ↔
        w.length = m.rank ∧ (∀ a ∈ w, |a| ≤ |maxWeight.val|) ∧ ∃ a ∈ w, a ≠ 0) ∧
      items.Nodup ∧
      ((2 * maxWeight.val.natAbs + 1) ^ m.rank < UInt64.size → items.length = x.total) ∧
      (m.isSkewSymmetric = true → ∀ e ∈ items, e.isSkewSymmetric = true) := by
  have hsquare : m.rows = m.cols := by simpa [isSquare] using hm
  let x : Extensions := ⟨m, maxWeight.val.natAbs⟩
  have hweight : x.weight ≤ 2147483647 := by
    have := maxWeight.least_le
    have := maxWeight.le_greatest
    show maxWeight.val.natAbs ≤ 2147483647
    omega
  have hextends : ∀ t, Extends m _ (x.get t) := x.extends_wheels hweight
  refine ⟨x, x.weightVectors, (List.range x.count).map x.get, extensions_eq_ok_iff.mpr ⟨hm, rfl⟩,
    x.yields_extensions, ?_, ?_, x.pairwise_weightVectors, fun w => ?_, ?_, fun hfits => ?_,
    fun hskew => ?_⟩
  · rw [Extensions.slice, Nat.sub_zero, Nat.min_self]
    exact List.map_congr_left fun t _ => by rw [Nat.zero_add]
  · rw [Extensions.weightVectors, List.forall₂_map_left_iff, List.forall₂_map_right_iff]
    exact List.forall₂_same.mpr fun t _ => ⟨hextends t, (hextends t).submatrix hsquare⟩
  · rw [Int.abs_eq_natAbs maxWeight.val]
    exact x.mem_weightVectors_iff
  · exact List.nodup_range.map_on fun p hp q hq =>
      x.get_injOn hweight (List.mem_range.mp hp) (List.mem_range.mp hq)
  · rw [List.length_map, List.length_range, Extensions.total, if_pos]
    rw [x.vectors_eq]
    exact hfits
  · intro e he
    obtain ⟨t, -, rfl⟩ := List.mem_map.mp he
    exact (hextends t).isSkewSymmetric hskew

/-- A path of three vertices has 124 extensions by weights from −2 to 2, also when the greatest
weight is given as −2. -/
theorem extensions_enumerated_path :
    (weightedPath 1 1 0).isSquare = true ∧ (Entry.ofInt (-2)).val ≠ -2147483648 ∧
      ∃ (x : Extensions) (items : List ExchangeMatrix),
        (weightedPath 1 1 0).extensions (.ofInt (-2)) = .ok x ∧ Yields x.turn? x.start items ∧
        items.Nodup ∧ items.length = 124 ∧ ∀ e ∈ items, e.isSkewSymmetric = true := by
  obtain ⟨x, vectors, items, hx, hyields, -, -, -, -, hnodup, htotal, hskew⟩ :=
    extensions_enumerated (weightedPath 1 1 0) (.ofInt (-2)) (by decide) (by decide)
  obtain rfl : x = ⟨weightedPath 1 1 0, 2⟩ := (extensions_eq_ok_iff.mp hx).2
  exact ⟨by decide, by decide, _, items, hx, hyields, hnodup, htotal (by decide),
    hskew (by decide)⟩

end ExchangeMatrix

end MutationFinite
