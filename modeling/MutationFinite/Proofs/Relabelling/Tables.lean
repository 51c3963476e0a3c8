import MutationFinite.Proofs.Relabelling.Succession
import MutationFinite.Relabelling.Tables

/-!
# Relabelling as an action of permutations

* `writeAll?_eq`: writes that agree with a table and leave no position out give that table.
* `Permutation.checkImages_iff`, `isArrangement_iff_perm`: the images that are accepted.
* `Permutation.writeInverse?_eq`, `ExchangeMatrix.writeRelabelled?_eq`: what is written by image is
  the inverse and the relabelled matrix; `Permutation.readCompose?_eq`: what is read by image is the
  composition.
* `ExchangeMatrix.relabel_relabel`, `relabel_inverse`: relabelling is an action.
* `ExchangeMatrix.exists_mapsTo_iff`: a witness is found where a permutation passes the check.
* `relabelling_acts`: **relabelling is an action that witnesses describe**, and having a witness is
  an equivalence.
-/

namespace MutationFinite

open ExchangeMatrix

/-! ### Writing by image -/

/-- Writes that agree with a table and leave no position out that differs give that table, in
whatever order they come. -/
theorem writeAll?_eq {α : Type} {table target : Array α} {writes : List (Nat × α)}
    (hsize : table.size = target.size)
    (hagree : ∀ q x, (q, x) ∈ writes → target[q]? = some x)
    (hcover : ∀ q < target.size, table[q]? = target[q]? ∨ ∃ x, (q, x) ∈ writes) :
    writeAll? table writes = some target := by
  induction writes generalizing table with
  | nil =>
      refine congrArg some (Array.ext hsize fun q hq hq' => ?_)
      simpa [hq, hq'] using hcover q hq'
  | cons w writes ih =>
      obtain ⟨q, x⟩ := w
      have hx : target[q]? = some x := hagree q x List.mem_cons_self
      obtain ⟨hq, -⟩ := Array.getElem?_eq_some_iff.mp hx
      rw [writeAll?, dif_pos (hsize ▸ hq)]
      refine ih (by rwa [Array.size_set]) (fun q' x' h => hagree q' x' (List.mem_cons_of_mem _ h))
        fun q' hq' => ?_
      by_cases hqq : q = q'
      · subst hqq
        exact .inl (by rw [Array.getElem?_set_self, hx])
      · rw [Array.getElem?_set_ne _ hqq]
        refine (hcover q' hq').imp_right ?_
        rintro ⟨x', hx'⟩
        rcases List.mem_cons.mp hx' with he | hx'
        · exact absurd (Prod.mk.inj he).1.symm hqq
        · exact ⟨x', hx'⟩

/-- A list passes the check by a table of seen numbers when none of its numbers is marked in the
table and none comes twice. -/
theorem allNew_iff {seen : Array Bool} {vs : List Nat} :
    allNew seen vs = true ↔ vs.Nodup ∧ ∀ v ∈ vs, seen[v]? = some false := by
  induction vs generalizing seen with
  | nil => simp [allNew]
  | cons v vs ih =>
      rw [allNew, List.nodup_cons, List.forall_mem_cons]
      by_cases hv : v < seen.size
      · have hset : ∀ u, (seen.set v true)[u]? = some false ↔ v ≠ u ∧ seen[u]? = some false := by
          intro u
          by_cases hu : v = u
          · simp [← hu]
          · simp [hu]
        rw [dif_pos hv, Bool.and_eq_true, ih, Array.getElem?_eq_getElem hv]
        simp only [hset, Bool.not_eq_true', Option.some_inj]
        constructor
        · rintro ⟨hfalse, hnodup, hothers⟩
          exact ⟨⟨fun hmem => (hothers v hmem).1 rfl, hnodup⟩, hfalse, fun u hu => (hothers u hu).2⟩
        · rintro ⟨⟨hnot, hnodup⟩, hfalse, hothers⟩
          exact ⟨hfalse, hnodup, fun u hu => ⟨fun he => hnot (he ▸ hu), hothers u hu⟩⟩
      · rw [dif_neg hv, Array.getElem?_eq_none (Nat.not_lt.mp hv)]
        simp

namespace Permutation

variable {p q : Permutation} {images : Array Nat}

/-- The images of a permutation are the numbers below their number in some order. -/
theorem isArrangement_iff_perm :
    IsArrangement images ↔ images.toList.Perm (List.range images.size) := by
  constructor
  · rintro ⟨hnodup, hlt⟩
    refine (List.subperm_of_subset hnodup fun v hv => ?_).perm_of_length_le (by simp)
    exact List.mem_range.mpr (hlt v hv)
  · intro h
    exact ⟨h.nodup_iff.mpr List.nodup_range, fun v hv => List.mem_range.mp (h.subset hv)⟩

/-- **The check accepts the images of permutations.** -/
theorem checkImages_iff : checkImages images = true ↔ IsArrangement images := by
  rw [checkImages, allNew_iff, IsArrangement]
  refine and_congr_right fun _ => forall₂_congr fun v _ => ?_
  simp [Array.getElem?_replicate]

/-- Images of a permutation are kept as they are. -/
theorem exists_ofImages (h : IsArrangement images) :
    ∃ p, ofImages images = .ok p ∧ p.images = images :=
  ⟨⟨images, h⟩, by rw [ofImages, ofImages?, dif_pos h], rfl⟩

/-- Other images are refused. -/
theorem ofImages_eq_error (h : ¬ IsArrangement images) :
    ofImages images = .error (.notPermutation images.toList) := by
  rw [ofImages, ofImages?, dif_neg h]

/-- **What is written by image is the inverse.** -/
theorem writeInverse?_eq (p : Permutation) : p.writeInverse? = some p.inverse.images := by
  have hsize : p.inverse.images.size = p.size := p.size_inverse
  have hmem : ∀ v i, (v, i) ∈ p.images.toList.zipIdx ↔ p.images[i]? = some v := fun v i => by
    rw [List.mem_zipIdx_iff_getElem?, Array.getElem?_toList]
  refine writeAll?_eq (by rw [Array.size_replicate, hsize]) (fun v i h => ?_) fun v hv => ?_
  · -- the point `i` is written at its image `v`
    have hv := (hmem v i).mp h
    obtain ⟨hi, -⟩ := Array.getElem?_eq_some_iff.mp hv
    obtain rfl := Option.some.inj ((getElem?_images hi).symm.trans hv)
    rw [getElem?_images (p.size_inverse.symm ▸ p.apply_lt hi), p.inverse_apply]
  · -- every point below the size is an image
    have hlt : v < p.size := hv.trans_eq hsize
    refine .inr ⟨p.position v, (hmem _ _).mpr ?_⟩
    rw [getElem?_images (p.position_lt hlt), apply_position hlt]

/-- Points below the size are looked up among the images. -/
theorem mapM_images {points : List Nat} (h : ∀ i ∈ points, i < p.size) :
    (points.mapM fun i => p.images[i]?) = some (points.map p.apply) := by
  induction points with
  | nil => rfl
  | cons i points ih =>
      obtain ⟨hi, hpoints⟩ := List.forall_mem_cons.mp h
      rw [List.mapM_cons, getElem?_images hi, ih hpoints]
      rfl

/-- **What is read by image is the composition.** -/
theorem readCompose?_eq (h : p.size = q.size) :
    p.readCompose? q = some (p.compose q h).images.toList := by
  have hlist : q.images.toList.map p.apply = (p.compose q h).images.toList := by
    refine List.ext_getElem? fun i => ?_
    rw [List.getElem?_map, Array.getElem?_toList, Array.getElem?_toList]
    by_cases hi : i < q.size
    · rw [getElem?_images hi, getElem?_images (hi.trans_eq (size_compose h).symm), apply_compose h,
        Option.map_some]
    · have hle : q.size ≤ i := Nat.not_lt.mp hi
      rw [Array.getElem?_eq_none hle, Array.getElem?_eq_none ((size_compose h).trans_le hle),
        Option.map_none]
  rw [readCompose?, mapM_images fun i hi => (q.isArrangement.2 i hi).trans_eq h.symm, hlist]

end Permutation

/-! ### The action -/

namespace ExchangeMatrix

variable {a b m : ExchangeMatrix} {p q : Permutation} {i j r : Nat}

theorem apply_lt_rows (hp : p.size = m.rank) : p.apply i < m.rows ↔ i < m.rows :=
  Permutation.apply_lt_iff (hp ▸ m.rank_le_rows)

theorem apply_lt_cols (hp : p.size = m.rank) : p.apply j < m.cols ↔ j < m.cols :=
  Permutation.apply_lt_iff (hp ▸ m.rank_le_cols)

/-- What stands in the relabelled matrix at the images of a row and a column. -/
theorem getElem?_relabel (hp : p.size = m.rank) (hi : i < m.rows) (hj : j < m.cols) :
    (m.relabel p).entries[p.apply i * m.cols + p.apply j]? = some (m.cell i j) := by
  obtain ⟨hlt, hdiv, hmod⟩ := pos_div_mod ((apply_lt_rows hp).mpr hi) ((apply_lt_cols hp).mpr hj)
  rw [getElem?_entries _ (hlt.trans_eq (m.relabel p).size_entries.symm),
    ← (carries_relabel hp).cells i j]
  exact congrArg₂ (fun x y => some ((m.relabel p).cell x y)) hdiv hmod

/-- Each position is that of the images of a row and a column. -/
theorem exists_position (hp : p.size = m.rank) (hr : r < m.rows * m.cols) :
    ∃ i < m.rows, ∃ j < m.cols, p.apply i * m.cols + p.apply j = r := by
  have hinverse : p.inverse.size = m.rank := p.size_inverse.trans hp
  refine ⟨_, (apply_lt_rows hinverse).mpr (div_lt_rows hr), _,
    (apply_lt_cols hinverse).mpr (mod_lt_cols hr), ?_⟩
  rw [p.apply_inverse, p.apply_inverse, Nat.mul_comm, Nat.div_add_mod]

/-- **What is written by image is the relabelled matrix.** -/
theorem writeRelabelled?_eq (hp : p.size = m.rank) :
    m.writeRelabelled? p = some (m.relabel p) := by
  have hmem : ∀ r e, (r, e) ∈ m.relabelledCells p ↔
      ∃ i < m.rows, ∃ j < m.cols, p.apply i * m.cols + p.apply j = r ∧ m.cell i j = e := by
    simp [relabelledCells]
  have hsize : (m.relabel p).entries.size = m.rows * m.cols := (m.relabel p).size_entries
  have hwrite : writeAll? (Array.replicate (m.rows * m.cols) 0) (m.relabelledCells p) =
      some (m.relabel p).entries := by
    refine writeAll?_eq (by rw [Array.size_replicate, hsize]) (fun r e h => ?_) fun r hr => ?_
    · obtain ⟨i, hi, j, hj, rfl, rfl⟩ := (hmem r e).mp h
      exact getElem?_relabel hp hi hj
    · obtain ⟨i, hi, j, hj, rfl⟩ := exists_position hp (hr.trans_eq hsize)
      exact .inr ⟨_, (hmem _ _).mpr ⟨i, hi, j, hj, rfl, rfl⟩⟩
  have hof : ofEntries m.rows m.cols (m.relabel p).entries = .ok (m.relabel p) := dif_pos hsize
  rw [writeRelabelled?, hwrite, Option.map_some, hof]

/-- Relabelling twice is relabelling once, by the second permutation after the first. -/
theorem relabel_relabel (hp : p.size = a.rank) (hq : q.size = p.size) :
    (a.relabel p).relabel q = a.relabel (q.compose p hq) := by
  have hfirst : Carries p a (a.relabel p) := carries_relabel hp
  have hsecond : Carries q (a.relabel p) ((a.relabel p).relabel q) :=
    carries_relabel (hq.trans (hp.trans hfirst.shape.rank_eq))
  exact (carries_iff.mp (hfirst.compose hsecond)).2.symm

/-- The inverse undoes a relabelling. -/
theorem relabel_inverse (hp : p.size = a.rank) : (a.relabel p).relabel p.inverse = a :=
  (carries_iff.mp (carries_relabel hp).inverse).2

/-- The check accepts a permutation that relabels one matrix to the other. -/
theorem mapsTo_iff_relabel (hs : SameShape a b) (hp : p.size = a.rank) :
    a.mapsTo b p.images = true ↔ a.relabel p = b := by
  rw [mapsTo_iff_carries hs hp, carries_iff, and_iff_right hp]

/-- What the check reads is there. -/
theorem isSome_cell?_apply (hs : SameShape a b) (hp : p.size = a.rank) (hi : i < a.rows)
    (hj : j < a.cols) : (b.cell? (p.apply i) (p.apply j)).isSome = true := by
  have hrow : p.apply i < b.rows := hs.1 ▸ (apply_lt_rows hp).mpr hi
  have hcol : p.apply j < b.cols := hs.2 ▸ (apply_lt_cols hp).mpr hj
  rw [cell?, if_pos ⟨hrow, hcol⟩, Option.isSome_some]

/-- A witness is found when the matrices are the same up to relabelling. -/
theorem isSome_findWitness?_iff :
    (findWitness? a b).isSome = true ↔ Identification.relabelling.Same a b := by
  rw [Option.isSome_iff_ne_none, Ne, findWitness?_eq_none_iff]
  show _ ↔ ∃ p, True ∧ Carries p a b
  simp

/-- A witness is found when a permutation passes the check. -/
theorem exists_mapsTo_iff :
    (findWitness? a b).isSome = true ↔
      SameShape a b ∧ ∃ p : Permutation, p.size = a.rank ∧ a.mapsTo b p.images = true := by
  rw [isSome_findWitness?_iff]
  constructor
  · rintro ⟨p, -, hc⟩
    exact ⟨hc.shape, p, hc.size, (mapsTo_iff_carries hc.shape hc.size).mpr hc⟩
  · rintro ⟨hs, p, hp, h⟩
    exact ⟨p, trivial, (mapsTo_iff_carries hs hp).mp h⟩

end ExchangeMatrix

/-- **Relabelling is an action that witnesses describe.**  The images that are accepted are the
permutations.  The inverse and the relabelled matrix, written by image, and the composition, read by
image, are complete tables, by which relabelling twice is relabelling by the composition and the
inverse undoes a relabelling.  The check reads cells that exist and accepts the permutations that
relabel one matrix to the other, a witness is found where it accepts one, and having a witness is an
equivalence. -/
theorem relabelling_acts :
    (∀ images : Array Nat,
      (Permutation.checkImages images = true ↔ images.toList.Perm (List.range images.size)) ∧
      (images.toList.Perm (List.range images.size) →
        ∃ p, Permutation.ofImages images = .ok p ∧ p.images = images) ∧
      (¬ images.toList.Perm (List.range images.size) →
        Permutation.ofImages images = .error (.notPermutation images.toList))) ∧
    (∀ (a : ExchangeMatrix) (p q : Permutation) (hq : q.size = p.size), p.size = a.rank →
      a.writeRelabelled? p = some (a.relabel p) ∧
      p.writeInverse? = some p.inverse.images ∧
      q.readCompose? p = some (q.compose p hq).images.toList ∧
      (a.relabel p).relabel q = a.relabel (q.compose p hq) ∧
      (a.relabel p).relabel p.inverse = a) ∧
    (∀ (a b : ExchangeMatrix) (p : Permutation), SameShape a b → p.size = a.rank →
      (∀ i < a.rows, ∀ j < a.cols, (b.cell? (p.apply i) (p.apply j)).isSome = true) ∧
      (a.mapsTo b p.images = true ↔ a.relabel p = b)) ∧
    (∀ a b : ExchangeMatrix, (findWitness? a b).isSome = true ↔
      SameShape a b ∧ ∃ p : Permutation, p.size = a.rank ∧ a.mapsTo b p.images = true) ∧
    Equivalence fun a b : ExchangeMatrix => (findWitness? a b).isSome = true := by
  refine ⟨fun images => ?_, fun a p q hq hp => ?_, fun a b p hs hp => ?_,
    fun a b => exists_mapsTo_iff, ?_⟩
  · rw [Permutation.checkImages_iff, ← Permutation.isArrangement_iff_perm]
    exact ⟨.rfl, Permutation.exists_ofImages, Permutation.ofImages_eq_error⟩
  · exact ⟨writeRelabelled?_eq hp, p.writeInverse?_eq, Permutation.readCompose?_eq hq,
      relabel_relabel hp hq, relabel_inverse hp⟩
  · exact ⟨fun i hi j hj => isSome_cell?_apply hs hp hi hj, mapsTo_iff_relabel hs hp⟩
  · simp only [isSome_findWitness?_iff]
    exact Identification.relabelling.setoid.iseqv

/-- An arrow between two vertices, which a frozen row sees by `x` and `y`. -/
def seenArrow (weight x y : Int) : ExchangeMatrix :=
  .ofFn 3 2 fun i j =>
    let rows : List (List Int) := [[0, weight], [-weight, 0], [x, y]]
    .ofInt ((rows.getD i []).getD j 0)

/-- The ends of an arrow are swapped, and with them what the frozen row sees. -/
theorem relabelling_acts_seenArrow :
    ∃ p, Permutation.ofImages #[1, 0] = .ok p ∧ p.size = (seenArrow 1 5 7).rank ∧
      (seenArrow 1 5 7).writeRelabelled? p = some (seenArrow (-1) 7 5) ∧
      (seenArrow 1 5 7).mapsTo (seenArrow (-1) 7 5) p.images = true ∧
      (seenArrow (-1) 7 5).relabel p.inverse = seenArrow 1 5 7 ∧
      (findWitness? (seenArrow (-1) 7 5) (seenArrow 1 5 7)).isSome = true := by
  obtain ⟨himages, htables, hcheck, hfound, hequivalence⟩ := relabelling_acts
  obtain ⟨p, hof, hp⟩ := (himages #[1, 0]).2.1 (by decide)
  have hsize : p.size = (seenArrow 1 5 7).rank := by
    rw [Permutation.size, hp]
    rfl
  have hs : SameShape (seenArrow 1 5 7) (seenArrow (-1) 7 5) := ⟨rfl, rfl⟩
  have hmaps : (seenArrow 1 5 7).mapsTo (seenArrow (-1) 7 5) p.images = true := by
    rw [hp]
    decide
  have hrelabel := (hcheck (seenArrow 1 5 7) (seenArrow (-1) 7 5) p hs hsize).2.mp hmaps
  obtain ⟨hwrite, -, -, -, hinverse⟩ := htables (seenArrow 1 5 7) p p rfl hsize
  rw [hrelabel] at hwrite hinverse
  have hsome := (hfound (seenArrow 1 5 7) (seenArrow (-1) 7 5)).mpr ⟨hs, p, hsize, hmaps⟩
  exact ⟨p, hof, hsize, hwrite, hmaps, hinverse, hequivalence.symm hsome⟩

end MutationFinite
