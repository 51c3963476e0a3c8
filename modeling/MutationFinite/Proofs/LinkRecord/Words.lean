import MutationFinite.LinkRecord.Words
import MutationFinite.Proofs.LinkRecord.Marks
import MutationFinite.Proofs.Relabelling.Orbits
import Mathlib.Data.Set.Card

/-!
# Link records in words and in sets

Operations on whole words answer the questions about a link record, for at most 64 vertices.

* `VertexSet.mem_ofWord_and`, `mem_ofWord_not`, `ofWord_or`, `ofWord_linkBit`,
  `ofWord_allLinksWord`: the sets for which the results stand.
* `VertexSet.isLeast_ctz`, `cpop_eq_countP`: the lowest bit of a word and the number of its bits.
* `LinkWords.mark_toRecord`, `nextUnmarked?_toRecord`, `openCount_toRecord`,
  `isComplete_toRecord`: a record of words and the record of sets answer alike.
* `LinkWords.marks_count_orbits`: **link records count orbits.**
-/

namespace MutationFinite

/-! ### Words as sets -/

namespace VertexSet

variable {a b : UInt64} {s : VertexSet} {v n : Nat}

theorem mem_ofWord : v ∈ ofWord a ↔ a.toBitVec.getLsbD v = true := by
  rw [mem_iff_testBit, ofWord, ← BitVec.testBit_toNat]
  rfl

theorem ofWord_injective : Function.Injective ofWord := fun _ _ h =>
  UInt64.toNat_inj.mp (congrArg bits h)

theorem ofWord_or (a b : UInt64) : ofWord (a ||| b) = ofWord a ∪ ofWord b :=
  congrArg mk (UInt64.toNat_or a b)

theorem mem_ofWord_and : v ∈ ofWord (a &&& b) ↔ v ∈ ofWord a ∧ v ∈ ofWord b := by
  simp [mem_ofWord]

theorem mem_ofWord_not : v ∈ ofWord (~~~a) ↔ v < 64 ∧ v ∉ ofWord a := by
  simp [mem_ofWord]

theorem ofWord_zero : ofWord 0 = ∅ := rfl

theorem ofWord_eq_empty_iff : ofWord a = ∅ ↔ a = 0 := by
  rw [← ofWord_zero, ofWord_injective.eq_iff]

/-- A set of numbers below 64 is that of its word. -/
theorem ofWord_toWord (h : ∀ v ∈ s, v < 64) : ofWord s.toWord = s :=
  congrArg mk (toNat_toWord h)

theorem ofWord_linkBit (h : v < 64) : ofWord (linkBit v) = {v} := by
  rw [linkBit, ← toWord_singleton h]
  exact ofWord_toWord fun w hw => mem_singleton.mp hw ▸ h

/-- The word of all edges has the bits below `n`, and all 64 where there are more. -/
theorem ofWord_allLinksWord (n : Nat) : ofWord (allLinksWord n) = allLinks n := by
  rw [allLinksWord, allLinks]
  split
  · next h =>
    rw [Nat.min_eq_right h]
    rfl
  · next h =>
    have hn : n < 64 := Nat.lt_of_not_le h
    have hword : linkBit n - 1 = (below n).toWord := by
      have hone : 1 ≤ 1 <<< n := by
        rw [Nat.one_shiftLeft]
        exact Nat.one_le_two_pow
      rw [linkBit, ← toWord_singleton hn]
      exact (UInt64.ofNat_sub hone).symm
    rw [Nat.min_eq_left hn.le, hword]
    exact ofWord_toWord fun w hw => (mem_below.mp hw).trans hn

/-- The number of zeros below the lowest bit is the least member. -/
theorem isLeast_ctz (h : a ≠ 0) : IsLeast {v | v ∈ ofWord a} a.toBitVec.ctz.toNat := by
  have hne : a.toBitVec ≠ 0#64 := fun hzero => h (UInt64.toBitVec_inj.mp hzero)
  refine ⟨mem_ofWord.mpr (BitVec.getLsbD_true_ctz_of_ne_zero hne), fun v hv => ?_⟩
  by_contra hlt
  have hfalse := BitVec.getLsbD_false_of_lt_ctz (Nat.lt_of_not_le hlt)
  cases (mem_ofWord.mp hv).symm.trans hfalse

/-- The number of bits is the number of members. -/
theorem cpop_eq_countP (a : UInt64) :
    a.toBitVec.cpop.toNat = (List.range 64).countP (· ∈ ofWord a) := by
  have hcount : ∀ n, a.toBitVec.cpopNatRec n 0 = (List.range n).countP (· ∈ ofWord a) := by
    intro n
    induction n with
    | zero => rfl
    | succ n ih =>
        rw [BitVec.cpopNatRec_succ, BitVec.cpopNatRec_add, ih, List.range_succ,
          List.countP_append, List.countP_singleton]
        cases hbit : a.toBitVec.getLsbD n <;> simp [mem_ofWord, hbit]
  rw [BitVec.toNat_cpop]
  exact hcount 64

end VertexSet

/-! ### Records of words -/

namespace LinkWords

variable {w w' : LinkWords} {k v n : Nat} {ks : List Nat}

theorem isMarked_iff (hk : k < 64) : w.isMarked k = true ↔ k ∈ VertexSet.ofWord w.links := by
  rw [isMarked, bne_iff_ne, ne_eq, ← VertexSet.ofWord_eq_empty_iff]
  constructor
  · intro hne
    obtain ⟨v, hv⟩ := VertexSet.exists_mem_of_ne_empty hne
    rw [VertexSet.mem_ofWord_and, VertexSet.ofWord_linkBit hk, VertexSet.mem_singleton] at hv
    exact hv.2 ▸ hv.1
  · intro hk' hempty
    refine VertexSet.not_mem_empty k (hempty ▸ VertexSet.mem_ofWord_and.mpr ⟨hk', ?_⟩)
    rw [VertexSet.ofWord_linkBit hk, VertexSet.mem_singleton]

theorem orbit_toRecord (hk : k < 64) : VertexSet.ofWord (w.orbit k) = w.toRecord.orbit k := by
  simp only [orbit, LinkRecord.orbit, toRecord, List.getElem?_map]
  cases w.orbits[k]? with
  | none => exact VertexSet.ofWord_linkBit hk
  | some mask => rfl

/-- A mark on the words is that mark on the sets. -/
theorem mark_toRecord (hk : k < 64) :
    ((w.mark k).1, (w.mark k).2.toRecord) = w.toRecord.mark k := by
  refine Prod.ext ?_ ?_
  · rw [Bool.eq_iff_iff, LinkRecord.mark_fst_iff, mark, Bool.not_eq_true', ← Bool.not_eq_true,
      isMarked_iff hk]
    rfl
  · have hlinks : VertexSet.ofWord (w.links ||| w.orbit k) =
        VertexSet.ofWord w.links ∪ w.toRecord.orbit k := by
      rw [VertexSet.ofWord_or, orbit_toRecord hk]
    exact congrArg (LinkRecord.mk · w.size (w.orbits.map .ofWord)) hlinks

@[simp] theorem size_markAll : (w.markAll ks).size = w.size := by
  induction ks generalizing w with
  | nil => rfl
  | cons k ks ih => exact ih (w := (w.mark k).2)

theorem markAll_toRecord (hks : ∀ k ∈ ks, k < 64) :
    (w.markAll ks).toRecord = w.toRecord.markAll ks := by
  induction ks generalizing w with
  | nil => rfl
  | cons k ks ih =>
      obtain ⟨hk, hks⟩ := List.forall_mem_cons.mp hks
      show ((w.mark k).2.markAll ks).toRecord = (w.toRecord.mark k).2.markAll ks
      rw [ih hks, ← mark_toRecord hk]

/-! ### Questions -/

/-- The bits of the edges not marked. -/
theorem mem_openLinks (hw : w.size ≤ 64) :
    v ∈ VertexSet.ofWord w.openLinks ↔ v < w.size ∧ v ∉ w.toRecord.marked := by
  rw [openLinks, VertexSet.mem_ofWord_and, VertexSet.mem_ofWord_not,
    VertexSet.ofWord_allLinksWord, allLinks, VertexSet.mem_below, Nat.min_eq_left hw]
  exact ⟨fun h => ⟨h.2, h.1.2⟩, fun h => ⟨⟨h.1.trans_le hw, h.2⟩, h.1⟩⟩

theorem openLinks_eq_zero_iff (hw : w.size ≤ 64) :
    w.openLinks = 0 ↔ ∀ k < w.size, k ∈ w.toRecord.marked := by
  rw [← VertexSet.ofWord_eq_empty_iff]
  constructor
  · intro hempty k hk
    by_contra hfree
    exact VertexSet.not_mem_empty k (hempty ▸ (mem_openLinks hw).mpr ⟨hk, hfree⟩)
  · intro hall
    refine VertexSet.ext_mem fun v => iff_of_false (fun hv => ?_) (VertexSet.not_mem_empty v)
    obtain ⟨hlt, hfree⟩ := (mem_openLinks hw).mp hv
    exact hfree (hall v hlt)

theorem nextUnmarked?_toRecord (hw : w.size ≤ 64) :
    w.nextUnmarked? = w.toRecord.nextUnmarked? := by
  by_cases hzero : w.openLinks = 0
  · rw [nextUnmarked?, if_neg (not_not.mpr hzero)]
    exact (LinkRecord.nextUnmarked?_eq_none_iff.mpr ((openLinks_eq_zero_iff hw).mp hzero)).symm
  · rw [nextUnmarked?, if_pos hzero, eq_comm, LinkRecord.nextUnmarked?_eq_some_iff]
    have hset : {k | k < w.toRecord.size ∧ k ∉ w.toRecord.marked} =
        {v | v ∈ VertexSet.ofWord w.openLinks} := Set.ext fun v => (mem_openLinks hw).symm
    rw [hset]
    exact VertexSet.isLeast_ctz hzero

theorem openCount_toRecord (hw : w.size ≤ 64) : w.openCount = w.toRecord.openCount := by
  obtain ⟨d, hd⟩ := Nat.exists_eq_add_of_le hw
  have hlow : (List.range w.size).countP (· ∈ VertexSet.ofWord w.openLinks) =
      w.toRecord.openCount := by
    refine List.countP_congr fun k hk => ?_
    rw [decide_eq_true_iff, mem_openLinks hw, Bool.not_eq_true', ← Bool.not_eq_true,
      LinkRecord.isMarked_iff]
    exact and_iff_right (List.mem_range.mp hk)
  have hhigh : ((List.range d).map (w.size + ·)).countP (· ∈ VertexSet.ofWord w.openLinks) = 0 := by
    rw [List.countP_eq_zero, List.forall_mem_map]
    intro i _
    rw [decide_eq_true_iff, mem_openLinks hw]
    exact fun h => Nat.not_lt.mpr (Nat.le_add_right _ _) h.1
  rw [openCount, VertexSet.cpop_eq_countP, hd, List.range_add, List.countP_append, hlow, hhigh,
    Nat.add_zero]

theorem isComplete_toRecord (hw : w.size ≤ 64) : w.isComplete = w.toRecord.isComplete := by
  rw [Bool.eq_iff_iff, LinkRecord.isComplete_iff, isComplete, beq_iff_eq,
    ← VertexSet.ofWord_injective.eq_iff]
  constructor
  · intro h k hk
    have hmem : k ∈ VertexSet.ofWord (allLinksWord w.size) := by
      rw [VertexSet.ofWord_allLinksWord, allLinks, VertexSet.mem_below, Nat.min_eq_left hw]
      exact hk
    rw [← h, VertexSet.mem_ofWord_and] at hmem
    exact hmem.1
  · intro h
    refine VertexSet.ext_mem fun v => ?_
    rw [VertexSet.mem_ofWord_and, VertexSet.ofWord_allLinksWord, allLinks, VertexSet.mem_below,
      Nat.min_eq_left hw]
    exact and_iff_right_of_imp (h v)

/-- The words `w` are those of the record `r`, and all questions have the same answers. -/
structure AnswersAs (w : LinkWords) (r : LinkRecord) : Prop where
  record : w.toRecord = r
  mark : ∀ k < w.size, (w.mark k).1 = (r.mark k).1
  next : w.nextUnmarked? = r.nextUnmarked?
  count : w.openCount = r.openCount
  complete : w.isComplete = r.isComplete

theorem answersAs {r : LinkRecord} (hw : w.size ≤ 64) (hr : w.toRecord = r) : w.AnswersAs r := by
  subst hr
  exact ⟨rfl, fun k hk => congrArg Prod.fst (mark_toRecord (hk.trans_le hw)),
    nextUnmarked?_toRecord hw, openCount_toRecord hw, isComplete_toRecord hw⟩

/-- Marks at the least unmarked vertex go on alike. -/
theorem yields_of_toRecord {r : LinkRecord} {rest : List Nat} (hw : w.size ≤ 64)
    (hr : w.toRecord = r) (h : Yields LinkRecord.markNext? r rest) : Yields markNext? w rest := by
  have hturn : ∀ w : LinkWords, w.size ≤ 64 →
      w.markNext? = w.toRecord.nextUnmarked?.map fun k => (k, (w.mark k).2) := fun w hw => by
    rw [markNext?, nextUnmarked?_toRecord hw]
  induction h generalizing w with
  | ends hnone =>
      refine .ends ?_
      rw [hturn w hw, hr, Option.map_eq_none_iff]
      exact Option.map_eq_none_iff.mp hnone
  | item hsome _ ih =>
      obtain ⟨k, hnext, hmark⟩ := Option.map_eq_some_iff.mp hsome
      obtain ⟨rfl, rfl⟩ := Prod.mk.inj hmark
      subst hr
      have hk := (LinkRecord.nextUnmarked?_eq_some hnext).1.trans_le hw
      have hrecord : (w.mark k).2.toRecord = (w.toRecord.mark k).2 :=
        congrArg Prod.snd (mark_toRecord hk)
      have hsize : (w.mark k).2.size ≤ 64 := hw
      exact .item (by rw [hturn w hw, hnext]; rfl) (ih hsize hrecord)

end LinkWords

/-! ### Records with the orbits of a partition -/

/-- Sets that are a partition are the orbits of a record. -/
theorem VertexSet.Partitions.grouped {n : Nat} {orbits : List VertexSet}
    (h : VertexSet.Partitions n orbits) : (LinkRecord.withOrbits n orbits).Grouped := by
  have horbit : ∀ k < n, orbits[k]? = some ((LinkRecord.withOrbits n orbits).orbit k) := by
    intro k hk
    have hlt : k < orbits.length := hk.trans_eq h.length.symm
    simp [LinkRecord.orbit, LinkRecord.withOrbits, List.getElem?_eq_getElem hlt]
  have hself : ∀ k < n, k ∈ (LinkRecord.withOrbits n orbits).orbit k := fun k hk =>
    h.self_mem k _ (horbit k hk)
  have hlt : ∀ k < n, ∀ j ∈ (LinkRecord.withOrbits n orbits).orbit k, j < n := fun k hk j hj =>
    (h.cover j).mp ⟨_, List.mem_of_getElem? (horbit k hk), hj⟩
  refine ⟨hself, hlt, fun k hk j hj => ?_⟩
  have hjn := hlt k hk j hj
  rcases h.eq_or_disjoint _ (List.mem_of_getElem? (horbit j hjn)) _
    (List.mem_of_getElem? (horbit k hk)) with heq | hdisjoint
  · exact heq
  · exact absurd hj (hdisjoint j (hself j hjn))

namespace LinkWords

/-- The record `w` of the vertices below `n` has no marks, and each vertex is its own orbit or the
orbits are the masks of a partition. -/
inductive Starts (n : Nat) : LinkWords → Prop where
  | single : Starts n (new n)
  | grouped {masks : List UInt64} (h : VertexSet.Partitions n (masks.map .ofWord)) :
      Starts n (withOrbits n masks)

namespace Starts

theorem size_eq (h : Starts n w) : w.toRecord.size = n := by
  cases h <;> rfl

theorem fresh (h : Starts n w) : w.toRecord.Fresh := by
  cases h with
  | single => exact ⟨LinkRecord.grouped_new n, rfl⟩
  | grouped h => exact ⟨h.grouped, rfl⟩

/-- The orbits of the automorphisms of a matrix are such masks. -/
theorem automorphismOrbits {m : ExchangeMatrix} (h : m.rank ≤ 64) :
    Starts m.rank (withOrbits m.rank (m.automorphismOrbits.map VertexSet.toWord)) := by
  have hpartition := m.partitions_automorphismOrbits
  have hback : (m.automorphismOrbits.map VertexSet.toWord).map VertexSet.ofWord =
      m.automorphismOrbits := by
    rw [List.map_map]
    refine (List.map_congr_left fun o ho => ?_).trans (List.map_id _)
    exact VertexSet.ofWord_toWord fun v hv =>
      ((hpartition.cover v).mp ⟨o, ho, hv⟩).trans_le h
  exact .grouped (hback.symm ▸ hpartition)

end Starts

/-- **Link records count orbits.**  Start with at most 64 vertices in single orbits, or in those of
a partition given as masks, and mark at any vertices, one after another.  The record of words and
that of sets answer alike.  The bits are the union of the orbits of the vertices marked at; a mark
is fresh when it is the first in its orbit; the least unmarked vertex is the least one whose orbit
has no mark; the three ways to say that all edges are marked agree; and marks at the least unmarked
vertex, again and again, come to a complete record after exactly as many marks as there were orbits
without one. -/
theorem marks_count_orbits (n : Nat) (hn : n ≤ 64) (start : LinkWords) (hstart : Starts n start)
    (ks : List Nat) (hks : ∀ k ∈ ks, k < n) :
    let orbit := start.toRecord.orbit
    let w := start.markAll ks
    (∀ k < n, VertexSet.ofWord (start.orbit k) = orbit k) ∧
    w.AnswersAs (start.toRecord.markAll ks) ∧
    (∀ v, v ∈ VertexSet.ofWord w.links ↔ ∃ k ∈ ks, v ∈ orbit k) ∧
    (∀ k < n, (w.mark k).1 = true ↔ ∀ j ∈ orbit k, j ∉ ks) ∧
    (∀ k, w.nextUnmarked? = some k ↔ IsLeast {k | k < n ∧ ∀ j ∈ orbit k, j ∉ ks} k) ∧
    (w.isComplete = true ↔ w.nextUnmarked? = none) ∧
    (w.nextUnmarked? = none ↔ w.openCount = 0) ∧
    ∃ rest, Yields markNext? w rest ∧ (w.markAll rest).isComplete = true ∧
      rest.length = ({o | (∃ k < n, orbit k = o) ∧ ∀ j ∈ ks, j ∉ o} : Set VertexSet).encard := by
  intro orbit w
  obtain rfl := hstart.size_eq
  have hfresh := hstart.fresh
  have hsize : w.size ≤ 64 := size_markAll.trans_le hn
  have hanswers : w.AnswersAs (start.toRecord.markAll ks) :=
    answersAs hsize (markAll_toRecord fun k hk => (hks k hk).trans_le hn)
  refine ⟨fun k hk => orbit_toRecord (hk.trans_le hn), hanswers, fun v => ?_, fun k hk => ?_,
    fun k => ?_, ?_, ?_, ?_⟩
  · rw [← hfresh.mem_marked_markAll, ← hanswers.record]
    rfl
  · rw [hanswers.mark k (hk.trans_eq size_markAll.symm), LinkRecord.mark_fst_iff,
      hfresh.not_mem_marked_iff hks hk]
  · rw [hanswers.next, hfresh.nextUnmarked?_eq_some_iff hks]
  · rw [hanswers.complete, hanswers.next, LinkRecord.isComplete_iff,
      LinkRecord.nextUnmarked?_eq_none_iff]
  · rw [hanswers.next, hanswers.count, LinkRecord.nextUnmarked?_eq_none_iff,
      LinkRecord.openCount_eq_zero_iff]
  · obtain ⟨rest, hyields, hrest, hdone, hlength⟩ := (hfresh.sound.markAll hks).exists_yields
    have hafter : (w.markAll rest).toRecord = (start.toRecord.markAll ks).markAll rest :=
      hanswers.record ▸ markAll_toRecord fun k hk =>
        (hrest k hk).trans_le (LinkRecord.size_markAll.trans_le hn)
    refine ⟨rest, yields_of_toRecord hsize hanswers.record hyields, ?_, ?_⟩
    · rw [(answersAs (size_markAll.trans_le hsize) hafter).complete, hdone]
    · rw [hlength, ← Set.encard_coe_eq_coe_finsetCard, hfresh.coe_openOrbits hks]

/-- Arrows from two vertices to a third, which stands between them. -/
def inwardArrows : ExchangeMatrix :=
  .ofFn 3 3 fun i j => .ofInt (if i ≠ 1 ∧ j = 1 then 1 else if i = 1 ∧ j ≠ 1 then -1 else 0)

/-- The outer vertices are one orbit: a mark at the last one leaves the middle one. -/
theorem marks_count_orbits_inwardArrows :
    3 ≤ 64 ∧ Starts 3 (withOrbits 3 [5, 2, 5]) ∧ (∀ k ∈ [2], k < 3) ∧
      (((withOrbits 3 [5, 2, 5]).markAll [2]).mark 0).1 = false ∧
      ((withOrbits 3 [5, 2, 5]).markAll [2]).nextUnmarked? = some 1 ∧
      ∃ rest, Yields markNext? ((withOrbits 3 [5, 2, 5]).markAll [2]) rest ∧ rest.length = 1 := by
  have hstart : Starts 3 (withOrbits 3 [5, 2, 5]) := by
    have horbits : inwardArrows.automorphismOrbits.map VertexSet.toWord = [5, 2, 5] := by decide
    exact horbits ▸ Starts.automorphismOrbits (m := inwardArrows) (by decide)
  have hks : ∀ k ∈ [2], k < 3 := by decide
  obtain ⟨-, -, -, hmark, hnext, -, -, rest, hyields, -, hlength⟩ :=
    marks_count_orbits 3 (by decide) _ hstart [2] hks
  have houter : ¬ ∀ j ∈ (withOrbits 3 [5, 2, 5]).toRecord.orbit 0, j ∉ [2] :=
    fun h => h 2 (by decide) (by decide)
  refine ⟨by decide, hstart, hks, ?_, ?_, rest, hyields, ?_⟩
  · exact Bool.eq_false_iff.mpr fun h => houter ((hmark 0 (by decide)).mp h)
  · refine (hnext 1).mpr ⟨⟨by decide, fun j hj hmem => ?_⟩, fun k hk => ?_⟩
    · obtain rfl := List.mem_singleton.mp hmem
      exact absurd hj (by decide)
    · refine Nat.pos_of_ne_zero fun hzero => houter (hzero ▸ hk.2)
  · have hmiddle : ({o | (∃ k < 3, (withOrbits 3 [5, 2, 5]).toRecord.orbit k = o) ∧
        ∀ j ∈ [2], j ∉ o} : Set VertexSet) = {⟨2⟩} := by
      ext o
      constructor
      · rintro ⟨⟨k, hk, rfl⟩, hfree⟩
        have hcases : ∀ k < 3, (withOrbits 3 [5, 2, 5]).toRecord.orbit k = ⟨2⟩ ∨
            2 ∈ (withOrbits 3 [5, 2, 5]).toRecord.orbit k := by decide
        exact (hcases k hk).resolve_right (hfree 2 (List.mem_singleton.mpr rfl))
      · rintro rfl
        exact ⟨⟨1, by decide, by decide⟩, by decide⟩
    rw [hmiddle, Set.encard_singleton] at hlength
    exact_mod_cast hlength

end LinkWords

end MutationFinite
