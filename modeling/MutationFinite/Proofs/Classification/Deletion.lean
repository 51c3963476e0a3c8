import MutationFinite.Proofs.Classification.Connected
import MutationFinite.Proofs.Classification.RankTwo
import MutationFinite.Proofs.Matrix.Deletion

/-!
# Verdicts on parts of a quiver

What a symmetrizable quiver reaches is seen by each of its parts, so that a finite verdict is
inherited by them.

* `HasVerdict.of_embeds`: a part of a finite quiver is finite, and has no more matrices.
* `checkFinite_deleteVertex`: so deletions of vertices are.
-/

namespace MutationFinite

open ExchangeMatrix

/-- A deletion of a symmetrizable quiver is one. -/
theorem ExchangeMatrix.Symmetrizable.deletion {m : ExchangeMatrix} (hm : Symmetrizable m) {k : Nat}
    (hk : k < m.rank) : Symmetrizable (m.deletion k) := by
  obtain ⟨f, hf, -⟩ := exists_embeds_deletion hm.square hk
  exact hf.symmetrizable hm

section Parts

variable [Generator] {cfg cfg' : ClassifierConfig} {a b m : ExchangeMatrix} {f : Nat → Nat}
  {size : Nat}

/-- **A part of a finite quiver is finite**, and has no more matrices. -/
theorem HasVerdict.of_embeds (h : HasVerdict cfg b (.finite size)) (hf : Embeds f a b)
    (hb : Symmetrizable b) (hrank : b.rank ≤ 64) (hmode : cfg.mode = .exact)
    (hmode' : cfg'.mode = .exact) : ∃ size' ≤ size, HasVerdict cfg' a (.finite size') := by
  obtain ⟨hesc, hcount⟩ := (hasVerdict_finite_iff cfg hb hrank).mp h
  have ha := hf.symmetrizable hb
  have harank := hf.rank_le.trans hrank
  obtain ⟨hverdict, hescape⟩ | ⟨size', hverdict, -, hcount'⟩ := hasVerdict_decides cfg' ha harank
  · exact absurd hescape (hf.not_escapes hb hrank hesc)
  · refine ⟨size', ?_, hverdict⟩
    have hle := hf.encard_mutationClass_le hesc
    rw [hmode] at hcount
    rw [hmode'] at hcount'
    rw [show a.mutationClass.encard = size' from hcount',
      show b.mutationClass.encard = size from hcount] at hle
    exact_mod_cast hle

/-- **Finite type is inherited by vertex deletion.**  When single matrices are counted and the
verdict on a symmetrizable quiver is finite, in some session that nobody stops, each of its
deletions is called finite in all of them, with no greater size. -/
theorem checkFinite_deleteVertex (m : ExchangeMatrix) (hm : Symmetrizable m) (hrank : m.rank ≤ 64)
    (cfg cfg' : ClassifierConfig) (hmode : cfg.mode = .exact) (hmode' : cfg'.mode = .exact)
    (s s' : Session) (ht : s.token.NeverStops) (ht' : s'.token.NeverStops) (size : Nat)
    (hfinite : (s.ask (checkFinite cfg m)).1 = .ok (.finite size)) (k : Nat) (hk : k < m.rank) :
    ∃ d size', m.deleteVertex k = .ok d ∧
      (s'.ask (checkFinite cfg' d)).1 = .ok (.finite size') ∧ size' ≤ size := by
  obtain ⟨f, hf, -⟩ := exists_embeds_deletion hm.square hk
  obtain ⟨size', hle, hverdict⟩ :=
    (HasVerdict.of_ask hrank ht hfinite).of_embeds hf hm hrank hmode hmode'
  exact ⟨m.deletion k, size', deleteVertex_eq hk, hverdict.ask_eq ht', hle⟩

/-- The class of the doubled cycle holds the two ways to turn it. -/
theorem hasVerdict_doubledCycle (hmode : cfg.mode = .exact) :
    HasVerdict cfg (doubledCycle 1) (.finite 2) := by
  refine (hasVerdict_finite_iff cfg symmetrizable_doubledCycle (by decide)).mpr
    ⟨not_escapes_doubledCycle, ?_⟩
  rw [hmode, classCount, mutationClass_doubledCycle, Set.encard_pair (by decide)]
  rfl

end Parts

/-- Without vertex 0 the doubled cycle is a double arrow, which has two matrices, too. -/
theorem checkFinite_deleteVertex_doubledCycle :
    let s := Session.new .standard .running
    let cfg := ClassifierConfig.standard 1 0
    let arrow := rankTwo (.ofInt 2) (.ofInt (-2))
    (s.ask (checkFinite cfg (doubledCycle 1))).1 = .ok (.finite 2) ∧
      (doubledCycle 1).deleteVertex 0 = .ok arrow ∧
      ∃ size', (s.ask (checkFinite cfg arrow)).1 = .ok (.finite size') ∧ size' = 2 ∧ size' ≤ 2 := by
  intro s cfg arrow
  have hverdict : HasVerdict cfg (doubledCycle 1) (.finite 2) := hasVerdict_doubledCycle rfl
  have hask := hverdict.ask_eq (s := s) Token.neverStops_running
  have hdeletion : (doubledCycle 1).deleteVertex 0 = .ok arrow := by
    rw [deleteVertex_eq (by decide), deletion, dropIsolated_eq_self (by decide)]
    decide
  obtain ⟨d, size', hd, hask', hle⟩ := checkFinite_deleteVertex (doubledCycle 1)
    symmetrizable_doubledCycle (by decide) cfg cfg rfl rfl s s Token.neverStops_running
    Token.neverStops_running 2 hask 0 (by decide)
  obtain rfl := Except.ok.inj (hdeletion.symm.trans hd)
  have harrow : HasVerdict cfg arrow (.finite 2) :=
    hasVerdict_rankTwo_of_exact rfl (by decide) (by decide) (by decide)
  refine ⟨hask, hdeletion, size', hask', ?_, hle⟩
  cases hask'.symm.trans (harrow.ask_eq Token.neverStops_running)
  rfl

end MutationFinite
