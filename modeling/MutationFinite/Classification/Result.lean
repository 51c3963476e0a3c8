import MutationFinite.Dynkin.Basic

/-!
# Classification results

What is known of a mutation class.  Recording one fact brings the others into line: a finite class
is not minimally mutation-infinite, and an infinite class has no size and no Dynkin type.
-/

namespace MutationFinite

/-- The facts about a mutation class, each of them missing until it is recorded. -/
structure ClassificationResult where
  finite : Option Bool
  size : Option Nat
  minimallyInfinite : Option Bool
  dynkinType : Option DynkinType
deriving DecidableEq

namespace ClassificationResult

/-- Nothing is known. -/
def unknown : ClassificationResult := ⟨none, none, none, none⟩

/-- Records whether the class is finite. -/
def setFinite (r : ClassificationResult) (finite : Bool) : ClassificationResult :=
  if finite then { r with finite := some true, minimallyInfinite := some false }
  else { r with finite := some false, size := none, dynkinType := none }

/-- Records the size of a class, which is then finite. -/
def setSize (r : ClassificationResult) (size : Nat) : ClassificationResult :=
  { r.setFinite true with size := some size }

/-- Records whether the class is minimally mutation-infinite, and if so infinite. -/
def setMinimallyInfinite (r : ClassificationResult) (minimal : Bool) : ClassificationResult :=
  { if minimal then r.setFinite false else r with minimallyInfinite := some minimal }

/-- Records the Dynkin type of a class, which is then finite. -/
def setDynkinType (r : ClassificationResult) (t : DynkinType) : ClassificationResult :=
  { r.setFinite true with dynkinType := some t }

end ClassificationResult

/-- The word for a decided or undecided question. -/
def yesNo : Option Bool → String
  | some true => "yes"
  | some false => "no"
  | none => "unknown"

/-- The text of a result, one fact a line. -/
def ClassificationResult.text (r : ClassificationResult) : String :=
  "finite:                      " ++ yesNo r.finite ++
  "\nmutation class size:         " ++ (r.size.map toString).getD "unknown" ++
  "\nminimally mutation-infinite: " ++ yesNo r.minimallyInfinite ++
  "\ntype:                        " ++ (r.dynkinType.map DynkinType.name).getD "unknown"

end MutationFinite
