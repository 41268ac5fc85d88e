import SeqAlign.Item

/-!
# SeqAlign.Pairing

What a walk folds: a tracker of each sequence, or a tracker of one sequence against absence.

* `Pairing`: the two sides, either of which may be absent.
* `Pairing.corresponds`: the test shared by all strategies that are built on a relation of
  labels. Two present items correspond if both can still match and the relation holds; a present
  item corresponds to absence if it may match zero times.
-/

namespace SeqAlign

structure Pairing (δ σ : Type) where
  dest : Option (Tracker δ)
  src : Option (Tracker σ)
deriving DecidableEq

namespace Pairing

variable {δ σ : Type}

def both (d : Tracker δ) (s : Tracker σ) : Pairing δ σ := ⟨some d, some s⟩

def destOnly (d : Tracker δ) : Pairing δ σ := ⟨some d, none⟩

def srcOnly (s : Tracker σ) : Pairing δ σ := ⟨none, some s⟩

/-- The relation is asked last, and only about two items that can both still match. -/
def corresponds {m : Type → Type} [Monad m] (relation : δ → σ → m Bool) :
    Pairing δ σ → m Bool
  | ⟨none, none⟩ => pure true
  | ⟨some d, some s⟩ =>
    if d.hasMore && s.hasMore then relation d.label s.label else pure false
  | ⟨none, some s⟩ => pure s.isSkippable
  | ⟨some d, none⟩ => pure d.isSkippable

end Pairing

end SeqAlign
