import SeqAlign.Strategy

/-!
# SeqAlign.Strategy.CommonSequence

Merges two sequences into the sequence of their common items. A function of the caller merges a
pairing into a common item; a pairing without one is not admitted.

* `absorb`: a repeated item that equals the one just before it is absorbed by it, so a run of
  matches against one repeating item yields one item.
-/

namespace SeqAlign

variable {δ σ γ : Type}

/-- The common item of an item of each sequence, either of which may be absent. -/
abbrev Merge (m : Type → Type) (δ σ γ : Type) :=
  Option (Item δ) → Option (Item σ) → m (Option (Item γ))

/-- The common item of a pairing; counts play no part. -/
def Merge.ofPairing {m : Type → Type} (merge : Merge m δ σ γ) (pairing : Pairing δ σ) :
    m (Option (Item γ)) :=
  merge (pairing.dest.map Tracker.item) (pairing.src.map Tracker.item)

def absorb [DecidableEq γ] (items : List (Item γ)) (item : Item γ) : List (Item γ) :=
  if item.isRepeated ∧ items.getLast? = some item then items else items ++ [item]

def commonSequence {m : Type → Type} [Monad m] [DecidableEq γ] (merge : Merge m δ σ γ)
    (text : γ → String) : Strategy m δ σ (List (Item γ)) where
  admits _ pairing := return (← merge.ofPairing pairing).isSome
  fold items pairing := do
    match ← merge.ofPairing pairing with
    | none => return items
    | some item => return absorb items item
  digest _ := 0
  render items := "[" ++ renderJoined (Item.render text) items ++ "]"

end SeqAlign
