import SeqAlign.Strategy

/-!
# SeqAlign.Strategy.Budget

Existence with a budget: at most `limit` pairings of two present items are admitted on one walk.
The value is the number of those folded so far. With `keyed` the digest is that number, which
makes it sound to remember dead ends; without, a dead end that only the budget caused may be
taken for one that always was.
-/

namespace SeqAlign

def Pairing.isBoth {δ σ : Type} (pairing : Pairing δ σ) : Bool :=
  pairing.dest.isSome && pairing.src.isSome

/-- The relation is asked before the budget is looked at. -/
def budget {m : Type → Type} [Monad m] {δ σ : Type} (relation : δ → σ → m Bool)
    (limit : UInt64) (keyed : Bool) : Strategy m δ σ UInt64 where
  admits spent pairing := do
    if ← pairing.corresponds relation then
      pure (!pairing.isBoth || spent < limit)
    else pure false
  fold spent pairing := pure (if pairing.isBoth then spent + 1 else spent)
  digest spent := if keyed then spent else 0
  render spent := "#" ++ toString spent.toNat

end SeqAlign
