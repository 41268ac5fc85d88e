import SeqAlign.Strategy

/-!
# SeqAlign.Strategy.Existence

Is there a walk at all? The value starts as `false` and becomes `true` with the first pairing
that corresponds.
-/

namespace SeqAlign

/-- Folding asks the relation again. -/
def existence {m : Type → Type} [Monad m] {δ σ : Type} (relation : δ → σ → m Bool) :
    Strategy m δ σ Bool where
  admits _ pairing := pairing.corresponds relation
  fold value pairing := do
    if ← pairing.corresponds relation then pure true else pure value
  digest _ := 0
  render value := if value then "true" else "false"

end SeqAlign
