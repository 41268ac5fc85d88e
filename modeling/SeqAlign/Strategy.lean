import SeqAlign.Pairing

/-!
# SeqAlign.Strategy

What a search asks about the pairings of a walk and what it folds them into.

A strategy works on values of a type `ρ`. Every branch of a search folds its own value, so a
strategy never sees what a failed branch has folded. Its answers are computed in a monad `m`: a
strategy that may fail, counts its calls or writes a trace runs in a monad that can do so.

* `Strategy.admits`: may this pairing be folded, given what has been folded so far?
* `Strategy.fold`: the value after this pairing.
* `Strategy.digest`: two values with one digest must have one future, or a search that remembers
  dead ends may lose walks. A constant is right if the answers do not depend on the value.
-/

namespace SeqAlign

structure Strategy (m : Type → Type) (δ σ ρ : Type) where
  admits : ρ → Pairing δ σ → m Bool
  fold : ρ → Pairing δ σ → m ρ
  digest : ρ → UInt64
  render : ρ → String

/-- Folds pairings one after the other. -/
def Strategy.foldAll {m : Type → Type} [Monad m] {δ σ ρ : Type} (strategy : Strategy m δ σ ρ)
    (value : ρ) (pairings : List (Pairing δ σ)) : m ρ :=
  pairings.foldlM strategy.fold value

end SeqAlign
