import SeqAlign.Search.Engine
import SeqAlign.Strategy.CommonSequence
import SeqAlign.Strategy.Existence
import SeqAlign.Strategy.Grouping

/-!
# SeqAlign.Search.Alignment

The questions that are usually asked about two sequences of items.

* `hasAlignment`: do they match?
* `alignedGroups`: which src items does each dest item absorb?
* `alignedMerge`: which sequence do they have in common?
-/

namespace SeqAlign

variable {m : Type → Type} [Monad m] {δ σ γ : Type}

/-- A walk that folds nothing is a match only of two empty sequences. -/
def hasAlignment (relation : δ → σ → m Bool) (options : Options) (tracer : Tracer m δ σ Bool)
    (dest : List (Item δ)) (src : List (Item σ)) : m (Bool × Stats) := do
  let r ←
    search (existence relation) options tracer (freshTrackers dest) (freshTrackers src) false
  let matched :=
    match r.found with
    | none => false
    | some folded => folded || (dest.isEmpty && src.isEmpty)
  pure (matched, r.stats)

def alignedGroups (relation : δ → σ → m Bool) (destText : δ → String) (srcText : σ → String)
    (options : Options) (tracer : Tracer m δ σ (List (Group δ σ)))
    (dest : List (Item δ)) (src : List (Item σ)) : m (Outcome (List (Group δ σ))) :=
  search (grouping relation destText srcText) options tracer (freshTrackers dest)
    (freshTrackers src) []

def alignedMerge [DecidableEq γ] (merge : Merge m δ σ γ) (text : γ → String)
    (options : Options) (tracer : Tracer m δ σ (List (Item γ)))
    (dest : List (Item δ)) (src : List (Item σ)) : m (Outcome (List (Item γ))) :=
  search (commonSequence merge text) options tracer (freshTrackers dest) (freshTrackers src) []

end SeqAlign
