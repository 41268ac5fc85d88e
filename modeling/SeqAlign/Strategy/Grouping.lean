import SeqAlign.Strategy

/-!
# SeqAlign.Strategy.Grouping

Collects, for each dest item, the src items that it absorbs.

* `Group`: a dest entry with the src entries it absorbed. Groups stand in the order of dest.
* `Group.extend`: the groups after one more pairing. Consecutive pairings of one dest entry share
  a group, a dest entry against absence has a group of its own, and a src entry against absence
  leaves no trace.
-/

namespace SeqAlign

structure Group (δ σ : Type) where
  dest : Entry δ
  absorbed : List (Entry σ)
deriving DecidableEq

namespace Group

variable {δ σ : Type}

def extend (groups : List (Group δ σ)) : Pairing δ σ → List (Group δ σ)
  | ⟨none, _⟩ => groups
  | ⟨some d, s?⟩ =>
    let more := (s?.map Tracker.entry).toList
    match groups.getLast? with
    | some last =>
      if last.dest.position = d.entry.position then
        groups.dropLast ++ [{ last with absorbed := last.absorbed ++ more }]
      else groups ++ [⟨d.entry, more⟩]
    | none => [⟨d.entry, more⟩]

def render (destText : δ → String) (srcText : σ → String) (g : Group δ σ) : String :=
  g.dest.item.render destText ++ " == [" ++
    renderJoined (fun e => e.item.render srcText) g.absorbed ++ "]"

end Group

def grouping {m : Type → Type} [Monad m] {δ σ : Type} (relation : δ → σ → m Bool)
    (destText : δ → String) (srcText : σ → String) : Strategy m δ σ (List (Group δ σ)) where
  admits _ pairing := pairing.corresponds relation
  fold groups pairing := pure (Group.extend groups pairing)
  digest _ := 0
  render groups := "\x7b" ++ renderJoined (Group.render destText srcText) groups ++ "\x7d"

end SeqAlign
