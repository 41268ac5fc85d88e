import Std.Data.HashSet
import SeqAlign.Walk.State

/-!
# SeqAlign.Search.Ledger

The books that a search keeps while it runs.

* `Options`: limits on a search, and whether it remembers dead ends.
* `Key`: what a search remembers of a state that led nowhere. The count of a tracker without a
  maximum is left out, since no number of matches ever exhausts it.
* `Ledger`: the counters of a running search and the dead ends it remembers.
* `Stats`: the counters of a finished search.
-/

namespace SeqAlign

structure Options where
  /-- Greatest number of states visited; 0 is unlimited. -/
  stepLimit : Nat := 0
  /-- Greatest depth of a walk; 0 is unlimited. -/
  depthLimit : Nat := 0
  /-- Dead ends are remembered and not explored again. -/
  memoize : Bool := false

structure Stats where
  steps : Nat
  maxDepth : Nat
  memoHits : Nat
  memoSize : Nat
  limitReached : Bool
deriving DecidableEq

structure Key where
  destIndex : Int
  srcIndex : Int
  destCount : UInt32
  srcCount : UInt32
  digest : UInt64
deriving DecidableEq, Hashable

/-- The count as far as it decides about later matches. -/
def Tracker.boundedCount {α : Type} (t : Tracker α) : UInt32 :=
  if t.item.quantifier.isBounded then t.count else 0

def State.key {δ σ : Type} (s : State δ σ) (digest : UInt64) : Key where
  destIndex := s.destIndex
  srcIndex := s.srcIndex
  destCount := (s.destTracker?.map Tracker.boundedCount).getD 0
  srcCount := (s.srcTracker?.map Tracker.boundedCount).getD 0
  digest := digest

structure Ledger where
  steps : Nat
  maxDepth : Nat
  memoHits : Nat
  limitReached : Bool
  deadEnds : Std.HashSet Key

namespace Ledger

/-- The books before the first step. -/
def blank : Ledger := ⟨0, 0, 0, false, ∅⟩

/-- Another state is visited, at this depth. -/
def enter (ledger : Ledger) (depth : Nat) : Ledger :=
  { ledger with steps := ledger.steps + 1, maxDepth := max ledger.maxDepth depth }

def abandon (ledger : Ledger) : Ledger := { ledger with limitReached := true }

def hit (ledger : Ledger) : Ledger := { ledger with memoHits := ledger.memoHits + 1 }

def remember (ledger : Ledger) (key : Key) : Ledger :=
  { ledger with deadEnds := ledger.deadEnds.insert key }

def stats (ledger : Ledger) : Stats where
  steps := ledger.steps
  maxDepth := ledger.maxDepth
  memoHits := ledger.memoHits
  memoSize := ledger.deadEnds.size
  limitReached := ledger.limitReached

end Ledger

/-- The state just entered at this depth is one too many or too deep. -/
def Options.isExceeded (options : Options) (ledger : Ledger) (depth : Nat) : Bool :=
  (options.stepLimit ≠ 0 ∧ ledger.steps > options.stepLimit) ∨
    (options.depthLimit ≠ 0 ∧ depth > options.depthLimit)

end SeqAlign
