import Std.Data.HashMap

/-!
# SeqAlign.Verdicts

Verdicts of a relation that are remembered by the written form of its operands. Two pairs of
operands that are written alike share a verdict.

* `Verdicts`: the verdicts known so far, with counts of the questions that were answered from
  memory and of those that were not.
* `memoized`: a relation that asks another one only about pairs it does not know. A question that
  fails is counted, and nothing is remembered of it.
* `Handles`: a memoized relation that is handed around in copies. All copies share the verdicts.
-/

namespace SeqAlign

structure Verdicts where
  known : Std.HashMap String Bool
  hits : Nat
  misses : Nat

namespace Verdicts

/-- Nothing is known and nothing has been asked. -/
def none : Verdicts := ⟨∅, 0, 0⟩

def size (v : Verdicts) : Nat := v.known.size

def hit (v : Verdicts) : Verdicts := { v with hits := v.hits + 1 }

def miss (v : Verdicts) : Verdicts := { v with misses := v.misses + 1 }

/-- The first verdict under a key stays. -/
def record (v : Verdicts) (key : String) (verdict : Bool) : Verdicts :=
  { v with known := v.known.insertIfNew key verdict }

/-- What a pair of operands is remembered by. -/
def key {δ σ : Type} (destText : δ → String) (srcText : σ → String) (d : δ) (s : σ) : String :=
  destText d ++ "|" ++ srcText s

end Verdicts

def memoized {m : Type → Type} [Monad m] [MonadStateOf Verdicts m] {δ σ : Type}
    (destText : δ → String) (srcText : σ → String) (relation : δ → σ → m Bool) (d : δ) (s : σ) :
    m Bool := do
  let key := Verdicts.key destText srcText d s
  let verdicts ← getThe Verdicts
  match verdicts.known[key]? with
  | some verdict =>
    modifyThe Verdicts .hit
    pure verdict
  | none =>
    modifyThe Verdicts .miss
    let verdict ← relation d s
    modifyThe Verdicts (·.record key verdict)
    pure verdict

/-! ## Shared verdicts -/

structure Handles where
  verdicts : Verdicts
  /-- Handles are numbered in the order in which they were made. -/
  count : Nat

namespace Handles

inductive Request (δ σ : Type) where
  | ask (handle : Nat) (d : δ) (s : σ)
  | copy (handle : Nat)
  | clear (handle : Nat)

/-- One handle, and nothing known. -/
def fresh : Handles := ⟨.none, 1⟩

/-- What is seen through a handle. -/
def see (hs : Handles) (handle : Nat) : Option Verdicts :=
  if handle < hs.count then some hs.verdicts else none

variable {δ σ ε : Type}

/-- The answer to a question, and the handles after the request. A request to a handle that has
not been made does nothing. -/
def perform (destText : δ → String) (srcText : σ → String) (relation : δ → σ → Except ε Bool)
    (hs : Handles) : Request δ σ → Option (Except ε Bool) × Handles
  | .ask handle d s =>
    if handle < hs.count then
      let asked : ExceptT ε (StateM Verdicts) Bool :=
        memoized destText srcText (fun d s => ExceptT.mk (pure (relation d s))) d s
      let (answer, verdicts) := asked.run.run hs.verdicts
      (some answer, { hs with verdicts })
    else (none, hs)
  | .copy handle => (none, if handle < hs.count then { hs with count := hs.count + 1 } else hs)
  | .clear handle => (none, if handle < hs.count then { hs with verdicts := .none } else hs)

end Handles

end SeqAlign
