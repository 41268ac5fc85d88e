import SeqAlign.Proofs.Run

/-!
# SeqAlign.Proofs.Books

What a run does to the books.

* `fst_settle` and the others: to settle an exploration changes nothing but the table.
* `Run.keeps`: what each entry in the books keeps, a whole run keeps.
* `Run.forgets`: a run that does not remember dead ends leaves the table as it is.
* `Run.grows`: no counter goes down, and a limit once reached stays reached.
* `Run.not_limitReached`: without limits none is ever reached.
-/

namespace SeqAlign

variable {ε δ σ ρ : Type} {S : Strategy (Except ε) δ σ ρ} {o : Options}

section Settle

variable (o : Options) (key : Key) (r : Option ρ × Ledger)

@[simp] theorem fst_settle : (Ledger.settle o key r).1 = r.1 := by
  unfold Ledger.settle
  split <;> rfl

@[simp] theorem steps_settle : (Ledger.settle o key r).2.steps = r.2.steps := by
  unfold Ledger.settle
  split <;> rfl

@[simp] theorem maxDepth_settle : (Ledger.settle o key r).2.maxDepth = r.2.maxDepth := by
  unfold Ledger.settle
  split <;> rfl

@[simp] theorem memoHits_settle : (Ledger.settle o key r).2.memoHits = r.2.memoHits := by
  unfold Ledger.settle
  split <;> rfl

@[simp] theorem limitReached_settle :
    (Ledger.settle o key r).2.limitReached = r.2.limitReached := by
  unfold Ledger.settle
  split <;> rfl

end Settle

theorem settle_keeps {I : Ledger → Prop} {r : Answer ε ρ} {key : Key}
    (remember : ∀ l key, o.memoize = true → I l → I (l.remember key))
    (h : ∀ u l', r = .ok (u, l') → I l')
    (u : Option ρ) (l' : Ledger) (hr : r.map (Ledger.settle o key) = .ok (u, l')) : I l' := by
  cases r with
  | error f => cases hr
  | ok a =>
    obtain ⟨w, l⟩ := a
    simp only [Except.map, Ledger.settle] at hr
    split at hr
    · rename_i hsettles
      cases hr
      exact remember _ _ hsettles.2.1 (h _ _ rfl)
    · cases hr
      exact h _ _ rfl

theorem Run.keeps {I : Ledger → Prop} (enter : ∀ l d, I l → I (l.enter d))
    (abandon : ∀ l d, o.isExceeded l d = true → I l → I l.abandon)
    (hit : ∀ l, o.memoize = true → I l → I l.hit)
    (remember : ∀ l key, o.memoize = true → I l → I (l.remember key)) {task : Task δ σ ρ} {l : Ledger}
    {log : Log δ σ ρ} {r : Answer ε ρ} (h : Run S o task l log r) (hl : I l) :
    ∀ u l', r = .ok (u, l') → I l' := by
  induction h with
  | abandoned hx =>
    intro u l' hr
    cases hr
    exact abandon _ _ hx (enter _ _ hl)
  | known _ hm _ =>
    intro u l' hr
    cases hr
    exact hit _ hm (enter _ _ hl)
  | explored _ _ _ ih => exact settle_keeps remember (ih (enter _ _ hl))
  | finished => intro u l' hr; cases hr; exact hl
  | blocked => intro u l' hr; cases hr; exact hl
  | unanswered => intro u l' hr; cases hr
  | refused => intro u l' hr; cases hr; exact hl
  | proceeded _ _ _ ih => exact ih hl
  | noneLeft => intro u l' hr; cases hr; exact hl
  | halted => intro u l' hr; cases hr; exact hl
  | unfolded => intro u l' hr; cases hr
  | failed => intro u l' hr; cases hr
  | found _ _ _ ih => exact ih hl
  | passed _ _ _ _ ih ih' => exact ih' (ih hl _ _ rfl)

variable {task : Task δ σ ρ} {l l' : Ledger} {log : Log δ σ ρ} {u : Option ρ}

/-- The counters go up, and a limit once reached stays reached. -/
structure Ledger.Grows (l l' : Ledger) : Prop where
  steps : l.steps ≤ l'.steps
  maxDepth : l.maxDepth ≤ l'.maxDepth
  limitReached : l.limitReached = true → l'.limitReached = true

theorem Run.grows (h : Run S o task l log (.ok (u, l'))) : l.Grows l' := by
  refine h.keeps (I := l.Grows) ?_ ?_ ?_ ?_ ⟨Nat.le_refl _, Nat.le_refl _, id⟩ u l' rfl
  · intro k d hk
    exact ⟨Nat.le_succ_of_le hk.steps, Nat.le_trans hk.maxDepth (Nat.le_max_left _ _),
      hk.limitReached⟩
  · intro k d _ hk
    exact ⟨hk.steps, hk.maxDepth, fun _ => rfl⟩
  · intro k _ hk
    exact ⟨hk.steps, hk.maxDepth, hk.limitReached⟩
  · intro k key _ hk
    exact ⟨hk.steps, hk.maxDepth, hk.limitReached⟩

theorem isExceeded_eq_false (hs : o.stepLimit = 0) (hd : o.depthLimit = 0) (l : Ledger)
    (d : Nat) : o.isExceeded l d = false := by
  simp [Options.isExceeded, hs, hd]

theorem Run.not_limitReached (h : Run S o task l log (.ok (u, l'))) (hs : o.stepLimit = 0)
    (hd : o.depthLimit = 0) (hl : l.limitReached = false) : l'.limitReached = false := by
  refine h.keeps (I := fun k => k.limitReached = false) ?_ ?_ ?_ ?_ hl u l' rfl
  · intro k d hk
    exact hk
  · intro k d hx _
    cases (isExceeded_eq_false hs hd k d).symm.trans hx
  · intro k _ hk
    exact hk
  · intro k key _ hk
    exact hk

theorem Run.forgets (h : Run S o task l log (.ok (u, l'))) (hmemo : o.memoize = false) :
    l'.memoHits = l.memoHits ∧ l'.deadEnds = l.deadEnds := by
  refine h.keeps (I := fun k => k.memoHits = l.memoHits ∧ k.deadEnds = l.deadEnds) ?_ ?_ ?_ ?_
    ⟨rfl, rfl⟩ u l' rfl
  · intro k d hk
    exact hk
  · intro k d _ hk
    exact hk
  · intro k hm _
    cases hmemo.symm.trans hm
  · intro k key hm _
    cases hmemo.symm.trans hm

end SeqAlign
