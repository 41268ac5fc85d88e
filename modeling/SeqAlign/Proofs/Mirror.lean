import SeqAlign.Proofs.Alike
import SeqAlign.Proofs.Reached

/-!
# SeqAlign.Proofs.Mirror

Two strategies in one search.

* `Strategy.Mirrors S S' R`: at a state where their values are related by `R`, both strategies give
  the same answers, and along every edge their values stay related.
* `Run.mirror`: beside every run of `S` there is a run of `S'` that goes through the same states. It
  finds something if the other one does, and its books are the same.
* `search_mirrors`: what this says about the result and the statistics of a search.
-/

namespace SeqAlign

variable {ε δ σ ρ ρ' : Type}

structure Strategy.Mirrors (S : Strategy (Except ε) δ σ ρ) (S' : Strategy (Except ε) δ σ ρ')
    (R : State δ σ → ρ → ρ' → Prop) : Prop where
  digest : ∀ s v w, R s v w → S.digest v = S'.digest w
  opens : ∀ s v w ph, R s v w → s.outlook = .onward ph →
    Together (· = ·) (S.opens v s.pairing?) (S'.opens w s.pairing?)
  foldAll : ∀ s v w e, R s v w → S.opens v s.pairing? = .ok true → e ∈ s.edges →
    Together (R e.target) (S.foldAll v (e.folded s.pairing?)) (S'.foldAll w (e.folded s.pairing?))

theorem together_of_certain {α β : Type} {Q : α → β → Prop} {x : Except Empty α}
    {y : Except Empty β} (h : ∀ a b, x = .ok a → y = .ok b → Q a b) : Together Q x y := by
  match x, y, h with
  | .error f, _, _ => exact f.elim
  | .ok _, .error f, _ => exact f.elim
  | .ok a, .ok b, h => exact .done (h a b rfl rfl)

/-- The same task, with related values. -/
inductive Task.Mirrors (S : Strategy (Except ε) δ σ ρ) (S' : Strategy (Except ε) δ σ ρ')
    (R : State δ σ → ρ → ρ' → Prop) : Task δ σ ρ → Task δ σ ρ' → Prop where
  | visit {s : State δ σ} {v : ρ} {w : ρ'} {d : Nat} :
      R s v w → Mirrors S S' R (.visit s v d) (.visit s w d)
  | explore {s : State δ σ} {v : ρ} {w : ρ'} {d : Nat} :
      R s v w → Mirrors S S' R (.explore s v d) (.explore s w d)
  | attempt {here : Option (Pairing δ σ)} {v : ρ} {w : ρ'} {d : Nat} {es : List (Edge δ σ)} :
      (∀ e ∈ es,
        Together (R e.target) (S.foldAll v (e.folded here)) (S'.foldAll w (e.folded here))) →
      Mirrors S S' R (.attempt here v d es) (.attempt here w d es)

/-- Both fail, or both find nothing, or both find values that are related at the end of a walk. -/
inductive Answer.Mirrors (R : State δ σ → ρ → ρ' → Prop) : Answer ε ρ → Answer ε ρ' → Prop where
  | failed (f g : ε) : Mirrors R (.error f) (.error g)
  | missed {l : Ledger} : Mirrors R (.ok (none, l)) (.ok (none, l))
  | found {s : State δ σ} {v : ρ} {w : ρ'} {l : Ledger} : s.outlook = .finished → R s v w →
      Mirrors R (.ok (some v, l)) (.ok (some w, l))

theorem Answer.Mirrors.settle {R : State δ σ → ρ → ρ' → Prop} {r : Answer ε ρ} {r' : Answer ε ρ'}
    (h : Answer.Mirrors R r r') (o : Options) (key : Key) :
    Answer.Mirrors R (r.map (Ledger.settle o key)) (r'.map (Ledger.settle o key)) := by
  cases h with
  | failed f g => exact .failed f g
  | @missed l =>
    by_cases hm : o.memoize = true ∧ ¬ l.limitReached = true
    · simp only [Except.map, Ledger.settle, Option.isNone_none, true_and, if_pos hm]
      exact .missed
    · simp only [Except.map, Ledger.settle, Option.isNone_none, true_and, if_neg hm]
      exact .missed
  | found hs hR => exact .found hs hR

section Run

variable {S : Strategy (Except ε) δ σ ρ} {S' : Strategy (Except ε) δ σ ρ'}
  {R : State δ σ → ρ → ρ' → Prop} {o : Options} {task : Task δ σ ρ} {task' : Task δ σ ρ'}
  {l : Ledger} {log : Log δ σ ρ} {r : Answer ε ρ}

theorem Run.mirror (hS : S.Mirrors S' R) (h : Run S o task l log r)
    (htask : Task.Mirrors S S' R task task') :
    ∃ log' r', Run S' o task' l log' r' ∧ Answer.Mirrors R r r' := by
  -- the other strategy has no choice: it is asked the same, answers the same, and folds into a
  -- related value
  induction h generalizing task' with
  | abandoned hx =>
    cases htask with
    | visit hR => exact ⟨_, _, .abandoned hx, .missed⟩
  | known hx hm hk =>
    cases htask with
    | visit hR =>
      rw [hS.digest _ _ _ hR] at hk
      exact ⟨_, _, .known hx hm hk, .missed⟩
  | explored hx hk _ ih =>
    cases htask with
    | visit hR =>
      obtain ⟨log', r', hrun, hr⟩ := ih (.explore hR)
      rw [hS.digest _ _ _ hR] at hk ⊢
      exact ⟨_, _, .explored hx hk hrun, hr.settle o _⟩
  | finished ho =>
    cases htask with
    | explore hR => exact ⟨_, _, .finished ho, .found ho hR⟩
  | blocked ho =>
    cases htask with
    | explore hR => exact ⟨_, _, .blocked ho, .missed⟩
  | unanswered ho hp =>
    cases htask with
    | explore hR =>
      have hopens := hS.opens _ _ _ _ hR ho
      rw [hp] at hopens
      obtain ⟨g, hp'⟩ := hopens.of_error
      exact ⟨_, _, .unanswered ho hp', .failed _ g⟩
  | refused ho hp =>
    cases htask with
    | explore hR =>
      have hopens := hS.opens _ _ _ _ hR ho
      rw [hp] at hopens
      obtain ⟨_, hp', rfl⟩ := hopens.of_ok
      exact ⟨_, _, .refused ho hp', .missed⟩
  | proceeded ho hp _ ih =>
    cases htask with
    | explore hR =>
      have hopens := hS.opens _ _ _ _ hR ho
      rw [hp] at hopens
      obtain ⟨_, hp', rfl⟩ := hopens.of_ok
      obtain ⟨log', r', hrun, hr⟩ := ih (.attempt fun e he => hS.foldAll _ _ _ e hR hp he)
      exact ⟨_, _, .proceeded ho hp' hrun, hr⟩
  | noneLeft =>
    cases htask with
    | attempt hfold => exact ⟨_, _, .noneLeft, .missed⟩
  | halted hl =>
    cases htask with
    | attempt hfold => exact ⟨_, _, .halted hl, .missed⟩
  | unfolded hl hf =>
    cases htask with
    | attempt hfold =>
      have hfirst := hfold _ List.mem_cons_self
      rw [hf] at hfirst
      obtain ⟨g, hf'⟩ := hfirst.of_error
      exact ⟨_, _, .unfolded hl hf', .failed _ g⟩
  | failed hl hf _ ih =>
    cases htask with
    | attempt hfold =>
      have hfirst := hfold _ List.mem_cons_self
      rw [hf] at hfirst
      obtain ⟨w, hf', hR⟩ := hfirst.of_ok
      obtain ⟨log', r', hrun, hr⟩ := ih (.visit hR)
      cases hr with
      | failed _ g => exact ⟨_, _, .failed hl hf' hrun, .failed _ g⟩
  | found hl hf _ ih =>
    cases htask with
    | attempt hfold =>
      have hfirst := hfold _ List.mem_cons_self
      rw [hf] at hfirst
      obtain ⟨w, hf', hR⟩ := hfirst.of_ok
      obtain ⟨log', r', hrun, hr⟩ := ih (.visit hR)
      cases hr with
      | found hs hR => exact ⟨_, _, .found hl hf' hrun, .found hs hR⟩
  | passed hl hf _ _ ih ih' =>
    cases htask with
    | attempt hfold =>
      have hfirst := hfold _ List.mem_cons_self
      rw [hf] at hfirst
      obtain ⟨w, hf', hR⟩ := hfirst.of_ok
      obtain ⟨log', r', hrun, hr⟩ := ih (.visit hR)
      cases hr with
      | missed =>
        obtain ⟨log'', r'', hrun', hr'⟩ :=
          ih' (.attempt fun e he => hfold e (List.mem_cons_of_mem _ he))
        exact ⟨_, _, .passed hl hf' hrun hrun', hr'⟩

end Run

theorem isSome_eq_of_rel {α β : Type} {Q : α → β → Prop} {x : Option α} {y : Option β}
    (h : Option.Rel Q x y) : x.isSome = y.isSome := by
  cases h <;> rfl

theorem map_eq_of_rel {α β : Type} {f : β → α} {Q : α → β → Prop} (hQ : ∀ a b, Q a b → f b = a)
    {x : Option α} {y : Option β} (h : Option.Rel Q x y) : y.map f = x := by
  cases h with
  | none => rfl
  | some h => exact congrArg some (hQ _ _ h)

/-- Searches with mirrored strategies have the same statistics. If one of them finds something, so
does the other, and what they find is related. -/
theorem search_mirrors {S : Strategy Id δ σ ρ} {S' : Strategy Id δ σ ρ'}
    {R : State δ σ → ρ → ρ' → Prop} (hS : S.certain.Mirrors S'.certain R) (o : Options)
    (t : Tracer Id δ σ ρ) (t' : Tracer Id δ σ ρ') (dest : List (Tracker δ))
    (src : List (Tracker σ)) (v : ρ) (w : ρ') (hR : R (.start dest src) v w) :
    (search S o t dest src v).stats = (search S' o t' dest src w).stats ∧
      Option.Rel (fun v w => ∃ s, s.outlook = .finished ∧ R s v w)
        (search S o t dest src v).found (search S' o t' dest src w).found := by
  obtain ⟨log, u, l, hrun, hsearch⟩ := exists_run_certain S o t dest src v
  obtain ⟨log', u', l', hrun', hsearch'⟩ := exists_run_certain S' o t' dest src w
  obtain ⟨log'', r, hmirror, hr⟩ := hrun.mirror hS (.visit hR)
  obtain ⟨_, rfl⟩ := hmirror.unique hrun'
  rw [hsearch, hsearch']
  cases hr with
  | missed => exact ⟨rfl, .none⟩
  | found hs hR => exact ⟨rfl, .some ⟨_, hs, hR⟩⟩

end SeqAlign
