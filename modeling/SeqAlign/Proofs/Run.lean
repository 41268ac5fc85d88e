import SeqAlign.Search.Engine

/-!
# SeqAlign.Proofs.Run

A search as a relation, for strategies whose operations may fail.

* `Run S o task l log r`: busy with `task`, with books `l`, the search reports the events of `log`
  and ends with `r`, which is a failure or an answer with new books.
* `Run.perform_eq`: in every monad that can fail in this way, and with every tracer, the search does
  just that: it reports `log`, then it ends with `r`. So what a search answers does not depend on
  who listens to it.
* `exists_run`: every task has a run.

Facts about searches are proved by induction on `Run`, with one case for each thing that a search
can do.
-/

namespace SeqAlign

/-- The same strategy, with its answers carried into another monad. -/
def Strategy.lift {m : Type → Type} (n : Type → Type) [MonadLiftT m n] {δ σ ρ : Type}
    (S : Strategy m δ σ ρ) : Strategy n δ σ ρ where
  admits v p := liftM (S.admits v p)
  fold v p := liftM (S.fold v p)
  digest := S.digest
  render := S.render

/-- Events with the depths at which they occur. -/
abbrev Log (δ σ ρ : Type) := List (Nat × Event δ σ ρ)

def Log.report {n : Type → Type} [Monad n] {δ σ ρ : Type} (t : Tracer n δ σ ρ)
    (log : Log δ σ ρ) : n Unit :=
  log.forM fun x => t x.1 x.2

/-- An answer with the books after it, unless an operation of the strategy failed. -/
abbrev Answer (ε ρ : Type) := Except ε (Option ρ × Ledger)

/-- What a search can be busy with. -/
inductive Task (δ σ ρ : Type) where
  | visit (s : State δ σ) (v : ρ) (d : Nat)
  /-- The state is neither beyond a limit nor a known dead end. -/
  | explore (s : State δ σ) (v : ρ) (d : Nat)
  /-- The edges left to try, from a state that stands on `here`. -/
  | attempt (here : Option (Pairing δ σ)) (v : ρ) (d : Nat) (es : List (Edge δ σ))

/-- Said last about a state from which no edge led to the end. -/
def exhaustion {ε δ σ ρ : Type} (d : Nat) (ph : Phase) : Answer ε ρ → Log δ σ ρ
  | .ok (none, l) => if ph = .inside ∧ ¬ l.limitReached then [(d, .exhausted)] else []
  | _ => []

inductive Run {ε δ σ ρ : Type} (S : Strategy (Except ε) δ σ ρ) (o : Options) :
    Task δ σ ρ → Ledger → Log δ σ ρ → Answer ε ρ → Prop where
  | abandoned {s : State δ σ} {v : ρ} {d : Nat} {l : Ledger} :
      o.isExceeded (l.enter d) d = true →
      Run S o (.visit s v d) l [(d, .abandoned s)] (.ok (none, (l.enter d).abandon))
  | known {s : State δ σ} {v : ρ} {d : Nat} {l : Ledger} :
      o.isExceeded (l.enter d) d = false → o.memoize = true →
      (l.enter d).deadEnds.contains (s.key (S.digest v)) = true →
      Run S o (.visit s v d) l [(d, .entered s v), (d, .knownDeadEnd)] (.ok (none, (l.enter d).hit))
  | explored {s : State δ σ} {v : ρ} {d : Nat} {l : Ledger} {log : Log δ σ ρ} {r : Answer ε ρ} :
      o.isExceeded (l.enter d) d = false →
      (o.memoize && (l.enter d).deadEnds.contains (s.key (S.digest v))) = false →
      Run S o (.explore s v d) (l.enter d) log r →
      Run S o (.visit s v d) l ((d, .entered s v) :: log)
        (r.map (Ledger.settle o (s.key (S.digest v))))
  | finished {s : State δ σ} {v : ρ} {d : Nat} {l : Ledger} :
      s.outlook = .finished → Run S o (.explore s v d) l [(d, .accepted)] (.ok (some v, l))
  | blocked {s : State δ σ} {v : ρ} {d : Nat} {l : Ledger} {ended : Side} :
      s.outlook = .blocked ended →
      Run S o (.explore s v d) l [(d, .blocked ended)] (.ok (none, l))
  | unanswered {s : State δ σ} {v : ρ} {d : Nat} {l : Ledger} {ph : Phase} {x : ε} :
      s.outlook = .onward ph → S.opens v s.pairing? = .error x →
      Run S o (.explore s v d) l [] (.error x)
  | refused {s : State δ σ} {v : ρ} {d : Nat} {l : Ledger} {ph : Phase} :
      s.outlook = .onward ph → S.opens v s.pairing? = .ok false →
      Run S o (.explore s v d) l [(d, .refused ph)] (.ok (none, l))
  | proceeded {s : State δ σ} {v : ρ} {d : Nat} {l : Ledger} {ph : Phase} {log : Log δ σ ρ}
      {r : Answer ε ρ} :
      s.outlook = .onward ph → S.opens v s.pairing? = .ok true →
      Run S o (.attempt s.pairing? v d s.edges) l log r →
      Run S o (.explore s v d) l ((d, .proceeding ph s.forks) :: (log ++ exhaustion d ph r)) r
  | noneLeft {here : Option (Pairing δ σ)} {v : ρ} {d : Nat} {l : Ledger} :
      Run S o (.attempt here v d []) l [] (.ok (none, l))
  | halted {here : Option (Pairing δ σ)} {v : ρ} {d : Nat} {l : Ledger} {e : Edge δ σ}
      {es : List (Edge δ σ)} :
      l.limitReached = true → Run S o (.attempt here v d (e :: es)) l [] (.ok (none, l))
  | unfolded {here : Option (Pairing δ σ)} {v : ρ} {d : Nat} {l : Ledger} {e : Edge δ σ}
      {es : List (Edge δ σ)} {x : ε} :
      l.limitReached = false → S.foldAll v (e.folded here) = .error x →
      Run S o (.attempt here v d (e :: es)) l [] (.error x)
  | failed {here : Option (Pairing δ σ)} {v w : ρ} {d : Nat} {l : Ledger} {e : Edge δ σ}
      {es : List (Edge δ σ)} {log : Log δ σ ρ} {x : ε} :
      l.limitReached = false → S.foldAll v (e.folded here) = .ok w →
      Run S o (.visit e.target w (d + 1)) l log (.error x) →
      Run S o (.attempt here v d (e :: es)) l log (.error x)
  | found {here : Option (Pairing δ σ)} {v w u : ρ} {d : Nat} {l l' : Ledger} {e : Edge δ σ}
      {es : List (Edge δ σ)} {log : Log δ σ ρ} :
      l.limitReached = false → S.foldAll v (e.folded here) = .ok w →
      Run S o (.visit e.target w (d + 1)) l log (.ok (some u, l')) →
      Run S o (.attempt here v d (e :: es)) l log (.ok (some u, l'))
  | passed {here : Option (Pairing δ σ)} {v w : ρ} {d : Nat} {l l' : Ledger} {e : Edge δ σ}
      {es : List (Edge δ σ)} {log log' : Log δ σ ρ} {r : Answer ε ρ} :
      l.limitReached = false → S.foldAll v (e.folded here) = .ok w →
      Run S o (.visit e.target w (d + 1)) l log (.ok (none, l')) →
      Run S o (.attempt here v d es) l' log' r →
      Run S o (.attempt here v d (e :: es)) l (log ++ log') r

/-- What the search does about a task. -/
def Task.perform {n : Type → Type} [Monad n] {δ σ ρ : Type} (S : Strategy n δ σ ρ) (o : Options)
    (t : Tracer n δ σ ρ) : Task δ σ ρ → Ledger → n (Option ρ × Ledger)
  | .visit s v d, l => SeqAlign.visit S o t s v d l
  | .explore s v d, l =>
    expand S t d v l s fun e _ v l => SeqAlign.visit S o t e.target v (d + 1) l
  | .attempt here v d es, l =>
    firstOf (fun e l => do
      let w ← S.foldAll v (e.folded here)
      SeqAlign.visit S o t e.target w (d + 1) l) es l

section Report

variable {δ σ ρ : Type} {n : Type → Type} [Monad n]

theorem report_exhaustion [LawfulMonad n] {ε : Type} (t : Tracer n δ σ ρ) (d : Nat) (ph : Phase)
    (u : Option ρ) (l : Ledger) :
    Log.report t (exhaustion d ph (.ok (u, l) : Answer ε ρ)) =
      if ph = .inside ∧ u.isNone ∧ ¬ l.limitReached then t d .exhausted else pure () := by
  cases u with
  | some u => simp [exhaustion, Log.report]
  | none =>
    simp only [exhaustion, Option.isNone_none, true_and]
    split <;> simp [Log.report]

theorem report_cons (t : Tracer n δ σ ρ) (d : Nat) (e : Event δ σ ρ) (log : Log δ σ ρ) :
    Log.report t ((d, e) :: log) = (do t d e; Log.report t log) := by
  simp [Log.report]

theorem report_append [LawfulMonad n] (t : Tracer n δ σ ρ) (log log' : Log δ σ ρ) :
    Log.report t (log ++ log') = (do Log.report t log; Log.report t log') := by
  simp [Log.report]

end Report

section Perform

variable {δ σ ρ : Type} {n : Type → Type} [Monad n] (S : Strategy n δ σ ρ) (o : Options)
  (t : Tracer n δ σ ρ)

theorem perform_visit (s : State δ σ) (v : ρ) (d : Nat) (l : Ledger) :
    (Task.visit s v d).perform S o t l =
      (if o.isExceeded (l.enter d) d then do
        t d (.abandoned s)
        pure (none, (l.enter d).abandon)
      else do
        t d (.entered s v)
        if o.memoize && (l.enter d).deadEnds.contains (s.key (S.digest v)) then
          t d .knownDeadEnd
          pure (none, (l.enter d).hit)
        else
          let r ← (Task.explore s v d).perform S o t (l.enter d)
          pure (Ledger.settle o (s.key (S.digest v)) r)) :=
  visit_eq S o t s v d l

theorem perform_explore [LawfulMonad n] {s : State δ σ} {ph : Phase}
    (h : s.outlook = .onward ph) (v : ρ) (d : Nat) (l : Ledger) :
    (Task.explore s v d).perform S o t l =
      (do
        if ← S.opens v s.pairing? then
          t d (.proceeding ph s.forks)
          let r ← (Task.attempt s.pairing? v d s.edges).perform S o t l
          if ph = .inside ∧ r.1.isNone ∧ ¬ r.2.limitReached then t d .exhausted
          pure r
        else
          t d (.refused ph)
          pure (none, l)) :=
  expand_onward S t d v l s h fun e v l => SeqAlign.visit S o t e.target v (d + 1) l

theorem perform_attempt (here : Option (Pairing δ σ)) (v : ρ) (d : Nat) (e : Edge δ σ)
    (es : List (Edge δ σ)) (l : Ledger) [LawfulMonad n] :
    (Task.attempt here v d (e :: es)).perform S o t l =
      (if l.limitReached then pure (none, l)
      else do
        let w ← S.foldAll v (e.folded here)
        let r ← (Task.visit e.target w (d + 1)).perform S o t l
        if r.1.isSome then pure r else (Task.attempt here v d es).perform S o t r.2) := by
  simp only [Task.perform, firstOf, bind_assoc]

end Perform

section Lift

variable {ε δ σ ρ : Type} {n : Type → Type} [Monad n] [MonadLiftT (Except ε) n]
  [LawfulMonadLiftT (Except ε) n]

theorem liftM_ok {α : Type} (a : α) : liftM (.ok a : Except ε α) = (pure a : n α) :=
  liftM_pure a

theorem lift_opens (S : Strategy (Except ε) δ σ ρ) (v : ρ) (here : Option (Pairing δ σ)) :
    (S.lift n).opens v here = liftM (S.opens v here) := by
  cases here with
  | none => exact (liftM_ok true).symm
  | some p => rfl

theorem lift_foldAll (S : Strategy (Except ε) δ σ ρ) (v : ρ) (ps : List (Pairing δ σ)) :
    (S.lift n).foldAll v ps = liftM (S.foldAll v ps) := by
  induction ps generalizing v with
  | nil => exact (liftM_ok v).symm
  | cons p ps ih =>
    simp only [Strategy.foldAll, List.foldlM_cons, liftM_bind] at ih ⊢
    exact congrArg _ (funext ih)

variable [LawfulMonad n]

theorem liftM_error_bind {α β : Type} (x : ε) (f : α → n β) :
    liftM (.error x : Except ε α) >>= f = liftM (.error x : Except ε β) := by
  have h {γ : Type} : (liftM (.error x : Except ε γ) : n γ) =
      liftM (.error x : Except ε Empty) >>= fun a => a.elim := by
    have : (.error x : Except ε γ) = (.error x : Except ε Empty) >>= fun a => a.elim := rfl
    rw [this, liftM_bind]
    congr 1
    funext a
    exact a.elim
  calc liftM (.error x : Except ε α) >>= f
      = liftM (.error x : Except ε Empty) >>= fun a => a.elim >>= f := by rw [h, bind_assoc]
    _ = liftM (.error x : Except ε Empty) >>= fun a => a.elim := by
      congr 1
      funext a
      exact a.elim
    _ = liftM (.error x : Except ε β) := h.symm

theorem Run.perform_eq {S : Strategy (Except ε) δ σ ρ} {o : Options} {task : Task δ σ ρ}
    {l : Ledger} {log : Log δ σ ρ} {r : Answer ε ρ} (h : Run S o task l log r)
    (t : Tracer n δ σ ρ) :
    task.perform (S.lift n) o t l = (do log.report t; liftM r) := by
  have hdigest (v : ρ) : (S.lift n).digest v = S.digest v := rfl
  induction h with
  | abandoned hx => simp [perform_visit, hx, Log.report, liftM_ok]
  | known hx hm hk => simp [perform_visit, hx, hm, hdigest, hk, Log.report, liftM_ok]
  | @explored s v d l log r hx hk _ ih =>
    simp only [perform_visit, hx, hdigest, hk, Bool.false_eq_true, if_false, ih, report_cons]
    cases r with
    | error x => simp only [Except.map, bind_assoc, liftM_error_bind]
    | ok a => simp only [Except.map, bind_assoc, liftM_ok, pure_bind]
  | finished ho => simp [Task.perform, expand, ho, Log.report, liftM_ok]
  | blocked ho => simp [Task.perform, expand, ho, Log.report, liftM_ok]
  | unanswered ho hp =>
    simp [perform_explore _ _ _ ho, lift_opens, hp, Log.report, liftM_error_bind]
  | refused ho hp => simp [perform_explore _ _ _ ho, lift_opens, hp, Log.report, liftM_ok]
  | @proceeded s v d l ph log r ho hp _ ih =>
    simp only [perform_explore _ _ _ ho, lift_opens, hp, liftM_ok, pure_bind, if_true, ih,
      report_cons, report_append]
    cases r with
    | error x => simp [exhaustion, Log.report, liftM_error_bind]
    | ok a =>
      obtain ⟨u, l'⟩ := a
      simp only [report_exhaustion, liftM_ok, bind_assoc, pure_bind]
      split <;> simp
  | noneLeft => simp [Task.perform, firstOf, Log.report, liftM_ok]
  | halted hl => simp [perform_attempt, hl, Log.report, liftM_ok]
  | unfolded hl hf => simp [perform_attempt, hl, lift_foldAll, hf, Log.report, liftM_error_bind]
  | failed hl hf _ ih =>
    simp [perform_attempt, hl, lift_foldAll, hf, liftM_ok, ih, liftM_error_bind]
  | found hl hf _ ih => simp [perform_attempt, hl, lift_foldAll, hf, liftM_ok, ih]
  | passed hl hf _ _ ih ih' =>
    simp [perform_attempt, hl, lift_foldAll, hf, liftM_ok, ih, ih', report_append]

end Lift

/-! ## Every task has a run -/

section Exists

variable {ε δ σ ρ : Type} {S : Strategy (Except ε) δ σ ρ} {o : Options}

theorem exists_run_attempt {here : Option (Pairing δ σ)} {v : ρ} {d : Nat} {es : List (Edge δ σ)}
    (hvisit : ∀ e ∈ es, ∀ w l, ∃ log r, Run S o (.visit e.target w (d + 1)) l log r) (l : Ledger) :
    ∃ log r, Run S o (.attempt here v d es) l log r := by
  induction es generalizing l with
  | nil => exact ⟨_, _, .noneLeft⟩
  | cons e es ih =>
    cases hl : l.limitReached with
    | true => exact ⟨_, _, .halted hl⟩
    | false =>
      cases hf : S.foldAll v (e.folded here) with
      | error x => exact ⟨_, _, .unfolded hl hf⟩
      | ok w =>
        obtain ⟨log, r, hr⟩ := hvisit e List.mem_cons_self w l
        match r, hr with
        | .error x, hr => exact ⟨_, _, .failed hl hf hr⟩
        | .ok (some u, l'), hr => exact ⟨_, _, .found hl hf hr⟩
        | .ok (none, l'), hr =>
          obtain ⟨log', r', hr'⟩ := ih (fun e' he' => hvisit e' (List.mem_cons_of_mem e he')) l'
          exact ⟨_, _, .passed hl hf hr hr'⟩

theorem exists_run_explore {s : State δ σ} {v : ρ} {d : Nat}
    (hvisit : ∀ e ∈ s.edges, ∀ w l, ∃ log r, Run S o (.visit e.target w (d + 1)) l log r)
    (l : Ledger) : ∃ log r, Run S o (.explore s v d) l log r := by
  cases ho : s.outlook with
  | finished => exact ⟨_, _, .finished ho⟩
  | blocked ended => exact ⟨_, _, .blocked ho⟩
  | onward ph =>
    match hp : S.opens v s.pairing? with
    | .error x => exact ⟨_, _, .unanswered ho hp⟩
    | .ok false => exact ⟨_, _, .refused ho hp⟩
    | .ok true =>
      obtain ⟨log, r, hr⟩ := exists_run_attempt hvisit l
      exact ⟨_, _, .proceeded ho hp hr⟩

theorem exists_run (s : State δ σ) (v : ρ) (d : Nat) (l : Ledger) :
    ∃ log r, Run S o (.visit s v d) l log r := by
  -- by induction on the rank of the state, which every edge lowers
  induction hn : s.rank using Nat.strongRecOn generalizing s v d l with
  | ind n ih =>
    cases hx : o.isExceeded (l.enter d) d with
    | true => exact ⟨_, _, .abandoned hx⟩
    | false =>
      cases hk : o.memoize && (l.enter d).deadEnds.contains (s.key (S.digest v)) with
      | true =>
        rw [Bool.and_eq_true] at hk
        exact ⟨_, _, .known hx hk.1 hk.2⟩
      | false =>
        have hvisit (e : Edge δ σ) (he : e ∈ s.edges) (w : ρ) (l : Ledger) :=
          ih _ (hn ▸ State.rank_target_lt he) e.target w (d + 1) l rfl
        obtain ⟨log, r, hr⟩ := exists_run_explore hvisit (l.enter d)
        exact ⟨_, _, .explored hx hk hr⟩

end Exists

/-- A search reports what its run reports and ends as its run ends. -/
theorem search_eq_of_run {ε δ σ ρ : Type} {n : Type → Type} [Monad n] [LawfulMonad n]
    [MonadLiftT (Except ε) n] [LawfulMonadLiftT (Except ε) n] {S : Strategy (Except ε) δ σ ρ}
    {o : Options} {dest : List (Tracker δ)} {src : List (Tracker σ)} {v : ρ} {log : Log δ σ ρ}
    {r : Answer ε ρ} (h : Run S o (.visit (.start dest src) v 0) .blank log r)
    (t : Tracer n δ σ ρ) :
    search (S.lift n) o t dest src v =
      (do
        t 0 (.opened dest src)
        log.report t
        let a ← liftM (m := Except ε) r
        t 0 (.closed dest src a.1)
        pure ⟨a.1, a.2.stats⟩) := by
  have hp := h.perform_eq t
  simp only [Task.perform] at hp
  simp only [search, hp, bind_assoc]

theorem search_silent {ε δ σ ρ : Type} {S : Strategy (Except ε) δ σ ρ} {o : Options}
    {dest : List (Tracker δ)} {src : List (Tracker σ)} {v : ρ} {log : Log δ σ ρ} {r : Answer ε ρ}
    (h : Run S o (.visit (.start dest src) v 0) .blank log r) :
    search S o .silent dest src v = r.map fun a => ⟨a.1, a.2.stats⟩ := by
  have hreport (log : Log δ σ ρ) : log.report (.silent (m := Except ε)) = pure () := by
    induction log with
    | nil => rfl
    | cons x log ih => exact ih
  have hs := search_eq_of_run (n := Except ε) h .silent
  rw [hreport] at hs
  exact hs

def Strategy.certain {δ σ ρ : Type} (S : Strategy Id δ σ ρ) : Strategy (Except Empty) δ σ ρ where
  admits v p := .ok (S.admits v p)
  fold v p := .ok (S.fold v p)
  digest := S.digest
  render := S.render

instance monadLiftCertain : MonadLift (Except Empty) Id where
  monadLift
    | .ok a => a

instance lawfulMonadLiftCertain : LawfulMonadLift (Except Empty) Id where
  monadLift_pure _ := rfl
  monadLift_bind x f := by
    cases x with
    | error x => exact x.elim
    | ok a => rfl

theorem search_certain {δ σ ρ : Type} (S : Strategy Id δ σ ρ) (o : Options) (t : Tracer Id δ σ ρ)
    (dest : List (Tracker δ)) (src : List (Tracker σ)) (v : ρ) :
    search S.certain o .silent dest src v = .ok (search S o t dest src v) := by
  obtain ⟨log, r, h⟩ := exists_run (S := S.certain) (o := o) (.start dest src) v 0 .blank
  rw [search_silent h]
  cases r with
  | error x => exact x.elim
  | ok a => exact congrArg Except.ok (search_eq_of_run (n := Id) h t).symm

theorem exists_run_certain {δ σ ρ : Type} (S : Strategy Id δ σ ρ) (o : Options)
    (t : Tracer Id δ σ ρ) (dest : List (Tracker δ)) (src : List (Tracker σ)) (v : ρ) :
    ∃ log u l, Run S.certain o (.visit (.start dest src) v 0) .blank log (.ok (u, l)) ∧
      search S o t dest src v = ⟨u, l.stats⟩ := by
  obtain ⟨log, r, h⟩ := exists_run (S := S.certain) (o := o) (.start dest src) v 0 .blank
  have hsearch := (search_silent h).symm.trans (search_certain S o t dest src v)
  match r, h with
  | .error x, _ => exact x.elim
  | .ok (u, l), h => exact ⟨log, u, l, h, (Except.ok.inj hsearch).symm⟩

end SeqAlign
