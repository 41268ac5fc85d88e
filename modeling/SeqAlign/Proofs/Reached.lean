import SeqAlign.Proofs.Books

/-!
# SeqAlign.Proofs.Reached

The visits of a search and the events that it reports.

* `Run.unique`: a task has one run.
* `Visit`: a state that a search comes to, with the value folded on the way, the depth, and the
  books as they stand before the visit.
* `Reaches S o task l log x`: busy with `task`, with books `l`, a search reports `log` and then
  begins the visit `x`.
* `Reaches.run`: the visit is a part of the run. What is reported about it follows `log`, and no
  counter goes down after it.
* `events`: all that a search reports, in order. `events_of_run` reads it off a run.
-/

namespace SeqAlign

variable {ε δ σ ρ : Type} {S : Strategy (Except ε) δ σ ρ} {o : Options} {task : Task δ σ ρ}
  {l l' : Ledger} {log log' : Log δ σ ρ} {r r' : Answer ε ρ} {u : Option ρ}

/-- Computations that may fail, with the events reported so far. -/
abbrev Recorded (ε δ σ ρ : Type) := ExceptT ε (StateM (Log δ σ ρ))

def Tracer.record : Tracer (Recorded ε δ σ ρ) δ σ ρ :=
  fun d e => modify (· ++ [(d, e)])

theorem run_report_record (log before : Log δ σ ρ) :
    (log.report (Tracer.record (ε := ε))).run.run before = (.ok (), before ++ log) := by
  induction log generalizing before with
  | nil => simp [Log.report]; rfl
  | cons x log ih =>
    rw [report_cons]
    refine (ih (before ++ [x])).trans ?_
    simp

theorem run_report_bind {α : Type} (log before : Log δ σ ρ) (f : Unit → Recorded ε δ σ ρ α) :
    (log.report Tracer.record >>= f).run.run before = (f ()).run.run (before ++ log) := by
  rw [ExceptT.run_bind, StateT.run_bind, run_report_record]
  rfl

/-- A task has one run: both are what the search does when it is recorded. -/
theorem Run.unique (h : Run S o task l log r) (h' : Run S o task l log' r') :
    log = log' ∧ r = r' := by
  have hperform {log : Log δ σ ρ} {r : Answer ε ρ} (h : Run S o task l log r) :
      (task.perform (S.lift (Recorded ε δ σ ρ)) o .record l).run.run [] = (r, log) := by
    rw [h.perform_eq .record, run_report_bind]
    rfl
  have heq := (hperform h).symm.trans (hperform h')
  exact ⟨congrArg Prod.snd heq, congrArg Prod.fst heq⟩

def events (S : Strategy (Except ε) δ σ ρ) (o : Options) (dest : List (Tracker δ))
    (src : List (Tracker σ)) (v : ρ) : Log δ σ ρ :=
  ((search (S.lift (Recorded ε δ σ ρ)) o .record dest src v).run.run []).2

/-- The last event of a search that does not fail. -/
def closing (dest : List (Tracker δ)) (src : List (Tracker σ)) : Answer ε ρ → Log δ σ ρ
  | .ok (u, _) => [(0, .closed dest src u)]
  | .error _ => []

theorem events_of_run {dest : List (Tracker δ)} {src : List (Tracker σ)} {v : ρ}
    (h : Run S o (.visit (.start dest src) v 0) .blank log r) :
    events S o dest src v = (0, .opened dest src) :: log ++ closing dest src r := by
  have hreport := run_report_bind (ε := ε) log [(0, .opened dest src)] fun _ => do
    let a ← liftM (m := Except ε) r
    Tracer.record 0 (.closed dest src a.1)
    return (⟨a.1, a.2.stats⟩ : Outcome ρ)
  rw [events, search_eq_of_run h]
  refine (congrArg Prod.snd hreport).trans ?_
  cases r with
  | error x => exact (List.append_nil _).symm
  | ok a => rfl

theorem Ledger.Grows.refl (l : Ledger) : l.Grows l := ⟨Nat.le_refl _, Nat.le_refl _, id⟩

theorem Ledger.Grows.trans {k : Ledger} (h : k.Grows l) (h' : l.Grows l') : k.Grows l' where
  steps := Nat.le_trans h.steps h'.steps
  maxDepth := Nat.le_trans h.maxDepth h'.maxDepth
  limitReached hk := h'.limitReached (h.limitReached hk)

structure Visit (δ σ ρ : Type) where
  state : State δ σ
  value : ρ
  depth : Nat
  /-- The books before the visit. -/
  books : Ledger

def Visit.toTask (x : Visit δ σ ρ) : Task δ σ ρ := .visit x.state x.value x.depth

/-- The books once the visit has been counted. -/
def Visit.entered (x : Visit δ σ ρ) : Ledger := x.books.enter x.depth

/-- One constructor for each way down into a run. -/
inductive Reaches (S : Strategy (Except ε) δ σ ρ) (o : Options) :
    Task δ σ ρ → Ledger → Log δ σ ρ → Visit δ σ ρ → Prop where
  | here {s : State δ σ} {v : ρ} {d : Nat} {l : Ledger} :
      Reaches S o (.visit s v d) l [] ⟨s, v, d, l⟩
  | explored {s : State δ σ} {v : ρ} {d : Nat} {l : Ledger} {log : Log δ σ ρ} {x : Visit δ σ ρ} :
      o.isExceeded (l.enter d) d = false →
      (o.memoize && (l.enter d).deadEnds.contains (s.key (S.digest v))) = false →
      Reaches S o (.explore s v d) (l.enter d) log x →
      Reaches S o (.visit s v d) l ((d, .entered s v) :: log) x
  | proceeded {s : State δ σ} {v : ρ} {d : Nat} {l : Ledger} {ph : Phase} {log : Log δ σ ρ}
      {x : Visit δ σ ρ} :
      s.outlook = .onward ph → S.opens v s.pairing? = .ok true →
      Reaches S o (.attempt s.pairing? v d s.edges) l log x →
      Reaches S o (.explore s v d) l ((d, .proceeding ph s.forks) :: log) x
  | first {here : Option (Pairing δ σ)} {v w : ρ} {d : Nat} {l : Ledger} {e : Edge δ σ}
      {es : List (Edge δ σ)} {log : Log δ σ ρ} {x : Visit δ σ ρ} :
      l.limitReached = false → S.foldAll v (e.folded here) = .ok w →
      Reaches S o (.visit e.target w (d + 1)) l log x →
      Reaches S o (.attempt here v d (e :: es)) l log x
  | later {here : Option (Pairing δ σ)} {v w : ρ} {d : Nat} {l l' : Ledger} {e : Edge δ σ}
      {es : List (Edge δ σ)} {log log' : Log δ σ ρ} {x : Visit δ σ ρ} :
      l.limitReached = false → S.foldAll v (e.folded here) = .ok w →
      Run S o (.visit e.target w (d + 1)) l log (.ok (none, l')) →
      Reaches S o (.attempt here v d es) l' log' x →
      Reaches S o (.attempt here v d (e :: es)) l (log ++ log') x

theorem grows_settle (o : Options) (key : Key) {r : Answer ε ρ} {m : Ledger}
    (hm : ∀ u k, r = .ok (u, k) → m.Grows k) (hr : r.map (Ledger.settle o key) = .ok (u, l)) :
    m.Grows l := by
  refine settle_keeps (I := m.Grows) ?_ hm u l hr
  intro k key _ hk
  exact ⟨hk.steps, hk.maxDepth, hk.limitReached⟩

/-- A visit that a search comes to is a part of its run. -/
theorem Reaches.run {x : Visit δ σ ρ} (h : Reaches S o task l log x)
    (hrun : Run S o task l log' r) :
    ∃ sub a, Run S o x.toTask x.books sub a ∧ log ++ sub <+: log' ∧
      ∀ u l', r = .ok (u, l') → ∃ w m, a = .ok (w, m) ∧ m.Grows l' := by
  induction h generalizing log' r with
  | here =>
    refine ⟨log', r, hrun, List.prefix_rfl, ?_⟩
    intro u l' hr
    exact ⟨u, l', hr, .refl l'⟩
  | explored hx hk _ ih =>
    cases hrun with
    | abandoned hx' => cases hx.symm.trans hx'
    | known _ hm hk' =>
      rw [hm, hk'] at hk
      cases hk
    | @explored _ _ _ _ _ r _ _ hsub =>
      obtain ⟨sub, a, ha, hprefix, hgrows⟩ := ih hsub
      refine ⟨sub, a, ha, List.cons_prefix_cons.2 ⟨rfl, hprefix⟩, ?_⟩
      intro u l' hr
      cases r with
      | error f => cases hr
      | ok b =>
        obtain ⟨w, m, hm, hgrows⟩ := hgrows b.1 b.2 rfl
        refine ⟨w, m, hm, grows_settle o _ ?_ hr⟩
        rintro _ _ ⟨⟩
        exact hgrows
  | proceeded ho hp _ ih =>
    cases hrun with
    | finished ho' => cases ho.symm.trans ho'
    | blocked ho' => cases ho.symm.trans ho'
    | unanswered _ hp' => cases hp.symm.trans hp'
    | refused _ hp' => cases hp.symm.trans hp'
    | proceeded ho' _ hsub =>
      cases ho.symm.trans ho'
      obtain ⟨sub, a, ha, hprefix, hgrows⟩ := ih hsub
      exact ⟨sub, a, ha, List.cons_prefix_cons.2 ⟨rfl, hprefix.trans (List.prefix_append _ _)⟩,
        hgrows⟩
  | first hl hf _ ih =>
    cases hrun with
    | halted hl' => cases hl.symm.trans hl'
    | unfolded _ hf' => cases hf.symm.trans hf'
    | failed _ hf' hsub =>
      cases hf.symm.trans hf'
      obtain ⟨sub, a, ha, hprefix, _⟩ := ih hsub
      exact ⟨sub, a, ha, hprefix, fun u l' hr => nomatch hr⟩
    | found _ hf' hsub =>
      cases hf.symm.trans hf'
      exact ih hsub
    | passed _ hf' hsub hrest =>
      cases hf.symm.trans hf'
      obtain ⟨sub, a, ha, hprefix, hgrows⟩ := ih hsub
      refine ⟨sub, a, ha, hprefix.trans (List.prefix_append _ _), ?_⟩
      rintro u l' rfl
      obtain ⟨w, m, hm, hgrows⟩ := hgrows _ _ rfl
      exact ⟨w, m, hm, hgrows.trans hrest.grows⟩
  | later hl hf hfirst _ ih =>
    cases hrun with
    | halted hl' => cases hl.symm.trans hl'
    | unfolded _ hf' => cases hf.symm.trans hf'
    | failed _ hf' hsub =>
      cases hf.symm.trans hf'
      cases (hfirst.unique hsub).2
    | found _ hf' hsub =>
      cases hf.symm.trans hf'
      cases (hfirst.unique hsub).2
    | passed _ hf' hsub hrest =>
      cases hf.symm.trans hf'
      obtain ⟨rfl, heq⟩ := hfirst.unique hsub
      cases heq
      obtain ⟨sub, a, ha, hprefix, hgrows⟩ := ih hrest
      refine ⟨sub, a, ha, ?_, hgrows⟩
      rw [List.append_assoc]
      exact (List.prefix_append_right_inj _).2 hprefix

end SeqAlign
