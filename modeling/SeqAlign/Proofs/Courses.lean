import Mathlib.Tactic.Choose
import SeqAlign.Proofs.Effects
import SeqAlign.Proofs.Run

/-!
# SeqAlign.Proofs.Courses

Searches whose strategy answers in any monad, and may answer the same question in different ways.

* `Yields P x`: whatever the computation `x` ends with has the property `P`.
* `Course digest o task l log r`: busy with `task`, with books `l`, a search whose strategy answers
  anything at all may report `log` and end with `r`. There is one constructor for each thing that
  such a search can do. A strategy that fails has no course.
* `Notes Q x`: `x` adds events to those noted so far, and these and what it ends with are in `Q`.
* `notes_visit`: the events that a search notes and what it ends with are those of a course.
* `yields_course`: so a search in any monad, with any tracer, ends as a course does.

What is proved by induction on `Course` holds of every outcome of every search.
-/

namespace SeqAlign

variable {m : Type → Type} [Monad m] {α β δ σ ρ : Type}

/-- Whatever the computation ends with has this property. -/
def Yields (P : α → Prop) (x : m α) : Prop := ∃ y : m {a // P a}, Subtype.val <$> y = x

section Yields

variable [LawfulMonad m] {P Q : α → Prop} {R : β → Prop} {x : m α}

theorem yields_pure {a : α} (h : P a) : Yields P (pure a : m α) :=
  ⟨pure ⟨a, h⟩, map_pure _ _⟩

theorem yields_any (x : m α) : Yields (fun _ => True) x :=
  ⟨(fun a => ⟨a, trivial⟩) <$> x, by rw [Functor.map_map]; exact id_map x⟩

theorem Yields.bind {f : α → m β} (hx : Yields P x) (hf : ∀ a, P a → Yields R (f a)) :
    Yields R (x >>= f) := by
  obtain ⟨y, rfl⟩ := hx
  choose g hg using hf
  refine ⟨y >>= fun a => g a.1 a.2, ?_⟩
  simp only [map_bind, bind_map_left, hg]

theorem Yields.map {f : α → β} (hx : Yields P x) (hf : ∀ a, P a → R (f a)) :
    Yields R (f <$> x) := by
  rw [← bind_pure_comp]
  exact hx.bind fun a ha => yields_pure (hf a ha)

theorem Yields.mono (hx : Yields P x) (hPQ : ∀ a, P a → Q a) : Yields Q x := by
  have hmap := hx.map (f := id) hPQ
  rwa [id_map] at hmap

theorem yields_id {a : Id α} : Yields P a ↔ P a := by
  constructor
  · rintro ⟨y, rfl⟩
    exact y.2
  · intro h
    exact ⟨(⟨a, h⟩ : {a // P a}), rfl⟩

end Yields

/-- What a search may do if nothing is known about the answers of its strategy. -/
inductive Course (digest : ρ → UInt64) (o : Options) :
    Task δ σ ρ → Ledger → Log δ σ ρ → Option ρ × Ledger → Prop where
  | abandoned {s : State δ σ} {v : ρ} {d : Nat} {l : Ledger} :
      o.isExceeded (l.enter d) d = true →
      Course digest o (.visit s v d) l [(d, .abandoned s)] (none, (l.enter d).abandon)
  | known {s : State δ σ} {v : ρ} {d : Nat} {l : Ledger} :
      o.memoize = true → (l.enter d).deadEnds.contains (s.key (digest v)) = true →
      Course digest o (.visit s v d) l [(d, .entered s v), (d, .knownDeadEnd)]
        (none, (l.enter d).hit)
  | explored {s : State δ σ} {v : ρ} {d : Nat} {l : Ledger} {log : Log δ σ ρ}
      {r : Option ρ × Ledger} :
      (o.memoize && (l.enter d).deadEnds.contains (s.key (digest v))) = false →
      Course digest o (.explore s v d) (l.enter d) log r →
      Course digest o (.visit s v d) l ((d, .entered s v) :: log)
        (Ledger.settle o (s.key (digest v)) r)
  | finished {s : State δ σ} {v : ρ} {d : Nat} {l : Ledger} :
      Course digest o (.explore s v d) l [(d, .accepted)] (some v, l)
  | blocked {s : State δ σ} {v : ρ} {d : Nat} {l : Ledger} {ended : Side} :
      Course digest o (.explore s v d) l [(d, .blocked ended)] (none, l)
  | refused {s : State δ σ} {v : ρ} {d : Nat} {l : Ledger} {ph : Phase} :
      Course digest o (.explore s v d) l [(d, .refused ph)] (none, l)
  | proceeded {s : State δ σ} {v : ρ} {d : Nat} {l : Ledger} {ph : Phase} {log : Log δ σ ρ}
      {r : Option ρ × Ledger} :
      Course digest o (.attempt s.pairing? v d s.edges) l log r →
      Course digest o (.explore s v d) l
        ((d, .proceeding ph s.forks) :: (log ++ exhaustion (ε := Empty) d ph (.ok r))) r
  | noneLeft {here : Option (Pairing δ σ)} {v : ρ} {d : Nat} {l : Ledger} :
      Course digest o (.attempt here v d []) l [] (none, l)
  | halted {here : Option (Pairing δ σ)} {v : ρ} {d : Nat} {l : Ledger} {e : Edge δ σ}
      {es : List (Edge δ σ)} :
      l.limitReached = true → Course digest o (.attempt here v d (e :: es)) l [] (none, l)
  | found {here : Option (Pairing δ σ)} {v w u : ρ} {d : Nat} {l l' : Ledger} {e : Edge δ σ}
      {es : List (Edge δ σ)} {log : Log δ σ ρ} :
      l.limitReached = false → Course digest o (.visit e.target w (d + 1)) l log (some u, l') →
      Course digest o (.attempt here v d (e :: es)) l log (some u, l')
  | passed {here : Option (Pairing δ σ)} {v w : ρ} {d : Nat} {l l' : Ledger} {e : Edge δ σ}
      {es : List (Edge δ σ)} {log log' : Log δ σ ρ} {r : Option ρ × Ledger} :
      l.limitReached = false → Course digest o (.visit e.target w (d + 1)) l log (none, l') →
      Course digest o (.attempt here v d es) l' log' r →
      Course digest o (.attempt here v d (e :: es)) l (log ++ log') r

theorem Course.attempt_of_limit {digest : ρ → UInt64} {o : Options} {here : Option (Pairing δ σ)}
    {v : ρ} {d : Nat} {es : List (Edge δ σ)} {l : Ledger} {log : Log δ σ ρ}
    {r : Option ρ × Ledger} (h : Course digest o (.attempt here v d es) l log r)
    (hl : l.limitReached = true) : log = [] ∧ r = (none, l) := by
  cases h with
  | noneLeft => exact ⟨rfl, rfl⟩
  | halted _ => exact ⟨rfl, rfl⟩
  | found h _ => cases hl.symm.trans h
  | passed h _ _ => cases hl.symm.trans h

/-- Passes events on to the tracer and notes them. -/
def Tracer.noting (t : Tracer m δ σ ρ) : Tracer (StateT (Log δ σ ρ) m) δ σ ρ :=
  fun d e => do
    liftM (t d e)
    modify (· ++ [(d, e)])

/-- The events that are noted and what the computation ends with are related in this way. -/
def Notes (Q : Log δ σ ρ → α → Prop) (x : StateT (Log δ σ ρ) m α) : Prop :=
  ∀ before, Yields (fun r => ∃ log, r.2 = before ++ log ∧ Q log r.1) (x.run before)

section Notes

variable [LawfulMonad m] {Q : Log δ σ ρ → α → Prop} {R : Log δ σ ρ → β → Prop}
  {x : StateT (Log δ σ ρ) m α}

theorem notes_pure {a : α} (h : Q [] a) : Notes Q (pure a : StateT (Log δ σ ρ) m α) := by
  intro before
  exact yields_pure ⟨[], (List.append_nil before).symm, h⟩

theorem Notes.bind {f : α → StateT (Log δ σ ρ) m β} (hx : Notes Q x)
    (hf : ∀ log a, Q log a → Notes (fun log' b => R (log ++ log') b) (f a)) :
    Notes R (x >>= f) := by
  intro before
  rw [StateT.run_bind]
  refine (hx before).bind ?_
  rintro ⟨a, _⟩ ⟨log, rfl, ha⟩
  refine (hf log a ha (before ++ log)).mono ?_
  rintro ⟨b, _⟩ ⟨log', rfl, hb⟩
  exact ⟨log ++ log', List.append_assoc _ _ _, hb⟩

theorem Notes.mono {Q' : Log δ σ ρ → α → Prop} (hx : Notes Q x)
    (hQ : ∀ log a, Q log a → Q' log a) : Notes Q' x := by
  intro before
  refine (hx before).mono ?_
  rintro ⟨a, _⟩ ⟨log, hlog, ha⟩
  exact ⟨log, hlog, hQ log a ha⟩

theorem notes_lift (x : m α) : Notes (fun log _ => log = []) (liftM x : StateT (Log δ σ ρ) m α) := by
  intro before
  have hrun : (liftM x : StateT (Log δ σ ρ) m α).run before = (fun a => (a, before)) <$> x := by
    simp
  rw [hrun]
  exact (yields_any x).map fun a _ => ⟨[], (List.append_nil before).symm, rfl⟩

theorem notes_event (t : Tracer m δ σ ρ) (d : Nat) (e : Event δ σ ρ) :
    Notes (fun log _ => log = [(d, e)]) (t.noting d e) := by
  intro before
  have hrun : (t.noting d e).run before = (fun a => (a, before ++ [(d, e)])) <$> t d e := by
    simp [Tracer.noting]
  rw [hrun]
  exact (yields_any _).map fun _ _ => ⟨[(d, e)], rfl, rfl⟩

theorem Notes.after {f : α → StateT (Log δ σ ρ) m β} (hx : Notes (fun log _ => log = []) x)
    (hf : ∀ a, Notes R (f a)) : Notes R (x >>= f) := by
  refine hx.bind ?_
  rintro _ a rfl
  exact hf a

theorem notes_event_bind {t : Tracer m δ σ ρ} {d : Nat} {e : Event δ σ ρ}
    {f : Unit → StateT (Log δ σ ρ) m β} (hf : Notes (fun log b => R ((d, e) :: log) b) (f ())) :
    Notes R (t.noting d e >>= f) := by
  refine (notes_event t d e).bind ?_
  rintro _ _ rfl
  exact hf

variable {S : Strategy m δ σ ρ} {o : Options} {t : Tracer m δ σ ρ} {d : Nat}

theorem notes_opens (v : ρ) (here : Option (Pairing δ σ)) :
    Notes (fun log _ => log = []) ((S.lift (StateT (Log δ σ ρ) m)).opens v here) := by
  cases here with
  | none => exact notes_pure rfl
  | some q => exact notes_lift _

theorem notes_foldAll (v : ρ) (qs : List (Pairing δ σ)) :
    Notes (fun log _ => log = []) ((S.lift (StateT (Log δ σ ρ) m)).foldAll v qs) := by
  induction qs generalizing v with
  | nil => exact notes_pure rfl
  | cons q qs ih =>
    rw [Strategy.foldAll, List.foldlM_cons]
    exact (notes_lift _).after fun w => ih w

/-! ## Searches have courses -/

omit [Monad m] [LawfulMonad m] in
theorem exhaustion_ok {ε : Type} (ph : Phase) (r : Option ρ × Ledger) :
    (exhaustion d ph (.ok r : Answer ε ρ) : Log δ σ ρ) =
      if ph = .inside ∧ r.1.isNone = true ∧ ¬ r.2.limitReached = true then [(d, .exhausted)]
      else [] := by
  obtain ⟨_ | u, l⟩ := r <;> simp [exhaustion]

theorem notes_attempt {here : Option (Pairing δ σ)} {v : ρ} {es : List (Edge δ σ)}
    (hvisit : ∀ e ∈ es, ∀ w l, Notes (Course S.digest o (.visit e.target w (d + 1)) l)
      ((Task.visit e.target w (d + 1)).perform (S.lift (StateT (Log δ σ ρ) m)) o t.noting l))
    (l : Ledger) :
    Notes (Course S.digest o (.attempt here v d es) l)
      ((Task.attempt here v d es).perform (S.lift (StateT (Log δ σ ρ) m)) o t.noting l) := by
  induction es generalizing l with
  | nil => exact notes_pure .noneLeft
  | cons e es ih =>
    rw [perform_attempt]
    by_cases hl : l.limitReached = true
    · rw [if_pos hl]
      exact notes_pure (.halted hl)
    · rw [if_neg hl]
      have hl : l.limitReached = false := Bool.eq_false_iff.2 hl
      refine (notes_foldAll v _).after fun w => (hvisit e List.mem_cons_self w l).bind ?_
      rintro log ⟨_ | u, l'⟩ hfirst
      · have hrest := ih (fun e' he' => hvisit e' (List.mem_cons_of_mem e he')) l'
        exact hrest.mono fun log' r hr => .passed hl hfirst hr
      · refine notes_pure ?_
        rw [List.append_nil]
        exact .found hl hfirst

theorem notes_explore {s : State δ σ} {v : ρ}
    (hvisit : ∀ e ∈ s.edges, ∀ w l, Notes (Course S.digest o (.visit e.target w (d + 1)) l)
      ((Task.visit e.target w (d + 1)).perform (S.lift (StateT (Log δ σ ρ) m)) o t.noting l))
    (l : Ledger) :
    Notes (Course S.digest o (.explore s v d) l)
      ((Task.explore s v d).perform (S.lift (StateT (Log δ σ ρ) m)) o t.noting l) := by
  cases ho : s.outlook with
  | finished =>
    simp only [Task.perform, expand, ho]
    exact notes_event_bind (notes_pure .finished)
  | blocked ended =>
    simp only [Task.perform, expand, ho]
    exact notes_event_bind (notes_pure .blocked)
  | onward ph =>
    rw [perform_explore _ _ _ ho]
    refine (notes_opens v s.pairing?).after fun b => ?_
    cases b with
    | false => exact notes_event_bind (notes_pure .refused)
    | true =>
      refine notes_event_bind ((notes_attempt hvisit l).bind ?_)
      intro log r hr
      have hcourse : Course S.digest o (.explore s v d) l
          ((d, .proceeding ph s.forks) :: (log ++ exhaustion (ε := Empty) d ph (.ok r))) r :=
        .proceeded hr
      rw [exhaustion_ok] at hcourse
      by_cases hsaid : ph = .inside ∧ r.1.isNone = true ∧ ¬ r.2.limitReached = true
      · rw [if_pos hsaid] at hcourse
        simp only [if_pos hsaid]
        exact notes_event_bind (notes_pure hcourse)
      · rw [if_neg hsaid] at hcourse
        simp only [if_neg hsaid]
        exact notes_pure hcourse

theorem notes_visit (s : State δ σ) (v : ρ) (l : Ledger) :
    Notes (Course S.digest o (.visit s v d) l)
      ((Task.visit s v d).perform (S.lift (StateT (Log δ σ ρ) m)) o t.noting l) := by
  -- by induction on the rank of the state, which every edge lowers
  have hdigest : (S.lift (StateT (Log δ σ ρ) m)).digest = S.digest := rfl
  induction hn : s.rank using Nat.strongRecOn generalizing s v d l with
  | ind n ih =>
    rw [perform_visit, hdigest]
    by_cases hx : o.isExceeded (l.enter d) d = true
    · rw [if_pos hx]
      exact notes_event_bind (notes_pure (.abandoned hx))
    · rw [if_neg hx]
      refine notes_event_bind ?_
      cases hk : o.memoize && (l.enter d).deadEnds.contains (s.key (S.digest v)) with
      | true =>
        obtain ⟨hm, hk⟩ := Bool.and_eq_true_iff.1 hk
        exact notes_event_bind (notes_pure (.known hm hk))
      | false =>
        refine (notes_explore ?_ (l.enter d)).bind ?_
        · intro e he w l
          exact ih e.target.rank (hn ▸ State.rank_target_lt he) e.target w l rfl
        · intro log r hr
          refine notes_pure ?_
          rw [List.append_nil]
          exact .explored hk hr

/-- What a search notes begins and ends with the sequences, and between them it has a course. -/
theorem notes_search (dest : List (Tracker δ)) (src : List (Tracker σ)) (v : ρ) :
    Notes
      (fun log a => ∃ inner l,
        log = (0, .opened dest src) :: (inner ++ [(0, .closed dest src a.found)]) ∧
        a.stats = l.stats ∧
        Course S.digest o (.visit (.start dest src) v 0) .blank inner (a.found, l))
      (search (S.lift (StateT (Log δ σ ρ) m)) o t.noting dest src v) := by
  refine notes_event_bind ((notes_visit (.start dest src) v .blank).bind ?_)
  intro log r hr
  exact notes_event_bind (notes_pure ⟨log, r.2, rfl, rfl, hr⟩)

end Notes

section Search

variable [LawfulMonad m] {S : Strategy m δ σ ρ} {o : Options} {t : Tracer m δ σ ρ}

theorem inStep_lift (τ : Type) (S : Strategy m δ σ ρ) (ds : List (Tracker δ))
    (ss : List (Tracker σ)) :
    S.InStep (Lockstep.dropState m τ) ds ss (S.lift (StateT τ m)) := by
  refine ⟨fun _ => rfl, ?_, ?_⟩
  · intro v q _ before
    simp [Strategy.lift]
  · intro v q _ before
    simp [Strategy.lift]

/-- Taking notes changes neither what a search ends with nor its effects. -/
theorem fst_run_noting (dest : List (Tracker δ)) (src : List (Tracker σ)) (v : ρ)
    (before : Log δ σ ρ) :
    Prod.fst <$> (search (S.lift (StateT (Log δ σ ρ) m)) o t.noting dest src v).run before =
      search S o t dest src v := by
  refine lockstep_search (inStep_lift (Log δ σ ρ) S dest src) ?_ v before
  intro d e before
  simp [Tracer.noting]

theorem yields_course (S : Strategy m δ σ ρ) (o : Options) (t : Tracer m δ σ ρ)
    (dest : List (Tracker δ)) (src : List (Tracker σ)) (v : ρ) :
    Yields
      (fun a => ∃ log l, a.stats = l.stats ∧
        Course S.digest o (.visit (.start dest src) v 0) .blank log (a.found, l))
      (search S o t dest src v) := by
  rw [← fst_run_noting dest src v []]
  refine (notes_search dest src v []).map ?_
  rintro a ⟨_, _, log, l, _, hstats, hcourse⟩
  exact ⟨log, l, hstats, hcourse⟩

end Search

end SeqAlign
