import SeqAlign.Proofs.Limits

/-!
# SeqAlign.Proofs.Paths

The way of a search, as its events tell it.

* `Event.visited?`: the state that a visit is about.
* `Log.pathFrom`, `Log.path`: the states that a search stands on after these events, one for each
  depth, with their values. The path is kept below a task while the search is busy with it
  (`Run.take_pathFrom`).
* `Called`: a visit that begins the search, or that is made along an edge of the state that the
  search stands on one step before.
* `Run.calls`: so is every visit of a run.
* `Log.Calls.invariant`: what holds of the start and what every edge keeps holds of every visit.
* `AcceptingWalk`: the states of a walk up to its end. A search that finds a value stands on such a
  walk (`Run.walked`).
-/

namespace SeqAlign

variable {ε δ σ ρ : Type} {S : Strategy (Except ε) δ σ ρ} {o : Options} {task : Task δ σ ρ}
  {l l' : Ledger} {log log' : Log δ σ ρ} {r : Answer ε ρ} {first : State δ σ}

def Event.visited? : Event δ σ ρ → Option (State δ σ)
  | .entered s _ => some s
  | .abandoned s => some s
  | _ => none

theorem visited_of_mem_exhaustion {d : Nat} {ph : Phase} {x : Nat × Event δ σ ρ}
    (h : x ∈ exhaustion d ph r) : x = (d, .exhausted) := by
  unfold exhaustion at h
  split at h
  · split at h
    · exact List.mem_singleton.1 h
    · cases h
  · cases h

theorem Run.maxDepth_le {n : Nat} (h : Run S o task l log r) (hl : l.maxDepth ≤ n)
    (hlog : ∀ x ∈ log, x.2.visited?.isSome = true → x.1 ≤ n) :
    ∀ u l', r = .ok (u, l') → l'.maxDepth ≤ n := by
  induction h with
  | abandoned _ =>
    intro u l' hr
    cases hr
    exact Nat.max_le.2 ⟨hl, hlog _ List.mem_cons_self rfl⟩
  | known _ _ _ =>
    intro u l' hr
    cases hr
    exact Nat.max_le.2 ⟨hl, hlog _ List.mem_cons_self rfl⟩
  | explored _ _ _ ih =>
    obtain ⟨hhere, hrest⟩ := List.forall_mem_cons.1 hlog
    exact settle_keeps (I := fun k => k.maxDepth ≤ n) (fun _ _ _ hk => hk)
      (ih (Nat.max_le.2 ⟨hl, hhere rfl⟩) hrest)
  | finished => intro u l' hr; cases hr; exact hl
  | blocked => intro u l' hr; cases hr; exact hl
  | unanswered => intro u l' hr; cases hr
  | refused => intro u l' hr; cases hr; exact hl
  | proceeded _ _ _ ih =>
    obtain ⟨_, hrest⟩ := List.forall_mem_cons.1 hlog
    exact ih hl (List.forall_mem_append.1 hrest).1
  | noneLeft => intro u l' hr; cases hr; exact hl
  | halted => intro u l' hr; cases hr; exact hl
  | unfolded => intro u l' hr; cases hr
  | failed => intro u l' hr; cases hr
  | found _ _ _ ih => exact ih hl hlog
  | passed _ _ _ _ ih ih' =>
    obtain ⟨hhere, hrest⟩ := List.forall_mem_append.1 hlog
    exact ih' (ih hl hhere _ _ rfl) hrest

/-- The states that a search stands on, from the first one on, with their values. -/
abbrev Path (δ σ ρ : Type) := List (State δ σ × ρ)

namespace Log

/-- A state that is entered takes the place of what stood at its depth. -/
def extend (path : Path δ σ ρ) : Nat × Event δ σ ρ → Path δ σ ρ
  | (d, .entered s v) => path.take d ++ [(s, v)]
  | _ => path

def pathFrom (path : Path δ σ ρ) (log : Log δ σ ρ) : Path δ σ ρ := log.foldl extend path

def path (log : Log δ σ ρ) : Path δ σ ρ := log.pathFrom []

theorem pathFrom_cons (path : Path δ σ ρ) (x : Nat × Event δ σ ρ) (log : Log δ σ ρ) :
    pathFrom path (x :: log) = pathFrom (extend path x) log := rfl

theorem pathFrom_append (path : Path δ σ ρ) (log log' : Log δ σ ρ) :
    pathFrom path (log ++ log') = pathFrom (pathFrom path log) log' :=
  List.foldl_append

theorem pathFrom_exhaustion (path : Path δ σ ρ) (d : Nat) (ph : Phase) (r : Answer ε ρ) :
    pathFrom path (exhaustion d ph r : Log δ σ ρ) = path := by
  unfold exhaustion
  split
  · split <;> rfl
  · rfl

end Log

section Extend

variable {path : Path δ σ ρ} {d : Nat} {s : State δ σ} {v : ρ}

theorem length_enter (h : d ≤ path.length) : (path.take d ++ [(s, v)]).length = d + 1 := by
  simp [h]

theorem getElem?_enter (h : d ≤ path.length) :
    (path.take d ++ [(s, v)])[d]? = some (s, v) := by
  have hlength : (path.take d).length = d := by simp [h]
  rw [List.getElem?_append_right (by omega), hlength, Nat.sub_self]
  rfl

theorem take_enter (h : d ≤ path.length) : (path.take d ++ [(s, v)]).take d = path.take d := by
  have hlength : (path.take d).length = d := by simp [h]
  rw [List.take_append_of_le_length (by omega), List.take_take, Nat.min_self]

theorem le_length_of_take_eq {path' : Path δ σ ρ} (h : path'.take d = path.take d)
    (hd : d ≤ path.length) : d ≤ path'.length := by
  have hlength := congrArg List.length h
  simp only [List.length_take] at hlength
  omega

end Extend

/-- A search that is busy with a task leaves the path to it as it is. -/
theorem Run.take_pathFrom (h : Run S o task l log r) {path : Path δ σ ρ}
    (hpath : task.nextDepth ≤ path.length) :
    (log.pathFrom path).take task.nextDepth = path.take task.nextDepth := by
  induction h generalizing path with
  | abandoned _ => rfl
  | known _ _ _ => exact take_enter hpath
  | @explored s v d l log r _ _ _ ih =>
    have hpath : d ≤ path.length := hpath
    have hkept := @ih (path.take d ++ [(s, v)]) (Nat.le_of_eq (length_enter hpath).symm)
    have htake := congrArg (List.take d) hkept
    simp only [Task.nextDepth, List.take_take, Nat.min_eq_left (Nat.le_succ d)] at htake
    exact htake.trans (take_enter hpath)
  | finished => rfl
  | blocked => rfl
  | unanswered => rfl
  | refused => rfl
  | proceeded _ _ _ ih =>
    rw [Log.pathFrom_cons, Log.pathFrom_append, Log.pathFrom_exhaustion]
    exact ih hpath
  | noneLeft => rfl
  | halted => rfl
  | unfolded => rfl
  | failed _ _ _ ih => exact ih hpath
  | found _ _ _ ih => exact ih hpath
  | passed _ _ _ _ ih ih' =>
    have hkept := ih hpath
    rw [Log.pathFrom_append]
    exact (ih' (le_length_of_take_eq hkept hpath)).trans hkept

/-- The search begins with this visit, or it goes along an edge of the state that it stands on one
step before. -/
inductive Called (first : State δ σ) (path : Path δ σ ρ) : Nat → State δ σ → Prop where
  | first : Called first path 0 first
  | along {d : Nat} {s : State δ σ} {v : ρ} {e : Edge δ σ} :
      path[d]? = some (s, v) → e ∈ s.edges → Called first path (d + 1) e.target

theorem Called.depth_le {path : Path δ σ ρ} {d : Nat} {s : State δ σ} (h : Called first path d s) :
    d ≤ path.length := by
  cases h with
  | first => exact Nat.zero_le _
  | along hs _ => exact (List.getElem?_eq_some_iff.1 hs).1

/-- The states on the path have this property, at their depths. -/
def Path.Has (J : Nat → State δ σ → Prop) (path : Path δ σ ρ) : Prop :=
  ∀ d s v, path[d]? = some (s, v) → J d s

theorem Path.Has.enter {J : Nat → State δ σ → Prop} {path : Path δ σ ρ} {d : Nat} {s : State δ σ}
    {v : ρ} (h : Path.Has J path) (hd : d ≤ path.length) (hs : J d s) :
    Path.Has J (path.take d ++ [(s, v)]) := by
  intro k t w hk
  have hlength : (path.take d).length = d := by simp [hd]
  rcases Nat.lt_trichotomy k d with hlt | rfl | hgt
  · rw [List.getElem?_append_left (by omega), List.getElem?_take_of_lt hlt] at hk
    exact h k t w hk
  · rw [getElem?_enter hd] at hk
    cases hk
    exact hs
  · rw [List.getElem?_eq_none (by rw [length_enter hd]; omega)] at hk
    cases hk

theorem Called.keeps {J : Nat → State δ σ → Prop} (hfirst : J 0 first)
    (hedge : ∀ d s e, J d s → e ∈ s.edges → J (d + 1) e.target) {path : Path δ σ ρ}
    (hpath : Path.Has J path) {d : Nat} {s : State δ σ} (h : Called first path d s) : J d s := by
  cases h with
  | first => exact hfirst
  | along hs he => exact hedge _ _ _ (hpath _ _ _ hs) he

/-- Every visit is called, on the path up to it. -/
def Log.Calls (first : State δ σ) (path : Path δ σ ρ) : Log δ σ ρ → Prop
  | [] => True
  | x :: log => (∀ s ∈ x.2.visited?, Called first path x.1 s) ∧ Calls first (extend path x) log

theorem Log.calls_append {path : Path δ σ ρ} :
    Log.Calls first path (log ++ log') ↔
      log.Calls first path ∧ log'.Calls first (log.pathFrom path) := by
  induction log generalizing path with
  | nil => simp [Calls, pathFrom]
  | cons x log ih =>
    rw [List.cons_append, Calls, Calls, ih, and_assoc]
    rfl

theorem Log.calls_of_not_visited {path : Path δ σ ρ} (h : ∀ x ∈ log, x.2.visited? = none) :
    log.Calls first path := by
  induction log generalizing path with
  | nil => trivial
  | cons x log ih =>
    obtain ⟨hx, hlog⟩ := List.forall_mem_cons.1 h
    refine ⟨?_, ih hlog⟩
    rw [hx]
    nofun

def Task.StandsOn (first : State δ σ) (path : Path δ σ ρ) : Task δ σ ρ → Prop
  | .visit s _ d => Called first path d s
  | .explore s v d => path[d]? = some (s, v)
  | .attempt _ v d es => ∃ s, path[d]? = some (s, v) ∧ ∀ e ∈ es, e ∈ s.edges

theorem Run.calls (h : Run S o task l log r) {path : Path δ σ ρ}
    (hpath : task.StandsOn first path) : log.Calls first path := by
  induction h generalizing path with
  | abandoned _ => exact ⟨by rintro _ ⟨⟩; exact hpath, trivial⟩
  | known _ _ _ => exact ⟨by rintro _ ⟨⟩; exact hpath, nofun, trivial⟩
  | explored _ _ _ ih =>
    exact ⟨by rintro _ ⟨⟩; exact hpath, ih (getElem?_enter hpath.depth_le)⟩
  | finished => exact ⟨nofun, trivial⟩
  | blocked => exact ⟨nofun, trivial⟩
  | unanswered => trivial
  | refused => exact ⟨nofun, trivial⟩
  | proceeded _ _ _ ih =>
    refine ⟨nofun, Log.calls_append.2 ⟨ih ⟨_, hpath, fun _ => id⟩, ?_⟩⟩
    refine Log.calls_of_not_visited fun x hx => ?_
    rw [visited_of_mem_exhaustion hx]
    rfl
  | noneLeft => trivial
  | halted => trivial
  | unfolded => trivial
  | failed _ _ _ ih =>
    obtain ⟨s, hs, hes⟩ := hpath
    exact ih (.along hs (hes _ List.mem_cons_self))
  | found _ _ _ ih =>
    obtain ⟨s, hs, hes⟩ := hpath
    exact ih (.along hs (hes _ List.mem_cons_self))
  | @passed here v w d l l' e es log log' r _ _ hrun _ ih ih' =>
    obtain ⟨s, hs, hes⟩ := hpath
    have hcalled : Called first path (d + 1) e.target := .along hs (hes _ List.mem_cons_self)
    have hkept := hrun.take_pathFrom hcalled.depth_le
    refine Log.calls_append.2 ⟨ih hcalled, ih' ⟨s, ?_, fun e' he' => hes e' (.tail _ he')⟩⟩
    have hget := congrArg (fun p => p[d]?) hkept
    simp only [Task.nextDepth, List.getElem?_take_of_lt (Nat.lt_succ_self d)] at hget
    rw [hget, hs]

/-- What the start has and every edge keeps, all states on the path have and all that are visited. -/
theorem Log.Calls.invariant {J : Nat → State δ σ → Prop} (hfirst : J 0 first)
    (hedge : ∀ d s e, J d s → e ∈ s.edges → J (d + 1) e.target) {path : Path δ σ ρ}
    (h : log.Calls first path) (hpath : Path.Has J path) :
    Path.Has J (log.pathFrom path) ∧ ∀ x ∈ log, ∀ s ∈ x.2.visited?, J x.1 s := by
  induction log generalizing path with
  | nil => exact ⟨hpath, nofun⟩
  | cons x log ih =>
    obtain ⟨hx, hlog⟩ := h
    obtain ⟨d, e⟩ := x
    have hvisit (s : State δ σ) (hs : s ∈ e.visited?) : J d s :=
      (hx s hs).keeps hfirst hedge hpath
    have hextend : Path.Has J (Log.extend path (d, e)) := by
      cases e with
      | entered s v => exact hpath.enter (hx s rfl).depth_le (hvisit s rfl)
      | _ => exact hpath
    obtain ⟨hstands, hvisits⟩ := ih hlog hextend
    exact ⟨hstands, List.forall_mem_cons.2 ⟨hvisit, hvisits⟩⟩

theorem events_calls (S : Strategy (Except ε) δ σ ρ) (o : Options) (dest : List (Tracker δ))
    (src : List (Tracker σ)) (v : ρ) : (events S o dest src v).Calls (.start dest src) [] := by
  obtain ⟨log, r, h⟩ := exists_run (S := S) (o := o) (.start dest src) v 0 .blank
  rw [events_of_run h, List.cons_append]
  refine ⟨nofun, Log.calls_append.2 ⟨h.calls .first, Log.calls_of_not_visited ?_⟩⟩
  unfold closing
  split
  · intro x hx
    rw [List.mem_singleton.1 hx]
    rfl
  · nofun

/-! ## Walks -/

/-- The states of a walk, with the values that it has there. It ends past both sequences with the
last of them. -/
inductive AcceptingWalk (S : Strategy (Except ε) δ σ ρ) :
    State δ σ → ρ → Path δ σ ρ → ρ → Prop where
  | finished {s : State δ σ} {v : ρ} : s.outlook = .finished → AcceptingWalk S s v [(s, v)] v
  | along {s : State δ σ} {v w u : ρ} {ph : Phase} {e : Edge δ σ} {walk : Path δ σ ρ} :
      s.outlook = .onward ph → S.opens v s.pairing? = .ok true → e ∈ s.edges →
      S.foldAll v (e.folded s.pairing?) = .ok w → AcceptingWalk S e.target w walk u →
      AcceptingWalk S s v ((s, v) :: walk) u

def Task.BeginsOn (path : Path δ σ ρ) : Task δ σ ρ → Prop
  | .visit _ _ d => d ≤ path.length
  | .explore s v d => d ≤ path.length ∧ path = path.take d ++ [(s, v)]
  | .attempt _ _ d _ => d + 1 ≤ path.length

theorem Task.beginsOn_enter {path : Path δ σ ρ} {d : Nat} (s : State δ σ) (v : ρ)
    (h : d ≤ path.length) : (Task.explore s v d).BeginsOn (path.take d ++ [(s, v)]) := by
  refine ⟨?_, by rw [take_enter h]⟩
  rw [length_enter h]
  exact Nat.le_succ d

/-- The path on which a task ends that has found this value. -/
def Task.EndsOn (S : Strategy (Except ε) δ σ ρ) (u : ρ) (path path' : Path δ σ ρ) :
    Task δ σ ρ → Prop
  | .visit s v d => ∃ walk, AcceptingWalk S s v walk u ∧ path' = path.take d ++ walk
  | .explore s v d => ∃ walk, AcceptingWalk S s v walk u ∧ path' = path.take d ++ walk
  | .attempt here v d es =>
    ∃ e ∈ es, ∃ w walk, S.foldAll v (e.folded here) = .ok w ∧ AcceptingWalk S e.target w walk u ∧
      path' = path.take (d + 1) ++ walk

theorem exists_of_settle {key : Key} {u : Option ρ}
    (h : r.map (Ledger.settle o key) = .ok (u, l')) :
    ∃ m, r = .ok (u, m) ∧ Ledger.settle o key (u, m) = (u, l') := by
  cases r with
  | error f => cases h
  | ok a =>
    obtain ⟨w, m⟩ := a
    have hsettle : Ledger.settle o key (w, m) = (u, l') := Except.ok.inj h
    have hfst : (Ledger.settle o key (w, m)).1 = w := by
      unfold Ledger.settle
      split <;> rfl
    obtain rfl : w = u := by rw [← hfst, hsettle]
    exact ⟨m, rfl, hsettle⟩

theorem Run.walked (h : Run S o task l log r) {path : Path δ σ ρ} (hpath : task.BeginsOn path) :
    ∀ u l', r = .ok (some u, l') → task.EndsOn S u path (log.pathFrom path) := by
  induction h generalizing path with
  | abandoned _ => intro u l' hr; cases hr
  | known _ _ _ => intro u l' hr; cases hr
  | @explored s v d l log r _ _ _ ih =>
    intro u l' hr
    obtain ⟨m, hm, _⟩ := exists_of_settle hr
    obtain ⟨walk, hwalk, hend⟩ := ih (Task.beginsOn_enter s v hpath) u m hm
    rw [take_enter hpath] at hend
    exact ⟨walk, hwalk, hend⟩
  | finished ho =>
    intro u l' hr
    cases hr
    exact ⟨_, .finished ho, hpath.2⟩
  | blocked => intro u l' hr; cases hr
  | unanswered => intro u l' hr; cases hr
  | refused => intro u l' hr; cases hr
  | @proceeded s v d l ph log r ho hp _ ih =>
    intro u l' hr
    obtain ⟨hd, hlast⟩ := hpath
    have hlength : path.length = d + 1 := by rw [hlast, length_enter hd]
    obtain ⟨e, he, w, walk, hf, hwalk, hend⟩ := @ih path (Nat.le_of_eq hlength.symm) u l' hr
    refine ⟨_, .along ho hp he hf hwalk, ?_⟩
    rw [Log.pathFrom_cons, Log.pathFrom_append, Log.pathFrom_exhaustion]
    refine hend.trans ?_
    rw [← hlength, List.take_length]
    -- on the left the path itself, on the right its last state apart
    calc path ++ walk = (path.take d ++ [(s, v)]) ++ walk := by rw [← hlast]
      _ = path.take d ++ (s, v) :: walk := (List.append_cons _ _ _).symm
  | noneLeft => intro u l' hr; cases hr
  | halted => intro u l' hr; cases hr
  | unfolded => intro u l' hr; cases hr
  | failed => intro u l' hr; cases hr
  | found _ hf _ ih =>
    intro u l' hr
    obtain ⟨walk, hwalk, hend⟩ := ih hpath u l' hr
    exact ⟨_, List.mem_cons_self, _, walk, hf, hwalk, hend⟩
  | passed _ _ hrun _ _ ih' =>
    intro u l' hr
    have hkept := hrun.take_pathFrom hpath
    obtain ⟨e, he, w, walk, hf, hwalk, hend⟩ := ih' (le_length_of_take_eq hkept hpath) u l' hr
    refine ⟨e, List.mem_cons_of_mem _ he, w, walk, hf, hwalk, ?_⟩
    rw [Log.pathFrom_append, hend]
    exact congrArg (· ++ walk) hkept

end SeqAlign
