import SeqAlign.Search.Event
import SeqAlign.Search.Ledger
import SeqAlign.Strategy

/-!
# SeqAlign.Search.Engine

The backtracking search for a walk over two sequences of trackers. Candidates are explored
depth-first, in the order of `State.edges`, and the first walk that reaches both ends wins.

* `firstOf`: tries candidates in turn until one succeeds or a limit is reached.
* `expand`: what happens at a state, given how to follow an edge. The edges are tried fork by
  fork, so that only those that are tried are ever built.
* `visit`: explores a state unless a limit is reached or the state is a known dead end.
* `search`: a whole run, from before both sequences.

`visit_eq` unfolds one visit, and `expand_onward` the exploration of a state with edges, as one
`firstOf` over all of them.
-/

namespace SeqAlign

variable {m : Type → Type} [Monad m] {δ σ ρ : Type}

structure Outcome (ρ : Type) where
  found : Option ρ
  stats : Stats

/-- Tries the candidates in turn. A success ends the search, and so does a limit. -/
def firstOf {β : Type} (attempt : β → Ledger → m (Option ρ × Ledger)) :
    List β → Ledger → m (Option ρ × Ledger)
  | [], ledger => pure (none, ledger)
  | e :: es, ledger => do
    if ledger.limitReached then pure (none, ledger)
    else
      let r ← attempt e ledger
      if r.1.isSome then pure r else firstOf attempt es r.2

/-- What the walk stands on is admitted; at the start it stands on nothing. -/
def Strategy.opens (strategy : Strategy m δ σ ρ) (value : ρ) : Option (Pairing δ σ) → m Bool
  | none => pure true
  | some pairing => strategy.admits value pairing

/-- Every candidate folds its own pairings into the value of the state it starts from. -/
def expand (strategy : Strategy m δ σ ρ) (tracer : Tracer m δ σ ρ) (depth : Nat) (value : ρ)
    (ledger : Ledger) (s : State δ σ)
    (follow : (e : Edge δ σ) → e ∈ s.edges → ρ → Ledger → m (Option ρ × Ledger)) :
    m (Option ρ × Ledger) :=
  match s.outlook with
  | .finished => do
    tracer depth .accepted
    pure (some value, ledger)
  | .blocked ended => do
    tracer depth (.blocked ended)
    pure (none, ledger)
  | .onward phase => do
    if ← strategy.opens value s.pairing? then
      tracer depth (.proceeding phase s.forks)
      let r ← firstOf
        (fun fork => firstOf
          (fun y ledger => do
            let e : Edge δ σ := ⟨fork.1.dest, y.1⟩
            let value ← strategy.foldAll value (e.folded s.pairing?)
            follow e (State.mem_edges.2 ⟨fork.1.src, fork.2, y.2⟩) value ledger)
          fork.1.src.attach)
        s.forks.attach ledger
      if phase = .inside ∧ r.1.isNone ∧ ¬ r.2.limitReached then tracer depth .exhausted
      pure r
    else
      tracer depth (.refused phase)
      pure (none, ledger)

/-- A dead end is remembered, unless a limit cut the exploration short. -/
def Ledger.settle (options : Options) (key : Key) (r : Option ρ × Ledger) : Option ρ × Ledger :=
  if r.1.isNone ∧ options.memoize ∧ ¬ r.2.limitReached then (r.1, r.2.remember key) else r

def visit (strategy : Strategy m δ σ ρ) (options : Options) (tracer : Tracer m δ σ ρ)
    (s : State δ σ) (value : ρ) (depth : Nat) (ledger : Ledger) : m (Option ρ × Ledger) :=
  let ledger := ledger.enter depth
  let key := s.key (strategy.digest value)
  if options.isExceeded ledger depth then do
    tracer depth (.abandoned s)
    pure (none, ledger.abandon)
  else do
    tracer depth (.entered s value)
    if options.memoize && ledger.deadEnds.contains key then
      tracer depth .knownDeadEnd
      pure (none, ledger.hit)
    else
      let r ← expand strategy tracer depth value ledger s fun e _ value ledger =>
        visit strategy options tracer e.target value (depth + 1) ledger
      pure (Ledger.settle options key r)
termination_by s.rank
decreasing_by exact State.rank_target_lt ‹_›

/-- The value of the first walk that pairs the two sequences, and the statistics of the run. -/
def search (strategy : Strategy m δ σ ρ) (options : Options) (tracer : Tracer m δ σ ρ)
    (dest : List (Tracker δ)) (src : List (Tracker σ)) (initial : ρ) : m (Outcome ρ) := do
  tracer 0 (.opened dest src)
  let r ← visit strategy options tracer (.start dest src) initial 0 .blank
  tracer 0 (.closed dest src r.1)
  pure ⟨r.1, r.2.stats⟩

/-! ## Unfolding -/

theorem firstOf_of_limitReached {β : Type} (attempt : β → Ledger → m (Option ρ × Ledger))
    (es : List β) {ledger : Ledger} (h : ledger.limitReached) :
    firstOf attempt es ledger = pure (none, ledger) := by
  cases es with
  | nil => rfl
  | cons e es => simp [firstOf, h]

theorem firstOf_map {β γ : Type} (f : β → γ) (attempt : γ → Ledger → m (Option ρ × Ledger))
    (es : List β) (ledger : Ledger) :
    firstOf attempt (es.map f) ledger = firstOf (fun e => attempt (f e)) es ledger := by
  induction es generalizing ledger with
  | nil => rfl
  | cons e es ih => simp only [List.map_cons, firstOf, ih]

theorem firstOf_attach {β : Type} (attempt : β → Ledger → m (Option ρ × Ledger))
    (es : List β) (ledger : Ledger) :
    firstOf (fun e : {e // e ∈ es} => attempt e.1) es.attach ledger =
      firstOf attempt es ledger := by
  rw [← firstOf_map Subtype.val, List.attach_map_subtype_val]

theorem firstOf_append [LawfulMonad m] {β : Type} (attempt : β → Ledger → m (Option ρ × Ledger))
    (es es' : List β) (ledger : Ledger) :
    firstOf attempt (es ++ es') ledger =
      (do
        let r ← firstOf attempt es ledger
        if r.1.isSome then pure r else firstOf attempt es' r.2) := by
  induction es generalizing ledger with
  | nil => simp [firstOf]
  | cons e es ih =>
    rw [List.cons_append, firstOf, firstOf]
    by_cases h : ledger.limitReached
    · simp [h, firstOf_of_limitReached]
    · simp only [h, Bool.false_eq_true, if_false, bind_assoc]
      congr 1
      funext r
      by_cases hr : r.1.isSome <;> simp [hr, ih]

/-- Candidates in groups are tried like one list of candidates. -/
theorem firstOf_flatMap [LawfulMonad m] {β γ : Type}
    (attempt : γ → Ledger → m (Option ρ × Ledger)) (group : β → List γ) (xs : List β)
    (ledger : Ledger) :
    firstOf attempt (xs.flatMap group) ledger =
      firstOf (fun x => firstOf attempt (group x)) xs ledger := by
  induction xs generalizing ledger with
  | nil => rfl
  | cons x xs ih =>
    rw [List.flatMap_cons, firstOf_append, firstOf]
    by_cases h : ledger.limitReached
    · simp [h, firstOf_of_limitReached]
    · simp only [h, Bool.false_eq_true, if_false, ih]

theorem expand_onward [LawfulMonad m] (strategy : Strategy m δ σ ρ) (tracer : Tracer m δ σ ρ)
    (depth : Nat) (value : ρ) (ledger : Ledger) (s : State δ σ) {phase : Phase}
    (h : s.outlook = .onward phase) (follow : Edge δ σ → ρ → Ledger → m (Option ρ × Ledger)) :
    expand strategy tracer depth value ledger s (fun e _ => follow e) =
      (do
        if ← strategy.opens value s.pairing? then
          tracer depth (.proceeding phase s.forks)
          let r ← firstOf
            (fun e ledger => do
              let value ← strategy.foldAll value (e.folded s.pairing?)
              follow e value ledger)
            s.edges ledger
          if phase = .inside ∧ r.1.isNone ∧ ¬ r.2.limitReached then tracer depth .exhausted
          pure r
        else
          tracer depth (.refused phase)
          pure (none, ledger)) := by
  have hedges (attempt : Edge δ σ → Ledger → m (Option ρ × Ledger)) :
      firstOf
        (fun fork : {fork // fork ∈ s.forks} => firstOf
          (fun y : {y // y ∈ fork.1.src} => attempt ⟨fork.1.dest, y.1⟩) fork.1.src.attach)
        s.forks.attach ledger = firstOf attempt s.edges ledger := by
    rw [State.edges, firstOf_flatMap, ← firstOf_attach _ s.forks]
    congr 1
    funext fork ledger
    rw [Fork.edges, firstOf_map, ← firstOf_attach _ fork.1.src]
  rw [← hedges]
  unfold expand
  rw [h]

theorem visit_eq (strategy : Strategy m δ σ ρ) (options : Options) (tracer : Tracer m δ σ ρ)
    (s : State δ σ) (value : ρ) (depth : Nat) (ledger : Ledger) :
    visit strategy options tracer s value depth ledger =
      (if options.isExceeded (ledger.enter depth) depth then do
        tracer depth (.abandoned s)
        pure (none, (ledger.enter depth).abandon)
      else do
        tracer depth (.entered s value)
        if options.memoize && (ledger.enter depth).deadEnds.contains
            (s.key (strategy.digest value)) then
          tracer depth .knownDeadEnd
          pure (none, (ledger.enter depth).hit)
        else
          let r ← expand strategy tracer depth value (ledger.enter depth) s
            fun e _ value ledger =>
              visit strategy options tracer e.target value (depth + 1) ledger
          pure (Ledger.settle options (s.key (strategy.digest value)) r)) := by
  rw [visit]

end SeqAlign
