import SeqAlign.Proofs.Reachable

/-!
# SeqAlign.Proofs.Exploration

What a search explores when it remembers dead ends, and what it counts meanwhile.

* `Log.explored`: the states that are explored, as the events tell it.
* `Run.position_lt`: below a state only states ahead of it are explored. So no state is entered into
  the table by its own descendants.
* `Accounts`: what a run does to the table and to the counters. What it explores is not in the table
  before, and is in the table after it has led nowhere. Each step is a dead end that was known, or
  one that is new in the table, or a state of the walk that is found.
* `Run.accounts`: every run keeps its accounts.
* `explored_once`: what this says about a search.
-/

namespace SeqAlign

variable {ε δ σ ρ : Type} {S : Strategy (Except ε) δ σ ρ} {o : Options} {task : Task δ σ ρ}
  {l l' : Ledger} {log log' : Log δ σ ρ} {r : Answer ε ρ} {u : Option ρ}

namespace Log

/-- The states that are entered and not known as dead ends, with their values. -/
def explored : Log δ σ ρ → List (State δ σ × ρ)
  | [] => []
  | (_, .entered _ _) :: (_, .knownDeadEnd) :: log => explored log
  | (_, .entered s v) :: log => (s, v) :: explored log
  | _ :: log => explored log

def exploredKeys (digest : ρ → UInt64) (log : Log δ σ ρ) : List Key :=
  log.explored.map fun x => x.1.key (digest x.2)

/-- The first event does not tell of a known dead end. -/
def Opens (log : Log δ σ ρ) : Prop := ∀ x ∈ log.head?, x.2 ≠ .knownDeadEnd

theorem Opens.append (h : log.Opens) (h' : log'.Opens) : Opens (log ++ log') := by
  intro x hx
  cases log with
  | nil => exact h' x hx
  | cons y log => exact h x hx

theorem explored_entered (d : Nat) (s : State δ σ) (v : ρ) (h : log.Opens) :
    explored ((d, .entered s v) :: log) = (s, v) :: explored log := by
  rw [explored]
  rintro d' log' rfl
  exact h _ rfl rfl

theorem explored_append (h : log'.Opens) :
    explored (log ++ log') = explored log ++ explored log' := by
  fun_induction explored log with
  | case1 => rfl
  | case2 d s v d' log ih => exact ih
  | case3 d s v log hlog ih =>
    have hopens : Opens log := by
      rintro ⟨d', e⟩ hx rfl
      cases log with
      | nil => cases hx
      | cons y log =>
        obtain rfl := Option.some.inj hx
        exact hlog d' log rfl
    rw [List.cons_append, explored_entered d s v (hopens.append h), ih, List.cons_append]
  | case4 x log _ hentered ih =>
    rw [List.cons_append, explored, ih]
    · intro d s v _ _ hx
      exact (hentered d s v hx).elim
    · exact hentered

theorem explored_exhaustion (d : Nat) (ph : Phase) (r : Answer ε ρ) :
    explored (exhaustion d ph r : Log δ σ ρ) = [] := by
  unfold exhaustion
  split
  · split <;> rfl
  · rfl

theorem opens_exhaustion (d : Nat) (ph : Phase) (r : Answer ε ρ) :
    Opens (exhaustion d ph r : Log δ σ ρ) := by
  intro x hx
  rw [visited_of_mem_exhaustion (List.mem_of_mem_head? hx)]
  nofun

theorem explored_proceeding (d : Nat) (ph : Phase) (forks : List (Fork δ σ)) (log : Log δ σ ρ)
    (r : Answer ε ρ) :
    explored ((d, .proceeding ph forks) :: (log ++ exhaustion d ph r)) = explored log := by
  have hskip : explored ((d, .proceeding ph forks) :: (log ++ exhaustion d ph r)) =
      explored (log ++ exhaustion d ph r) := rfl
  rw [hskip, explored_append (opens_exhaustion d ph r), explored_exhaustion, List.append_nil]

end Log

theorem Run.opens (h : Run S o task l log r) : log.Opens := by
  induction h with
  | abandoned _ => rintro _ ⟨⟩; nofun
  | known _ _ _ => rintro _ ⟨⟩; nofun
  | explored _ _ _ _ => rintro _ ⟨⟩; nofun
  | finished => rintro _ ⟨⟩; nofun
  | blocked => rintro _ ⟨⟩; nofun
  | unanswered => nofun
  | refused => rintro _ ⟨⟩; nofun
  | proceeded _ _ _ _ => rintro _ ⟨⟩; nofun
  | noneLeft => nofun
  | halted => nofun
  | unfolded => nofun
  | failed _ _ _ ih => exact ih
  | found _ _ _ ih => exact ih
  | passed _ _ _ _ ih ih' => exact ih.append ih'

/-- A task that is about what is ahead of this position. -/
def Task.Above (n : Int) : Task δ σ ρ → Prop
  | .visit s _ _ => n < s.position
  | .explore s _ _ => n ≤ s.position
  | .attempt _ _ _ es => ∀ e ∈ es, n < e.target.position

theorem Run.position_lt (h : Run S o task l log r) {n : Int} (hn : task.Above n) :
    ∀ x ∈ log.explored, n < x.1.position := by
  induction h with
  | abandoned _ => nofun
  | known _ _ _ => nofun
  | @explored s v d l log r _ _ hrun ih =>
    rw [Log.explored_entered d s v hrun.opens]
    exact List.forall_mem_cons.2 ⟨hn, ih (Int.le_of_lt hn)⟩
  | finished => nofun
  | blocked => nofun
  | unanswered => nofun
  | refused => nofun
  | @proceeded s v d l ph log r _ _ _ ih =>
    rw [Log.explored_proceeding]
    exact ih fun e he => Int.lt_of_le_of_lt hn (position_lt_target he)
  | noneLeft => nofun
  | halted => nofun
  | unfolded => nofun
  | failed _ _ _ ih => exact ih (hn _ List.mem_cons_self)
  | found _ _ _ ih => exact ih (hn _ List.mem_cons_self)
  | passed _ _ _ hrest ih ih' =>
    rw [Log.explored_append hrest.opens]
    exact List.forall_mem_append.2
      ⟨ih (hn _ List.mem_cons_self), ih' fun e he => hn e (List.mem_cons_of_mem _ he)⟩

/-! ## Accounts -/

/-- What a run that explores these keys does to the table and to the counters. It begins at this
depth and ends with a path of this length. -/
structure Accounts (l : Ledger) (keys : List Key) (u : Option ρ) (l' : Ledger)
    (depth length : Nat) : Prop where
  fresh : ∀ k ∈ keys, k ∉ l.deadEnds
  nodup : keys.Nodup
  kept : ∀ k ∈ l.deadEnds, k ∈ l'.deadEnds
  only : ∀ k ∈ l'.deadEnds, k ∈ l.deadEnds ∨ k ∈ keys
  remembered : u = none → l'.limitReached = false → ∀ k ∈ keys, k ∈ l'.deadEnds
  failed : u = none → l'.limitReached = false →
    l'.steps + l.memoHits + l.deadEnds.size = l.steps + l'.memoHits + l'.deadEnds.size
  found : ∀ w, u = some w →
    l'.steps + l.memoHits + l.deadEnds.size + depth =
      l.steps + l'.memoHits + l'.deadEnds.size + length

theorem Accounts.of_deadEnds_eq {depth length : Nat} (hends : l'.deadEnds = l.deadEnds)
    (hfailed : u = none → l'.limitReached = false → l'.steps + l.memoHits = l.steps + l'.memoHits)
    (hfound : ∀ w, u = some w → l'.steps + l.memoHits + depth = l.steps + l'.memoHits + length) :
    Accounts l [] u l' depth length where
  fresh := nofun
  nodup := .nil
  kept _ hk := hends ▸ hk
  only _ hk := .inl (hends ▸ hk)
  remembered _ _ := nofun
  failed hu hl := by
    have hbalance := hfailed hu hl
    rw [hends]
    omega
  found w hw := by
    have hbalance := hfound w hw
    rw [hends]
    omega

theorem Accounts.nothing (l : Ledger) (depth length : Nat) :
    Accounts l [] (none : Option ρ) l depth length :=
  .of_deadEnds_eq rfl (fun _ _ => rfl) nofun

theorem Accounts.accept (l : Ledger) (v : ρ) (depth : Nat) :
    Accounts l [] (some v) l depth depth :=
  .of_deadEnds_eq rfl nofun fun _ _ => rfl

theorem Accounts.abandon (l : Ledger) (d depth length : Nat) :
    Accounts l [] (none : Option ρ) (l.enter d).abandon depth length :=
  .of_deadEnds_eq rfl (fun _ h => by cases h) nofun

theorem Accounts.hit (l : Ledger) (d depth length : Nat) :
    Accounts l [] (none : Option ρ) (l.enter d).hit depth length := by
  refine .of_deadEnds_eq rfl (fun _ _ => ?_) nofun
  simp only [Ledger.hit, Ledger.enter]
  omega

/-- One after the other. The first one has led nowhere, and no limit was reached. -/
theorem Accounts.append {m : Ledger} {keys keys' : List Key} {depth length length' : Nat}
    (h : Accounts l keys (none : Option ρ) m depth length)
    (h' : Accounts m keys' u l' depth length') (hm : m.limitReached = false) :
    Accounts l (keys ++ keys') u l' depth length' where
  fresh := by
    intro k hk
    rcases List.mem_append.1 hk with hk | hk
    · exact h.fresh k hk
    · exact fun hl => h'.fresh k hk (h.kept k hl)
  nodup := by
    refine List.nodup_append.2 ⟨h.nodup, h'.nodup, ?_⟩
    rintro k hk _ hk' rfl
    exact h'.fresh k hk' (h.remembered rfl hm k hk)
  kept k hk := h'.kept k (h.kept k hk)
  only := by
    intro k hk
    rcases h'.only k hk with hk | hk
    · exact (h.only k hk).imp_right (List.mem_append_left _)
    · exact .inr (List.mem_append_right _ hk)
  remembered := by
    intro hu hl' k hk
    rcases List.mem_append.1 hk with hk | hk
    · exact h'.kept k (h.remembered rfl hm k hk)
    · exact h'.remembered hu hl' k hk
  failed := by
    intro hu hl'
    have hfirst := h.failed rfl hm
    have hsecond := h'.failed hu hl'
    omega
  found := by
    intro w hw
    have hfirst := h.failed rfl hm
    have hsecond := h'.found w hw
    omega

/-- A state is explored. Its key is neither in the table nor among those below it. -/
theorem Accounts.explore {m : Ledger} {key : Key} {keys : List Key} {d length : Nat}
    (h : Accounts (l.enter d) keys u m (d + 1) length) (hkey : key ∉ l.deadEnds)
    (hkeys : key ∉ keys) (hmemo : o.memoize = true)
    (hl' : Ledger.settle o key (u, m) = (u, l')) : Accounts l (key :: keys) u l' d length := by
  have hnew : key ∉ m.deadEnds := fun hm => (h.only key hm).elim hkey hkeys
  have hfresh : ∀ k ∈ key :: keys, k ∉ l.deadEnds := List.forall_mem_cons.2 ⟨hkey, h.fresh⟩
  have hnodup : (key :: keys).Nodup := List.nodup_cons.2 ⟨hkeys, h.nodup⟩
  simp only [Ledger.settle] at hl'
  split at hl'
  · rename_i hsettles
    obtain ⟨hnone, _, hlimit⟩ := hsettles
    obtain rfl := (Prod.mk.inj hl').2
    refine ⟨hfresh, hnodup, ?_, ?_, ?_, ?_, ?_⟩
    · intro k hk
      exact Std.HashSet.mem_insert.2 (.inr (h.kept k hk))
    · intro k hk
      rcases Std.HashSet.mem_insert.1 hk with hk | hk
      · rw [eq_of_beq hk]
        exact .inr List.mem_cons_self
      · exact (h.only k hk).imp_right (List.mem_cons_of_mem _)
    · intro hu hl k hk
      rcases List.mem_cons.1 hk with rfl | hk
      · exact Std.HashSet.mem_insert_self
      · exact Std.HashSet.mem_insert.2 (.inr (h.remembered hu hl k hk))
    · intro hu hl
      have hbelow := h.failed hu hl
      simp only [Ledger.remember, Ledger.enter, Std.HashSet.size_insert, if_neg hnew] at hbelow ⊢
      omega
    · rintro w rfl
      cases hnone
  · rename_i hsettles
    obtain rfl := (Prod.mk.inj hl').2
    have hlimited (hu : u = none) : m.limitReached ≠ false := by
      intro hlimit
      exact hsettles ⟨by rw [hu]; rfl, hmemo, by rw [hlimit]; decide⟩
    refine ⟨hfresh, hnodup, h.kept, ?_, ?_, ?_, ?_⟩
    · intro k hk
      exact (h.only k hk).imp_right (List.mem_cons_of_mem _)
    · intro hu hl
      exact absurd hl (hlimited hu)
    · intro hu hl
      exact absurd hl (hlimited hu)
    · intro w hw
      have hbelow := h.found w hw
      simp only [Ledger.enter] at hbelow
      omega

theorem key_not_mem_exploredKeys {s : State δ σ} {g : UInt64} {digest : ρ → UInt64}
    (h : ∀ x ∈ log.explored, s.position < x.1.position) :
    s.key g ∉ log.exploredKeys digest := by
  intro hmem
  obtain ⟨x, hx, hkey⟩ := List.mem_map.1 hmem
  have hdest : x.1.destIndex = s.destIndex := congrArg Key.destIndex hkey
  have hsrc : x.1.srcIndex = s.srcIndex := congrArg Key.srcIndex hkey
  have hlt := h x hx
  rw [State.position, State.position, hdest, hsrc] at hlt
  exact absurd hlt (Int.lt_irrefl _)

theorem Run.accounts (hmemo : o.memoize = true) (h : Run S o task l log r) {path : Path δ σ ρ}
    (hpath : task.BeginsOn path) :
    ∀ u l', r = .ok (u, l') →
      Accounts l (log.exploredKeys S.digest) u l' task.nextDepth (log.pathFrom path).length := by
  induction h generalizing path with
  | abandoned _ => rintro u l' ⟨⟩; exact .abandon _ _ _ _
  | known _ _ _ => rintro u l' ⟨⟩; exact .hit _ _ _ _
  | @explored s v d l log r _ hknown hrun ih =>
    intro u l' hr
    obtain ⟨m, hm, hsettle⟩ := exists_of_settle hr
    have hbelow := ih (Task.beginsOn_enter s v hpath) u m hm
    have hkeys : s.key (S.digest v) ∉ log.exploredKeys S.digest :=
      key_not_mem_exploredKeys (hrun.position_lt (Int.le_refl s.position))
    have hkey : s.key (S.digest v) ∉ l.deadEnds := by
      intro hmem
      rw [hmemo, Bool.true_and] at hknown
      exact absurd (Std.HashSet.mem_iff_contains.1 hmem) (Bool.eq_false_iff.1 hknown)
    rw [Log.exploredKeys, Log.explored_entered d s v hrun.opens]
    exact hbelow.explore hkey hkeys hmemo hsettle
  | @finished s v d l _ =>
    rintro u l' ⟨⟩
    obtain ⟨hd, hlast⟩ := hpath
    have hlength : path.length = d + 1 := by rw [hlast, length_enter hd]
    have hstays : Log.pathFrom path [(d, .accepted)] = path := rfl
    rw [hstays, hlength]
    exact .accept l v (d + 1)
  | blocked => rintro u l' ⟨⟩; exact .nothing _ _ _
  | unanswered => nofun
  | refused => rintro u l' ⟨⟩; exact .nothing _ _ _
  | @proceeded s v d l ph log r _ _ _ ih =>
    intro u l' hr
    obtain ⟨hd, hlast⟩ := hpath
    have hlength : d + 1 ≤ path.length := by rw [hlast, length_enter hd]
    rw [Log.exploredKeys, Log.explored_proceeding, Log.pathFrom_cons, Log.pathFrom_append,
      Log.pathFrom_exhaustion]
    exact ih hlength u l' hr
  | noneLeft => rintro u l' ⟨⟩; exact .nothing _ _ _
  | halted => rintro u l' ⟨⟩; exact .nothing _ _ _
  | unfolded => nofun
  | failed => nofun
  | found _ _ _ ih => exact ih hpath
  | @passed here v w d l m e es log log' r _ _ hrun hrest ih ih' =>
    intro u l' hr
    have hfirst := ih hpath none m rfl
    cases hlimit : m.limitReached with
    | true =>
      -- the later edges are not tried
      obtain ⟨rfl, rfl⟩ := hrest.attempt_of_limitReached hlimit
      cases hr
      rw [List.append_nil]
      exact hfirst
    | false =>
      have hkept := hrun.take_pathFrom hpath
      have hsecond := ih' (le_length_of_take_eq hkept hpath) u l' hr
      rw [Log.exploredKeys, Log.explored_append hrest.opens, List.map_append, Log.pathFrom_append]
      exact hfirst.append hsecond hlimit

theorem size_deadEnds_blank : Ledger.blank.deadEnds.size = 0 := Std.HashSet.size_empty

theorem Accounts.steps_of_failed {keys : List Key} {length : Nat}
    (h : Accounts .blank keys (none : Option ρ) l 0 length) (hl : l.limitReached = false) :
    l.steps = l.memoHits + l.deadEnds.size := by
  have hbalance := h.failed rfl hl
  rw [size_deadEnds_blank] at hbalance
  simp only [Ledger.blank] at hbalance
  omega

theorem Accounts.steps_of_found {keys : List Key} {length : Nat} {w : ρ}
    (h : Accounts .blank keys (some w) l 0 length) :
    l.steps = l.memoHits + l.deadEnds.size + length := by
  have hbalance := h.found w rfl
  rw [size_deadEnds_blank] at hbalance
  simp only [Ledger.blank] at hbalance
  omega

section Events

variable {dest : List (Tracker δ)} {src : List (Tracker σ)} {v : ρ}

theorem explored_events (h : Run S o (.visit (.start dest src) v 0) .blank log r) :
    (events S o dest src v).explored = log.explored := by
  have hopens : Log.Opens (closing dest src r : Log δ σ ρ) := by
    unfold closing
    split
    · rintro _ ⟨⟩
      nofun
    · nofun
  have hclosing : Log.explored (closing dest src r : Log δ σ ρ) = [] := by
    unfold closing
    split <;> rfl
  have hskip : Log.explored ((0, .opened dest src) :: log) = log.explored := rfl
  rw [events_of_run h, Log.explored_append hopens, hclosing, List.append_nil, hskip]

theorem path_events (h : Run S o (.visit (.start dest src) v 0) .blank log r) :
    (events S o dest src v).path = log.pathFrom [] := by
  rw [events_of_run h, Log.path, Log.pathFrom_append]
  unfold closing
  split <;> rfl

end Events

/-- A search that remembers dead ends explores no key twice. Where no limit is reached, its steps
are the dead ends that it knew, those that it remembers, and the states of the walk that it has
found. -/
theorem explored_once (S : Strategy Id δ σ ρ) (o : Options) (t : Tracer Id δ σ ρ)
    (dest : List (Tracker δ)) (src : List (Tracker σ)) (v : ρ) :
    let log := events S.certain o dest src v
    let out : Outcome ρ := search S o t dest src v
    (o.memoize = true →
      (log.exploredKeys S.digest).Nodup ∧
      (out.stats.limitReached = false →
        (out.found = none → out.stats.steps = out.stats.memoHits + out.stats.memoSize) ∧
        ∀ w, out.found = some w →
          AcceptingWalk S.certain (.start dest src) v log.path w ∧
          out.stats.steps = out.stats.memoHits + out.stats.memoSize + log.path.length)) ∧
    (o.memoize = false → out.stats.memoHits = 0 ∧ out.stats.memoSize = 0) := by
  obtain ⟨run, u, l, hrun, hout⟩ := exists_run_certain S o t dest src v
  intro log out
  have hout : out = ⟨u, l.stats⟩ := hout
  have hbegins : (Task.visit (State.start dest src) v 0).BeginsOn ([] : Path δ σ ρ) := Nat.le_refl 0
  rw [Log.exploredKeys, explored_events hrun, path_events hrun, hout]
  refine ⟨?_, ?_⟩
  · intro hmemo
    have haccounts := hrun.accounts hmemo hbegins u l rfl
    refine ⟨haccounts.nodup, ?_⟩
    intro hlimit
    refine ⟨?_, ?_⟩
    · rintro rfl
      exact haccounts.steps_of_failed hlimit
    · rintro w rfl
      obtain ⟨walk, hwalk, hend⟩ := hrun.walked hbegins w l rfl
      rw [List.take_nil, List.nil_append] at hend
      rw [hend] at haccounts ⊢
      exact ⟨hwalk, haccounts.steps_of_found⟩
  · intro hmemo
    obtain ⟨hhits, hends⟩ := hrun.forgets hmemo
    have hnone : l.deadEnds.size = 0 := by rw [hends, size_deadEnds_blank]
    exact ⟨hhits, hnone⟩

end SeqAlign
