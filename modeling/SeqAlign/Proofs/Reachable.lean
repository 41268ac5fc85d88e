import SeqAlign.Proofs.Maxima
import SeqAlign.Proofs.Paths

/-!
# SeqAlign.Proofs.Reachable

The states that a search gets to, and how deep it gets.

* `State.position`: how far a state is in both sequences together. Every edge goes further
  (`position_lt_target`).
* `State.Counted`: no count is above the index on the other side, and one of the two is zero. Every
  edge keeps it, because a side that stays lets the other one move on.
* `Reachable`: all that is known of a state that a search visits at some depth. It holds of the
  start, and every edge keeps it.
* `Visitable`: what it says about a visit, in terms of indices, trackers and counts.
* `Indistinct`: in whatever monad a strategy answers, nobody who listens to a search or looks at its
  outcome gets to know of other visits or of a greater depth (`search_indistinct`).
* `visits_between`: this, and that every visit is called from a state behind the visited one.
-/

namespace SeqAlign

variable {α ε δ σ ρ : Type}

/-- How far a state is in both sequences together. -/
def State.position (s : State δ σ) : Int := s.destIndex + s.srcIndex

theorem Place.le_index_of_mem_moves {p : Place α} {mv : Move α} (h : mv ∈ p.moves) :
    p.index ≤ mv.place.index := by
  rcases List.mem_append.1 h with h | h
  · exact Nat.le_of_eq (index_of_mem_stays h).symm
  · exact Nat.le_of_lt (lt_index_of_mem_departures h)

theorem position_lt_target {s : State δ σ} {e : Edge δ σ} (he : e ∈ s.edges) :
    s.position < e.target.position := by
  cases s with
  | start ds ss =>
    simp only [State.position, Edge.target, State.destIndex, State.srcIndex]
    omega
  | on p q =>
    simp only [State.position, Edge.target, State.destIndex, State.srcIndex]
    cases State.passage_of_mem_edges he with
    | pastDest _ => simp only; omega
    | pastSrc _ => simp only; omega
    | inside hx hy hxy =>
      have hdest := Place.le_index_of_mem_moves hx
      have hsrc := Place.le_index_of_mem_moves hy
      simp only at hdest hsrc ⊢
      omega

theorem Place.Of.index_le {ts : List (Tracker α)} {p : Place α} (h : p.Of ts) :
    p.index ≤ ts.length := by
  cases h with
  | past => exact Nat.le_refl _
  | on c ht => exact Nat.le_of_lt (List.getElem?_eq_some_iff.1 ht).1

/-- A side that stays has counted one match; a side that moves on counts from zero. -/
theorem Place.Of.count_of_move {items : List (Item α)} {i : Nat} {a : Tracker α}
    {as : List (Tracker α)} {mv : Move α} (h : Place.Of (freshTrackers items) ⟨i, a :: as⟩)
    (hmv : mv ∈ Place.moves ⟨i, a :: as⟩) :
    (mv.place.index = i ∧ ∀ t ∈ mv.place.tracker?, t.count.toNat ≤ a.count.toNat + 1) ∨
      (i < mv.place.index ∧ ∀ t ∈ mv.place.tracker?, t.count = 0) := by
  rcases List.mem_append.1 hmv with hmv | hmv
  · refine .inl ⟨Place.index_of_mem_stays hmv, ?_⟩
    obtain ⟨_, rfl⟩ := Place.mem_stays.1 hmv
    rintro _ ⟨⟩
    -- a count that wraps is smaller still
    simp only [Tracker.matched, UInt32.toNat_add, UInt32.toNat_one]
    exact Nat.mod_le _ _
  · refine .inr ⟨Place.lt_index_of_mem_departures hmv, ?_⟩
    obtain ⟨_, _, _, rfl⟩ := h.cons
    intro t ht
    obtain ⟨item, _, rfl⟩ := fresh_of_arrival hmv ht
    rfl

theorem Place.Of.count_of_leave {items : List (Item α)} {i : Nat} {a : Tracker α}
    {as : List (Tracker α)} (h : Place.Of (freshTrackers items) ⟨i, a :: as⟩) :
    ∀ t ∈ (Place.mk (i + 1) as).tracker?, t.count = 0 := by
  obtain ⟨_, _, _, rfl⟩ := h.cons
  have hmv : (⟨[], ⟨i + 1, _⟩⟩ : Move α) ∈
      Place.arrivals (i + 1) ((freshTrackers items).drop (i + 1)) := List.mem_cons_self
  intro t ht
  obtain ⟨item, _, rfl⟩ := fresh_of_arrival hmv ht
  rfl

def Place.Uncounted (p : Place α) : Prop := ∀ t ∈ p.tracker?, t.count = 0

/-- Every count stands for a move of the other side, and at most one side counts. -/
structure CountsAt (p : Place δ) (q : Place σ) : Prop where
  dest : ∀ a ∈ p.tracker?, a.count.toNat ≤ q.index
  src : ∀ b ∈ q.tracker?, b.count.toNat ≤ p.index
  one : p.Uncounted ∨ q.Uncounted

def State.Counted : State δ σ → Prop
  | .start _ _ => True
  | .on p q => CountsAt p q

theorem toNat_le_of_uncounted {p : Place α} (h : p.Uncounted) (n : Nat) :
    ∀ t ∈ p.tracker?, t.count.toNat ≤ n := by
  intro t ht
  rw [h t ht]
  exact Nat.zero_le n

section Edges

variable {dest : List (Item δ)} {src : List (Item σ)} {s : State δ σ} {e : Edge δ σ}

theorem CountsAt.inside {i j : Nat} {a : Tracker δ} {as : List (Tracker δ)} {b : Tracker σ}
    {bs : List (Tracker σ)} {x : Move δ} {y : Move σ} (h : CountsAt ⟨i, a :: as⟩ ⟨j, b :: bs⟩)
    (hp : Place.Of (freshTrackers dest) ⟨i, a :: as⟩)
    (hq : Place.Of (freshTrackers src) ⟨j, b :: bs⟩) (hx : x ∈ Place.moves ⟨i, a :: as⟩)
    (hy : y ∈ Place.moves ⟨j, b :: bs⟩) (hxy : i < x.place.index ∨ j < y.place.index) :
    CountsAt x.place y.place := by
  have hdest : a.count.toNat ≤ j := h.dest a rfl
  have hsrc : b.count.toNat ≤ i := h.src b rfl
  rcases hp.count_of_move hx with ⟨hi, hstay⟩ | ⟨hi, hfresh⟩
  · rcases hq.count_of_move hy with ⟨hj, _⟩ | ⟨hj, hfresh⟩
    · omega
    · refine ⟨?_, toNat_le_of_uncounted hfresh _, .inr hfresh⟩
      intro t ht
      have := hstay t ht
      omega
  · refine ⟨toNat_le_of_uncounted hfresh _, ?_, .inl hfresh⟩
    intro t ht
    rcases hq.count_of_move hy with ⟨_, hstay⟩ | ⟨_, hfresh'⟩
    · have := hstay t ht
      omega
    · exact toNat_le_of_uncounted hfresh' _ t ht

theorem State.Counted.target (h : s.Counted) (hs : s.Fits (freshTrackers dest) (freshTrackers src))
    (he : e ∈ s.edges) : e.target.Counted := by
  cases hs with
  | start =>
    obtain ⟨hx, hy⟩ := State.mem_edges_start.1 he
    have hdest : e.dest.place.Uncounted := by
      intro t ht
      obtain ⟨item, _, rfl⟩ := fresh_of_arrival (k := 0) hx ht
      rfl
    have hsrc : e.src.place.Uncounted := by
      intro t ht
      obtain ⟨item, _, rfl⟩ := fresh_of_arrival (k := 0) hy ht
      rfl
    exact ⟨toNat_le_of_uncounted hdest _, toNat_le_of_uncounted hsrc _, .inl hdest⟩
  | on hp hq =>
    cases State.passage_of_mem_edges he with
    | pastDest _ => exact ⟨nofun, toNat_le_of_uncounted hq.count_of_leave _, .inl nofun⟩
    | pastSrc _ => exact ⟨toNat_le_of_uncounted hp.count_of_leave _, nofun, .inr nofun⟩
    | inside hx hy hxy => exact CountsAt.inside h hp hq hx hy hxy

/-! ## Reachable states -/

/-- A state that a search may visit at this depth. -/
structure Reachable (dest : List (Item δ)) (src : List (Item σ)) (d : Nat) (s : State δ σ) :
    Prop where
  fits : s.Fits (freshTrackers dest) (freshTrackers src)
  ready : s.Ready
  counted : s.Counted
  depth_le : d = 0 ∨ (d : Int) ≤ s.position + 1

theorem Reachable.start :
    Reachable dest src 0 (.start (freshTrackers dest) (freshTrackers src)) :=
  ⟨.start, trivial, trivial, .inl rfl⟩

theorem Reachable.target {d : Nat} (h : Reachable dest src d s) (he : e ∈ s.edges) :
    Reachable dest src (d + 1) e.target := by
  refine ⟨State.fits_target h.fits he, h.ready.target h.fits he, h.counted.target h.fits he, ?_⟩
  have hposition : 0 ≤ e.target.position :=
    Int.add_nonneg (Int.natCast_nonneg _) (Int.natCast_nonneg _)
  have hlt := position_lt_target he
  have := h.depth_le
  omega

theorem Reachable.depth_le_length {d : Nat} (h : Reachable dest src d s) :
    d ≤ dest.length + src.length + 1 := by
  rcases h.depth_le with rfl | hd
  · exact Nat.zero_le _
  · cases h.fits with
    | start =>
      simp only [State.position, State.destIndex, State.srcIndex] at hd
      omega
    | on hp hq =>
      have hdest := hp.index_le
      have hsrc := hq.index_le
      simp only [length_freshTrackers] at hdest hsrc
      simp only [State.position, State.destIndex, State.srcIndex] at hd
      omega

/-- One side of a state, at index `i` of its sequence and index `j` of the other one. -/
structure Standing (items : List (Item α)) (i j : Int) (t? : Option (Tracker α)) : Prop where
  nonneg : 0 ≤ i
  le_length : i ≤ items.length
  present : t?.isSome = true ↔ i < items.length
  item : ∀ t ∈ t?, (t.entry.position : Int) = i ∧ items[t.entry.position]? = some t.item
  count_le : ∀ t ∈ t?, (t.count.toNat : Int) ≤ j
  below : ∀ t ∈ t?, ∀ m, t.item.quantifier.max = some m → 1 ≤ m → t.count < m

/-- A state inside the two sequences or at their ends. -/
structure State.Between (dest : List (Item δ)) (src : List (Item σ)) (s : State δ σ) : Prop where
  dest : Standing dest s.destIndex s.srcIndex s.destTracker?
  src : Standing src s.srcIndex s.destIndex s.srcTracker?
  one : (∀ a ∈ s.destTracker?, a.count = 0) ∨ ∀ b ∈ s.srcTracker?, b.count = 0

theorem Place.Of.standing {items : List (Item α)} {p : Place α} {j : Nat}
    (h : p.Of (freshTrackers items)) (hready : p.Ready)
    (hcount : ∀ t ∈ p.tracker?, t.count.toNat ≤ j) :
    Standing items p.index j p.tracker? := by
  have hle := h.index_le
  rw [length_freshTrackers] at hle
  obtain ⟨i, rest⟩ := p
  cases rest with
  | nil =>
    have hi := h.nil
    rw [length_freshTrackers] at hi
    refine ⟨Int.natCast_nonneg _, Int.ofNat_le.2 hle, ?_, nofun, nofun, nofun⟩
    simp [Place.tracker?, hi]
  | cons t ts =>
    have hlt := h.lt
    rw [length_freshTrackers] at hlt
    obtain ⟨item, hitem, hentry, _⟩ := h.item
    refine ⟨Int.natCast_nonneg _, Int.ofNat_le.2 hle, ?_, ?_, ?_, ?_⟩
    · simp [Place.tracker?, hlt]
    · rintro _ ⟨⟩
      simp [Tracker.item, hentry, hitem]
    · rintro _ ⟨⟩
      exact Int.ofNat_le.2 (hcount t rfl)
    · rintro _ ⟨⟩ m hm hone
      have hne : t.item.quantifier.max ≠ some 0 := by
        rw [hm]
        rintro ⟨⟩
        exact absurd hone (by decide)
      simpa [Tracker.hasMore, hm] using (hready t rfl).hasMore hne

theorem Reachable.between {d : Nat} (h : Reachable dest src d s) :
    s = .start (freshTrackers dest) (freshTrackers src) ∨ s.Between dest src := by
  obtain ⟨hfits, hready, hcounted, _⟩ := h
  cases hfits with
  | start => exact .inl rfl
  | on hp hq =>
    obtain ⟨hdest, hsrc, hone⟩ := hcounted
    exact .inr ⟨hp.standing hready.1 hdest, hq.standing hready.2 hsrc, hone⟩

end Edges

section Effects

variable {m : Type → Type} [Monad m] {n : Nat} {x y : m (Option ρ × Ledger)}

/-- Whoever goes on from books of at most this depth cannot tell the one from the other. -/
structure Indistinct (n : Nat) (x y : m (Option ρ × Ledger)) : Prop where
  bind_eq : ∀ {β : Type} (f g : Option ρ × Ledger → m β),
    (∀ r, r.2.maxDepth ≤ n → f r = g r) → x >>= f = y >>= g

variable [LawfulMonad m]

theorem indistinct_pure {r : Option ρ × Ledger} (hr : r.2.maxDepth ≤ n) :
    Indistinct n (pure r : m (Option ρ × Ledger)) (pure r) := by
  constructor
  intro β f g h
  rw [pure_bind, pure_bind, h r hr]

theorem indistinct_after {β : Type} (c : m β) {f g : β → m (Option ρ × Ledger)}
    (h : ∀ b, Indistinct n (f b) (g b)) : Indistinct n (c >>= f) (c >>= g) := by
  constructor
  intro γ f' g' hfg
  rw [bind_assoc, bind_assoc]
  exact congrArg (c >>= ·) (funext fun b => (h b).bind_eq f' g' hfg)

theorem Indistinct.bind (h : Indistinct n x y) {f g : Option ρ × Ledger → m (Option ρ × Ledger)}
    (hfg : ∀ r, r.2.maxDepth ≤ n → Indistinct n (f r) (g r)) :
    Indistinct n (x >>= f) (y >>= g) := by
  constructor
  intro β f' g' hfg'
  rw [bind_assoc, bind_assoc]
  exact h.bind_eq _ _ fun r hr => (hfg r hr).bind_eq f' g' hfg'

theorem indistinct_firstOf {β : Type} {f g : β → Ledger → m (Option ρ × Ledger)} {es : List β}
    (h : ∀ e ∈ es, ∀ l, l.maxDepth ≤ n → Indistinct n (f e l) (g e l)) {l : Ledger}
    (hl : l.maxDepth ≤ n) : Indistinct n (firstOf f es l) (firstOf g es l) := by
  induction es generalizing l with
  | nil => exact indistinct_pure hl
  | cons e es ih =>
    rw [firstOf, firstOf]
    split
    · exact indistinct_pure hl
    · refine (h e List.mem_cons_self l hl).bind fun r hr => ?_
      split
      · exact indistinct_pure hr
      · exact ih (fun e' he' => h e' (List.mem_cons_of_mem e he')) hr

variable {S : Strategy m δ σ ρ} {o : Options} {t t' : Tracer m δ σ ρ} {d : Nat} {s : State δ σ}
  {v : ρ} {l : Ledger}

theorem indistinct_expand {f g : Edge δ σ → ρ → Ledger → m (Option ρ × Ledger)}
    (ht : ∀ e : Event δ σ ρ, e.visited? = none → t d e = t' d e)
    (hfollow : ∀ e ∈ s.edges, ∀ v l, l.maxDepth ≤ n → Indistinct n (f e v l) (g e v l))
    (hl : l.maxDepth ≤ n) :
    Indistinct n (expand S t d v l s fun e _ => f e) (expand S t' d v l s fun e _ => g e) := by
  cases ho : s.outlook with
  | finished =>
    simp only [expand, ho]
    rw [ht _ rfl]
    exact indistinct_after _ fun _ => indistinct_pure hl
  | blocked ended =>
    simp only [expand, ho]
    rw [ht _ rfl]
    exact indistinct_after _ fun _ => indistinct_pure hl
  | onward ph =>
    rw [expand_onward S t d v l s ho, expand_onward S t' d v l s ho]
    refine indistinct_after _ fun b => ?_
    split
    · rw [ht _ rfl]
      refine indistinct_after _ fun _ => Indistinct.bind (indistinct_firstOf ?_ hl) fun r hr => ?_
      · intro e he l hl
        exact indistinct_after _ fun w => hfollow e he w l hl
      · split
        · rw [ht _ rfl]
          exact indistinct_after _ fun _ => indistinct_pure hr
        · exact indistinct_pure hr
    · rw [ht _ rfl]
      exact indistinct_after _ fun _ => indistinct_pure hl

theorem indistinct_visit {J : Nat → State δ σ → Prop} (hdepth : ∀ d s, J d s → d ≤ n)
    (hedge : ∀ d s e, J d s → e ∈ s.edges → J (d + 1) e.target)
    (ht : ∀ d (e : Event δ σ ρ), (∀ s ∈ e.visited?, J d s) → t d e = t' d e) (hs : J d s)
    (hl : l.maxDepth ≤ n) : Indistinct n (visit S o t s v d l) (visit S o t' s v d l) := by
  -- by induction on the rank of the state
  induction hn : s.rank using Nat.strongRecOn generalizing s v d l with
  | ind k ih =>
    have henter : (l.enter d).maxDepth ≤ n := Nat.max_le.2 ⟨hl, hdepth d s hs⟩
    have hquiet (e : Event δ σ ρ) (he : e.visited? = none) : t d e = t' d e :=
      ht d e (by rw [he]; nofun)
    rw [visit_eq, visit_eq]
    split
    · rw [ht d (.abandoned s) (by rintro _ ⟨⟩; exact hs)]
      exact indistinct_after _ fun _ => indistinct_pure henter
    · rw [ht d (.entered s v) (by rintro _ ⟨⟩; exact hs)]
      refine indistinct_after _ fun _ => ?_
      split
      · rw [hquiet _ rfl]
        exact indistinct_after _ fun _ => indistinct_pure henter
      · refine Indistinct.bind (indistinct_expand hquiet ?_ henter) fun r hr => ?_
        · intro e he w l hl
          exact ih e.target.rank (hn ▸ State.rank_target_lt he) (hedge d s e hs he) hl rfl
        · exact indistinct_pure (by rwa [maxDepth_settle])

end Effects

structure State.AtStart (s : State δ σ) : Prop where
  destIndex : s.destIndex = -1
  srcIndex : s.srcIndex = -1
  destTracker : s.destTracker? = none
  srcTracker : s.srcTracker? = none

/-- A state that a search of these sequences visits at this depth, whatever the strategy is. -/
structure Visitable (dest : List (Item δ)) (src : List (Item σ)) (d : Nat) (s : State δ σ) :
    Prop where
  place : s.AtStart ∨ s.Between dest src
  depth_le : d ≤ dest.length + src.length + 1

/-- After these events a search begins, or it calls the visit from a state it stands on that is
behind the state to be visited. -/
def CalledFromBehind (before : Log δ σ ρ) (d : Nat) (s : State δ σ) : Prop :=
  (d = 0 ∧ s.AtStart) ∨
    ∃ k caller w, d = k + 1 ∧ before.path[k]? = some (caller, w) ∧ caller.position < s.position

section Search

variable {dest : List (Item δ)} {src : List (Item σ)}

theorem atStart_start (ds : List (Tracker δ)) (ss : List (Tracker σ)) :
    (State.start ds ss).AtStart := ⟨rfl, rfl, rfl, rfl⟩

theorem Reachable.visitable {d : Nat} {s : State δ σ} (h : Reachable dest src d s) :
    Visitable dest src d s := by
  refine ⟨?_, h.depth_le_length⟩
  rcases h.between with rfl | hbetween
  · exact .inl (atStart_start _ _)
  · exact .inr hbetween

theorem Called.fromBehind {first : State δ σ} {before : Log δ σ ρ} {d : Nat} {s : State δ σ}
    (h : Called first before.path d s) (hfirst : first.AtStart) : CalledFromBehind before d s := by
  cases h with
  | first => exact .inl ⟨rfl, hfirst⟩
  | along hs he => exact .inr ⟨_, _, _, rfl, hs, position_lt_target he⟩

theorem search_indistinct {m : Type → Type} [Monad m] [LawfulMonad m] {β : Type}
    (S : Strategy m δ σ ρ) (o : Options) {t t' : Tracer m δ σ ρ} (v : ρ) {f g : Outcome ρ → m β}
    (ht : ∀ d (e : Event δ σ ρ), (∀ s ∈ e.visited?, Visitable dest src d s) → t d e = t' d e)
    (hfg : ∀ a, a.stats.maxDepth ≤ dest.length + src.length + 1 → f a = g a) :
    search S o t (freshTrackers dest) (freshTrackers src) v >>= f =
      search S o t' (freshTrackers dest) (freshTrackers src) v >>= g := by
  have hvisit := indistinct_visit (S := S) (o := o) (v := v) (l := .blank)
    (fun d s (h : Reachable dest src d s) => h.depth_le_length) (fun d s e h he => h.target he)
    (fun d e h => ht d e fun s hs => (h s hs).visitable) .start (Nat.zero_le _)
  have hquiet (e : Event δ σ ρ) (he : e.visited? = none) : t 0 e = t' 0 e :=
    ht 0 e (by rw [he]; nofun)
  simp only [search, bind_assoc, pure_bind]
  rw [hquiet (.opened _ _) rfl]
  refine congrArg (_ >>= ·) (funext fun _ => hvisit.bind_eq _ _ fun r hr => ?_)
  rw [hquiet (.closed _ _ _) rfl, hfg ⟨r.1, r.2.stats⟩ hr]

theorem reachable_of_mem_events {S : Strategy (Except ε) δ σ ρ} {o : Options} {v : ρ}
    {x : Nat × Event δ σ ρ} (hx : x ∈ events S o (freshTrackers dest) (freshTrackers src) v)
    {s : State δ σ} (hs : s ∈ x.2.visited?) : Reachable dest src x.1 s := by
  have hcalls := events_calls S o (freshTrackers dest) (freshTrackers src) v
  obtain ⟨_, hvisits⟩ := hcalls.invariant (J := Reachable dest src) .start
    (fun d s e h he => h.target he) nofun
  exact hvisits x hx s hs

theorem maxDepth_le_length {S : Strategy (Except ε) δ σ ρ} {o : Options} {v : ρ} {a : Outcome ρ}
    (h : search S o .silent (freshTrackers dest) (freshTrackers src) v = .ok a) :
    a.stats.maxDepth ≤ dest.length + src.length + 1 := by
  obtain ⟨log, r, hrun⟩ := exists_run (S := S) (o := o)
    (.start (freshTrackers dest) (freshTrackers src)) v 0 .blank
  have hlog : ∀ x ∈ log, x.2.visited?.isSome = true → x.1 ≤ dest.length + src.length + 1 := by
    intro x hx hvisited
    obtain ⟨s, hs⟩ := Option.isSome_iff_exists.1 hvisited
    refine (reachable_of_mem_events (S := S) (o := o) (v := v) ?_ hs).depth_le_length
    rw [events_of_run hrun]
    exact List.mem_append_left _ (List.mem_cons_of_mem _ hx)
  have hbound := hrun.maxDepth_le (Nat.zero_le _) hlog
  rw [search_silent hrun] at h
  match r, h, hbound with
  | .ok (u, l), h, hbound =>
    cases h
    exact hbound u l rfl

end Search

/-- A search visits states at the start or between its sequences only, at no greater depth than both
together are long and one. Nobody who listens to it gets to know of others, whatever effects the
strategy has; and every visit is called from a state behind it, so that a search ends. -/
theorem visits_between (dest : List (Item δ)) (src : List (Item σ)) :
    (∀ {m : Type → Type} [Monad m] [LawfulMonad m] {β : Type} (S : Strategy m δ σ ρ) (o : Options)
        (t t' : Tracer m δ σ ρ) (v : ρ) (f g : Outcome ρ → m β),
      (∀ d (e : Event δ σ ρ), (∀ s ∈ e.visited?, Visitable dest src d s) → t d e = t' d e) →
      (∀ a, a.stats.maxDepth ≤ dest.length + src.length + 1 → f a = g a) →
      search S o t (freshTrackers dest) (freshTrackers src) v >>= f =
        search S o t' (freshTrackers dest) (freshTrackers src) v >>= g) ∧
    ∀ {ε : Type} (S : Strategy (Except ε) δ σ ρ) (o : Options) (v : ρ),
      (∀ before d e after,
        events S o (freshTrackers dest) (freshTrackers src) v = before ++ (d, e) :: after →
          ∀ s ∈ e.visited?, Visitable dest src d s ∧ CalledFromBehind before d s) ∧
      ∀ a, search S o .silent (freshTrackers dest) (freshTrackers src) v = .ok a →
        a.stats.maxDepth ≤ dest.length + src.length + 1 := by
  refine ⟨?_, ?_⟩
  · intro m _ _ β S o t t' v f g ht hfg
    exact search_indistinct S o v ht hfg
  · intro ε S o v
    refine ⟨?_, fun a ha => maxDepth_le_length ha⟩
    intro before d e after hlog s hs
    have hcalls := events_calls S o (freshTrackers dest) (freshTrackers src) v
    rw [hlog] at hcalls
    have hcalled := (Log.calls_append.1 hcalls).2.1 s hs
    have hmem : (d, e) ∈ events S o (freshTrackers dest) (freshTrackers src) v := by
      rw [hlog]
      exact List.mem_append_right _ List.mem_cons_self
    exact ⟨(reachable_of_mem_events hmem hs).visitable, hcalled.fromBehind (atStart_start _ _)⟩

end SeqAlign
