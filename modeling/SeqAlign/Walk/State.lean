import SeqAlign.Pairing
import SeqAlign.Walk.Place

/-!
# SeqAlign.Walk.State

The graph that a walk over two sequences moves in.

* `State`: before both sequences, or at a place in each.
* `Edge`: a move of dest together with a move of src.
* `Outlook`: what can follow a state. Past both ends the walk is finished. Past one end the item
  left over on the other side must be skippable.
* `State.edges`: the edges that leave a state. Every move of dest goes with every move of src,
  except that one of the two sides has to move on. Past one end there is a single edge, to the
  next item of the other side.
* `State.forks`: the same edges, with the moves of src listed once for each move of dest.
* `State.pairing?`: what the walk stands on. It has to be admitted before the walk goes on, and it
  is the first thing folded on each edge; after it come the dest items that the edge jumps over,
  then the src items (`Edge.folded`).
* `rank_target_lt`: every edge leads to a state of lower `State.rank`, so every walk ends.
-/

namespace SeqAlign

inductive State (δ σ : Type) where
  | start (dest : List (Tracker δ)) (src : List (Tracker σ))
  | on (dest : Place δ) (src : Place σ)
deriving DecidableEq

structure Edge (δ σ : Type) where
  dest : Move δ
  src : Move σ
deriving DecidableEq

/-- A move of dest, with the moves of src that may go with it. -/
structure Fork (δ σ : Type) where
  dest : Move δ
  src : List (Move σ)
deriving DecidableEq

inductive Side where
  | dest
  | src
deriving DecidableEq

/-- Whether the walk stands before or inside both sequences or past the end of one. -/
inductive Phase where
  | inside
  | past (ended : Side)
deriving DecidableEq

inductive Outlook where
  /-- Both sequences have ended. -/
  | finished
  /-- One sequence has ended and the other one still requires an item. -/
  | blocked (ended : Side)
  | onward (phase : Phase)
deriving DecidableEq

variable {δ σ : Type}

namespace Edge

def target (e : Edge δ σ) : State δ σ := .on e.dest.place e.src.place

/-- What is folded on the way from a state that stands on this. -/
def folded (here : Option (Pairing δ σ)) (e : Edge δ σ) : List (Pairing δ σ) :=
  here.toList ++ e.dest.skipped.map .destOnly ++ e.src.skipped.map .srcOnly

end Edge

namespace Fork

def edges (fork : Fork δ σ) : List (Edge δ σ) := fork.src.map fun y => ⟨fork.dest, y⟩

/-- Each of these moves of dest with all of these moves of src. -/
def each (xs : List (Move δ)) (ys : List (Move σ)) : List (Fork δ σ) := xs.map fun x => ⟨x, ys⟩

end Fork

namespace State

/-- Positions of the two places; both are one below the first position at the start. -/
def destIndex : State δ σ → Int
  | .start _ _ => -1
  | .on p _ => p.index

def srcIndex : State δ σ → Int
  | .start _ _ => -1
  | .on _ q => q.index

/-- The trackers that the walk stands on. -/
def destTracker? : State δ σ → Option (Tracker δ)
  | .start _ _ => none
  | .on p _ => p.tracker?

def srcTracker? : State δ σ → Option (Tracker σ)
  | .start _ _ => none
  | .on _ q => q.tracker?

/-- The trackers that the walk stands on; none at the start and past both ends. -/
def pairing? : State δ σ → Option (Pairing δ σ)
  | .start _ _ => none
  | .on ⟨_, []⟩ ⟨_, []⟩ => none
  | .on ⟨_, []⟩ ⟨_, b :: _⟩ => some (.srcOnly b)
  | .on ⟨_, a :: _⟩ ⟨_, []⟩ => some (.destOnly a)
  | .on ⟨_, a :: _⟩ ⟨_, b :: _⟩ => some (.both a b)

def outlook : State δ σ → Outlook
  | .start _ _ => .onward .inside
  | .on ⟨_, []⟩ ⟨_, []⟩ => .finished
  | .on ⟨_, []⟩ ⟨_, b :: _⟩ => if b.isSkippable then .onward (.past .dest) else .blocked .dest
  | .on ⟨_, a :: _⟩ ⟨_, []⟩ => if a.isSkippable then .onward (.past .src) else .blocked .src
  | .on ⟨_, _ :: _⟩ ⟨_, _ :: _⟩ => .onward .inside

def forks : State δ σ → List (Fork δ σ)
  | .start ds ss => Fork.each (Place.arrivals 0 ds) (Place.arrivals 0 ss)
  | .on ⟨_, []⟩ ⟨_, []⟩ => []
  | .on p@⟨_, []⟩ ⟨j, b :: bs⟩ =>
    if b.isSkippable then [⟨⟨[], p⟩, [⟨[], ⟨j + 1, bs⟩⟩]⟩] else []
  | .on ⟨i, a :: as⟩ q@⟨_, []⟩ =>
    if a.isSkippable then [⟨⟨[], ⟨i + 1, as⟩⟩, [⟨[], q⟩]⟩] else []
  | .on p@⟨_, _ :: _⟩ q@⟨_, _ :: _⟩ =>
    Fork.each p.stays q.departures ++ Fork.each p.departures q.moves

/-- The edges that leave a state, in the order in which they are tried: the moves of src vary
fastest. -/
def edges (s : State δ σ) : List (Edge δ σ) := s.forks.flatMap Fork.edges

/-- Bounds the number of steps that can follow. -/
def rank : State δ σ → Nat
  | .start ds ss => ds.length + ss.length + 1
  | .on p q => p.rest.length + q.rest.length

/-! ## Every edge goes forward -/

theorem mem_edges {s : State δ σ} {e : Edge δ σ} :
    e ∈ s.edges ↔ ∃ ys, ⟨e.dest, ys⟩ ∈ s.forks ∧ e.src ∈ ys := by
  simp only [edges, List.mem_flatMap, Fork.edges, List.mem_map]
  constructor
  · rintro ⟨fork, hfork, y, hy, rfl⟩
    exact ⟨fork.src, hfork, hy⟩
  · rintro ⟨ys, hfork, hy⟩
    exact ⟨⟨e.dest, ys⟩, hfork, e.src, hy, rfl⟩

theorem mem_each {xs : List (Move δ)} {ys zs : List (Move σ)} {x : Move δ} :
    ⟨x, zs⟩ ∈ Fork.each xs ys ↔ x ∈ xs ∧ zs = ys := by
  simp only [Fork.each, List.mem_map, Fork.mk.injEq]
  constructor
  · rintro ⟨x, hx, rfl, rfl⟩
    exact ⟨hx, rfl⟩
  · rintro ⟨hx, rfl⟩
    exact ⟨x, hx, rfl, rfl⟩

theorem rank_target_lt {s : State δ σ} {e : Edge δ σ} (h : e ∈ s.edges) :
    e.target.rank < s.rank := by
  obtain ⟨x, y⟩ := e
  obtain ⟨ys, hfork, hy⟩ := mem_edges.1 h
  simp only [Edge.target, rank]
  unfold forks at hfork
  split at hfork
  · obtain ⟨hx, rfl⟩ := mem_each.1 hfork
    have h1 := Place.length_le_of_mem_arrivals hx
    have h2 := Place.length_le_of_mem_arrivals hy
    dsimp only at h1 h2 ⊢
    omega
  · cases hfork
  · split at hfork
    · cases List.mem_singleton.1 hfork
      obtain rfl := List.mem_singleton.1 hy
      simp
    · cases hfork
  · split at hfork
    · cases List.mem_singleton.1 hfork
      obtain rfl := List.mem_singleton.1 hy
      simp
    · cases hfork
  · rcases List.mem_append.1 hfork with hfork | hfork
    · obtain ⟨hx, rfl⟩ := mem_each.1 hfork
      have h1 := Place.length_of_mem_stays hx
      have h2 := Place.length_lt_of_mem_departures hy
      dsimp only at h1 h2 ⊢
      omega
    · obtain ⟨hx, rfl⟩ := mem_each.1 hfork
      have h1 := Place.length_lt_of_mem_departures hx
      have h2 := Place.length_le_of_mem_moves hy
      dsimp only at h1 h2 ⊢
      omega

end State

end SeqAlign
