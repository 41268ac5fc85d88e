import SeqAlign.Item

/-!
# SeqAlign.Walk.Place

One side of a walk. A walk stands on a tracker of each sequence and moves on from there.

* `Place`: where the walk stands in one sequence, as the trackers that are still ahead.
* `Move`: the place a walk moves to, with the trackers it jumps over on the way.
* `Place.arrivals`: all ways to enter the rest of a sequence. The first is at its first tracker,
  or past the end if nothing is left; the others jump over a run of skippable items, the shortest
  run first, and never over the last item.
* `Place.moves`: all ways on from a place. Staying comes first, which makes repeating items
  greedy.

A move that stays keeps the number of trackers ahead (`length_of_mem_stays`), and a move that
leaves lowers it (`length_lt_of_mem_departures`).
-/

namespace SeqAlign

structure Place (α : Type) where
  index : Nat
  /-- The tracker the walk stands on, then the ones after it; empty past the end. -/
  rest : List (Tracker α)
deriving DecidableEq

structure Move (α : Type) where
  /-- The trackers jumped over, the last one first, so that longer jumps share what they have in
  common with shorter ones. -/
  jumped : List (Tracker α)
  place : Place α
deriving DecidableEq

variable {α : Type}

/-- The trackers jumped over, in their order. -/
def Move.skipped (mv : Move α) : List (Tracker α) := mv.jumped.reverse

namespace Place

/-- The tracker the walk stands on. -/
def tracker? (p : Place α) : Option (Tracker α) := p.rest.head?

/-- The jumps over the skippable items in front, each stopping at or before the last item. These
trackers have been jumped over already. -/
def leaps : List (Tracker α) → Nat → List (Tracker α) → List (Move α)
  | jumped, i, t :: u :: ts =>
    if t.isSkippable then
      ⟨t :: jumped, ⟨i + 1, u :: ts⟩⟩ :: leaps (t :: jumped) (i + 1) (u :: ts)
    else []
  | _, _, _ => []

/-- The ways to enter a rest of the sequence that begins at this index. -/
def arrivals (i : Nat) (rest : List (Tracker α)) : List (Move α) :=
  ⟨[], ⟨i, rest⟩⟩ :: leaps [] i rest

/-- Staying counts the match; it is open to a tracker that could match once more after that. -/
def stays (p : Place α) : List (Move α) :=
  match p.rest with
  | [] => []
  | t :: ts => if t.matched.hasMore then [⟨[], ⟨p.index, t.matched :: ts⟩⟩] else []

/-- Leaving a tracker: advance, then jump. -/
def departures (p : Place α) : List (Move α) :=
  match p.rest with
  | [] => []
  | _ :: ts => arrivals (p.index + 1) ts

def moves (p : Place α) : List (Move α) := p.stays ++ p.departures

/-! ## Progress -/

theorem length_lt_of_mem_leaps {jumped : List (Tracker α)} {i : Nat} {rest : List (Tracker α)}
    {mv : Move α} (h : mv ∈ leaps jumped i rest) : mv.place.rest.length < rest.length := by
  fun_induction leaps jumped i rest with
  | case1 jumped i t u ts _ ih =>
    rcases List.mem_cons.1 h with rfl | h
    · simp
    · have := ih h
      simp only [List.length_cons] at this ⊢
      omega
  | case2 => simp at h
  | case3 => simp at h

theorem length_le_of_mem_arrivals {i : Nat} {rest : List (Tracker α)} {mv : Move α}
    (h : mv ∈ arrivals i rest) : mv.place.rest.length ≤ rest.length := by
  rcases List.mem_cons.1 h with rfl | h
  · exact Nat.le_refl _
  · exact Nat.le_of_lt (length_lt_of_mem_leaps h)

theorem length_of_mem_stays {p : Place α} {mv : Move α} (h : mv ∈ p.stays) :
    mv.place.rest.length = p.rest.length := by
  unfold stays at h
  split at h
  · cases h
  · rename_i t ts hrest
    split at h
    · obtain rfl := List.mem_singleton.1 h
      simp [hrest]
    · cases h

theorem length_lt_of_mem_departures {p : Place α} {mv : Move α} (h : mv ∈ p.departures) :
    mv.place.rest.length < p.rest.length := by
  unfold departures at h
  split at h
  · cases h
  · rename_i t ts hrest
    have := length_le_of_mem_arrivals h
    rw [hrest, List.length_cons]
    omega

theorem length_le_of_mem_moves {p : Place α} {mv : Move α} (h : mv ∈ p.moves) :
    mv.place.rest.length ≤ p.rest.length := by
  rcases List.mem_append.1 h with h | h
  · exact Nat.le_of_eq (length_of_mem_stays h)
  · exact Nat.le_of_lt (length_lt_of_mem_departures h)

end Place

end SeqAlign
