import Mathlib.Data.List.Basic
import SeqAlign.Proofs.Books
import SeqAlign.Proofs.Places
import SeqAlign.Proofs.Walks

/-!
# SeqAlign.Proofs.FirstWalk

The graph of all walks over two sequences, drawn by positions, and the walk in it that a search
finds.

* `Spot`: the positions of a walk in both sequences, from -1, and the trackers it stands on.
* `sideSteps`: what one side can do next. It stays on a tracker that has more matches after this
  one, or advances, or jumps over a run of skippable trackers, at most to the last one.
* `Spot.crossing`: each step of dest with each step of src, dest first, without the spot itself.
* `chart`: which spots end a walk, and where it can go from the others.
* `search_follows_first_walk`: without limits and without memory of dead ends, a search ends as the
  first walk of the chart does, and finds nothing if there is none.
-/

namespace SeqAlign

structure Spot (δ σ : Type) where
  destIndex : Int
  srcIndex : Int
  dest : Option (Tracker δ)
  src : Option (Tracker σ)

section Side

variable {α : Type}

def trackerAt (ts : List (Tracker α)) (i : Int) : Option (Tracker α) :=
  if i < 0 then none else ts[i.toNat]?

/-- The trackers after one position and before another. -/
def between (ts : List (Tracker α)) (i k : Int) : List (Tracker α) :=
  (ts.take k.toNat).drop (i + 1).toNat

/-- Advance, then each jump that is open from this position. -/
def departing (ts : List (Tracker α)) (i : Int) : List (Int × Option (Tracker α)) :=
  (i + 1, trackerAt ts (i + 1)) ::
    ((List.range' (i + 2).toNat (ts.length - (i + 2).toNat)).filter fun (k : Nat) =>
      (between ts i k).all Tracker.isSkippable).map fun (k : Nat) => ((k : Int), ts[k]?)

/-- `counted` is the tracker at this position after one more match. -/
def sideSteps (ts : List (Tracker α)) (i : Int) (counted : Option (Tracker α)) :
    List (Int × Option (Tracker α)) :=
  ((counted.filter Tracker.hasMore).toList.map fun t => (i, some t)) ++ departing ts i

end Side

variable {ε δ σ ρ : Type}

namespace Spot

def start : Spot δ σ := ⟨-1, -1, none, none⟩

def pair (x : Spot δ σ) : List (Pairing δ σ) :=
  match x.dest, x.src with
  | some a, some b => [.both a b]
  | _, _ => []

/-- The spots that can follow, each with what is folded on the way: the pair, the dest items that
are jumped over, then the src items. -/
def crossing (ds : List (Tracker δ)) (ss : List (Tracker σ)) (x : Spot δ σ) :
    List (Spot δ σ × List (Pairing δ σ)) :=
  let steps := (sideSteps ds x.destIndex (x.dest.map Tracker.matched)).flatMap fun y =>
    (sideSteps ss x.srcIndex (x.src.map Tracker.matched)).map fun z => (y, z)
  (steps.filter fun (y, z) => y.1 ≠ x.destIndex ∨ z.1 ≠ x.srcIndex).map fun (y, z) =>
    (⟨y.1, z.1, y.2, z.2⟩,
      x.pair ++ (between ds x.destIndex y.1).map .destOnly ++
        (between ss x.srcIndex z.1).map .srcOnly)

end Spot

/-- Past both ends a walk ends. Past one end it goes on if the item on the other side is skippable
and admitted against absence, and to the next item of that side. -/
def chart (S : Strategy (Except ε) δ σ ρ) (ds : List (Tracker δ)) (ss : List (Tracker σ)) :
    Graph ε δ σ ρ (Spot δ σ) where
  ended x := 0 ≤ x.destIndex ∧ 0 ≤ x.srcIndex ∧ x.dest = none ∧ x.src = none
  links v x :=
    match x.dest, x.src with
    | none, none => pure (if x.destIndex < 0 then x.crossing ds ss else [])
    | none, some b =>
      if b.isSkippable then do
        if ← S.admits v (.srcOnly b) then
          pure
            [(⟨x.destIndex, x.srcIndex + 1, none, trackerAt ss (x.srcIndex + 1)⟩, [.srcOnly b])]
        else pure []
      else pure []
    | some a, none =>
      if a.isSkippable then do
        if ← S.admits v (.destOnly a) then
          pure
            [(⟨x.destIndex + 1, x.srcIndex, trackerAt ds (x.destIndex + 1), none⟩, [.destOnly a])]
        else pure []
      else pure []
    | some a, some b => do
      if ← S.admits v (.both a b) then pure (x.crossing ds ss) else pure []

/-- The end of a search that looks for the first of these walks. -/
def EndsAsFirst (P : List Nat → Except ε ρ → Prop) : Except ε (Option ρ) → Prop
  | .error f => IsFirst P (.error f)
  | .ok (some w) => IsFirst P (.ok w)
  | .ok none => ∀ ks r, ¬ P ks r

section Side

variable {α : Type} {ts : List (Tracker α)}

def Move.step (mv : Move α) : Int × Option (Tracker α) := (mv.place.index, mv.place.tracker?)

theorem drop_take_eq_cons {i k : Nat} {t : Tracker α} (h : ts[i]? = some t) (hk : i < k) :
    (ts.take k).drop i = t :: (ts.take k).drop (i + 1) := by
  obtain ⟨hi, rfl⟩ := List.getElem?_eq_some_iff.1 h
  rw [List.drop_eq_getElem_cons (by simp; omega), List.getElem_take]

theorem map_step_leaps {jumped : List (Tracker α)} {i : Nat} {rest : List (Tracker α)}
    (h : rest = ts.drop i) :
    (Place.leaps jumped i rest).map Move.step =
      ((List.range' (i + 1) (ts.length - (i + 1))).filter fun k =>
        ((ts.take k).drop i).all Tracker.isSkippable).map fun (k : Nat) => ((k : Int), ts[k]?) := by
  fun_induction Place.leaps jumped i rest with
  | case1 jumped i t u rest ht ih =>
    have hlen := congrArg List.length h
    simp only [List.length_cons, List.length_drop] at hlen
    have hi : ts[i]? = some t := by rw [← List.head?_drop, ← h]; rfl
    have hrest : u :: rest = ts.drop (i + 1) := by rw [← List.tail_drop, ← h]; rfl
    have hi' : ts[i + 1]? = some u := by rw [← List.head?_drop, ← hrest]; rfl
    obtain ⟨n, hn⟩ : ∃ n, ts.length - (i + 1) = n + 1 := ⟨rest.length, by omega⟩
    have hn' : ts.length - (i + 1 + 1) = n := by omega
    have htail : ((List.range' (i + 1 + 1) n).filter fun k =>
          ((ts.take k).drop i).all Tracker.isSkippable) =
        (List.range' (i + 1 + 1) n).filter fun k =>
          ((ts.take k).drop (i + 1)).all Tracker.isSkippable := by
      refine List.filter_congr fun k hk => ?_
      rw [drop_take_eq_cons hi (by have := (List.mem_range'_1.1 hk).1; omega), List.all_cons, ht,
        Bool.true_and]
    have hhead : ((ts.take (i + 1)).drop i).all Tracker.isSkippable = true := by
      rw [drop_take_eq_cons hi (Nat.lt_succ_self i)]
      simp [ht]
    rw [hn, List.range'_succ, List.filter_cons, if_pos hhead, htail, List.map_cons, List.map_cons,
      ih hrest, hn', hi']
    rfl
  | case2 jumped i t u rest ht =>
    have hi : ts[i]? = some t := by rw [← List.head?_drop, ← h]; rfl
    have hnone : ((List.range' (i + 1) (ts.length - (i + 1))).filter fun k =>
        ((ts.take k).drop i).all Tracker.isSkippable) = [] := by
      refine List.filter_eq_nil_iff.2 fun k hk => ?_
      rw [drop_take_eq_cons hi (List.mem_range'_1.1 hk).1, List.all_cons]
      simp [ht]
    rw [hnone]
    rfl
  | case3 rest jumped i hshort =>
    have hlen : ts.length - (i + 1) = 0 := by
      have hlen := congrArg List.length h
      rw [List.length_drop] at hlen
      cases rest with
      | nil =>
        simp only [List.length_nil] at hlen
        omega
      | cons t rest =>
        cases rest with
        | nil =>
          simp only [List.length_cons, List.length_nil] at hlen
          omega
        | cons u rest => exact (hshort t u rest rfl).elim
    rw [hlen]
    rfl

theorem map_step_arrivals {i : Int} {k : Nat} (hk : (k : Int) = i + 1) :
    (Place.arrivals k (ts.drop k)).map Move.step = departing ts i := by
  obtain rfl : i = (k : Int) - 1 := by omega
  rw [Place.arrivals, List.map_cons, map_step_leaps rfl, departing]
  have h1 : ((k : Int) - 1 + 1).toNat = k := by omega
  have h2 : ((k : Int) - 1 + 2).toNat = k + 1 := by omega
  have h3 : trackerAt ts ((k : Int) - 1 + 1) = ts[k]? := by
    rw [trackerAt, if_neg (by omega), h1]
  simp only [h2, h3, between, h1, Int.toNat_natCast]
  congr 1
  simp only [Move.step, Place.tracker?, List.head?_drop]
  congr 1

theorem skipped_of_mem_arrivals {i : Int} {k : Nat} (hk : (k : Int) = i + 1) {mv : Move α}
    (h : mv ∈ Place.arrivals k (ts.drop k)) : mv.skipped = between ts i mv.place.index := by
  obtain ⟨js, rest, hrest, _, _, rfl⟩ := Place.mem_arrivals.1 h
  have h1 : (i + 1).toNat = k := by omega
  simp only [Move.skipped, List.reverse_reverse, between, h1, Int.toNat_natCast]
  rw [List.drop_take, hrest, Nat.add_sub_cancel_left, List.take_left]

theorem map_step_stays (p : Place α) :
    p.stays.map Move.step =
      ((p.tracker?.map Tracker.matched).filter Tracker.hasMore).toList.map fun t =>
        ((p.index : Int), some t) := by
  obtain ⟨i, rest⟩ := p
  cases rest with
  | nil => rfl
  | cons t rest =>
    by_cases ht : t.matched.hasMore <;>
      simp [Place.stays, Place.tracker?, Move.step, Option.filter, ht]

theorem map_step_moves {i : Nat} {a : Tracker α} {as : List (Tracker α)}
    (hp : Place.Of ts ⟨i, a :: as⟩) :
    (Place.moves ⟨i, a :: as⟩).map Move.step = sideSteps ts i (some a.matched) := by
  obtain ⟨t, _, _, rfl⟩ := hp.cons
  rw [Place.moves, List.map_append, map_step_stays, sideSteps]
  exact congrArg _ (map_step_arrivals (Int.natCast_succ i))

theorem skipped_of_mem_moves {i : Nat} {a : Tracker α} {as : List (Tracker α)} {mv : Move α}
    (hp : Place.Of ts ⟨i, a :: as⟩) (h : mv ∈ Place.moves ⟨i, a :: as⟩) :
    mv.skipped = between ts i mv.place.index := by
  rcases List.mem_append.1 h with h | h
  · obtain ⟨_, rfl⟩ := Place.mem_stays.1 h
    refine (List.drop_eq_nil_of_le ?_).symm
    simp only [List.length_take, Int.toNat_natCast]
    omega
  · obtain ⟨t, _, _, rfl⟩ := hp.cons
    exact skipped_of_mem_arrivals (Int.natCast_succ i) h

end Side

def State.spot (s : State δ σ) : Spot δ σ :=
  ⟨s.destIndex, s.srcIndex, s.destTracker?, s.srcTracker?⟩

theorem filter_pairs_of_dest {xs : List (Move δ)} {ys : List (Move σ)} {i j : Nat}
    (h : ∀ x ∈ xs, x.place.index ≠ i) :
    ((pairs xs ys).filter fun e => e.dest.place.index ≠ i ∨ e.src.place.index ≠ j) =
      pairs xs ys := by
  refine List.filter_eq_self.2 fun e he => ?_
  obtain ⟨x, hx, he⟩ := List.mem_flatMap.1 he
  obtain ⟨y, _, rfl⟩ := List.mem_map.1 he
  simp [h x hx]

theorem filter_pairs_of_src {xs : List (Move δ)} {ys : List (Move σ)} {i j : Nat}
    (hx : ∀ x ∈ xs, x.place.index = i) :
    ((pairs xs ys).filter fun e => e.dest.place.index ≠ i ∨ e.src.place.index ≠ j) =
      pairs xs (ys.filter fun y => y.place.index ≠ j) := by
  rw [pairs, List.filter_flatMap]
  refine List.flatMap_congr fun x hmem => ?_
  rw [List.filter_map]
  congr 1
  refine List.filter_congr fun y _ => ?_
  simp [hx x hmem]

theorem filter_moves (p : Place α) :
    (p.moves.filter fun mv => mv.place.index ≠ p.index) = p.departures := by
  rw [Place.moves, List.filter_append]
  have hstays : (p.stays.filter fun mv => mv.place.index ≠ p.index) = [] :=
    List.filter_eq_nil_iff.2 fun mv h => by simp [Place.index_of_mem_stays h]
  have hdepartures : (p.departures.filter fun mv => mv.place.index ≠ p.index) = p.departures :=
    List.filter_eq_self.2 fun mv h => by simp [Nat.ne_of_gt (Place.lt_index_of_mem_departures h)]
  rw [hstays, hdepartures, List.nil_append]

theorem edges_inside_eq_filter (i j : Nat) (a : Tracker δ) (as : List (Tracker δ)) (b : Tracker σ)
    (bs : List (Tracker σ)) :
    (State.on ⟨i, a :: as⟩ ⟨j, b :: bs⟩).edges =
      (pairs (Place.moves ⟨i, a :: as⟩) (Place.moves ⟨j, b :: bs⟩)).filter fun e =>
        e.dest.place.index ≠ i ∨ e.src.place.index ≠ j := by
  have hsplit : pairs (Place.moves ⟨i, a :: as⟩) (Place.moves ⟨j, b :: bs⟩) =
      pairs (Place.stays ⟨i, a :: as⟩) (Place.moves ⟨j, b :: bs⟩) ++
        pairs (Place.departures ⟨i, a :: as⟩) (Place.moves ⟨j, b :: bs⟩) := List.flatMap_append
  rw [State.edges_inside, hsplit, List.filter_append]
  congr 1
  · rw [filter_pairs_of_src (i := i) fun x hx => Place.index_of_mem_stays hx]
    exact congrArg _ (filter_moves ⟨j, b :: bs⟩).symm
  · rw [filter_pairs_of_dest (i := i) fun x hx =>
      Nat.ne_of_gt (Place.lt_index_of_mem_departures hx)]

theorem crossing_eq_map {ds : List (Tracker δ)} {ss : List (Tracker σ)} {x : Spot δ σ}
    {xs : List (Move δ)} {ys : List (Move σ)} (here : Option (Pairing δ σ))
    (hx : xs.map Move.step = sideSteps ds x.destIndex (x.dest.map Tracker.matched))
    (hy : ys.map Move.step = sideSteps ss x.srcIndex (x.src.map Tracker.matched))
    (hxs : ∀ mv ∈ xs, mv.skipped = between ds x.destIndex mv.place.index)
    (hys : ∀ mv ∈ ys, mv.skipped = between ss x.srcIndex mv.place.index)
    (hhere : x.pair = here.toList) :
    x.crossing ds ss =
      ((pairs xs ys).filter fun e =>
        (e.dest.place.index : Int) ≠ x.destIndex ∨ (e.src.place.index : Int) ≠ x.srcIndex).map
        fun e => (e.target.spot, e.folded here) := by
  have hsteps : ((xs.map Move.step).flatMap fun y => (ys.map Move.step).map fun z => (y, z)) =
      (pairs xs ys).map fun e => (e.dest.step, e.src.step) := by
    rw [List.flatMap_map, pairs, List.map_flatMap]
    refine List.flatMap_congr fun m _ => ?_
    rw [List.map_map, List.map_map]
    rfl
  simp only [Spot.crossing, ← hx, ← hy]
  rw [hsteps, List.filter_map, List.map_map]
  refine List.map_congr_left fun e he => ?_
  obtain ⟨m, hm, he⟩ := List.mem_flatMap.1 (List.mem_filter.1 he).1
  obtain ⟨m', hm', rfl⟩ := List.mem_map.1 he
  simp only [Function.comp, Edge.folded, hxs m hm, hys m' hm', hhere]
  rfl

/-- The edges of a state, drawn in the chart. -/
theorem map_spot_edges {ds : List (Tracker δ)} {ss : List (Tracker σ)} {s : State δ σ}
    (hs : s.Fits ds ss) (ho : s.outlook = .onward .inside) :
    s.edges.map (fun e => (e.target.spot, e.folded s.pairing?)) = s.spot.crossing ds ss := by
  cases hs with
  | start =>
    have hall : (State.start ds ss).edges =
        (pairs (Place.arrivals 0 ds) (Place.arrivals 0 ss)).filter fun e =>
          (e.dest.place.index : Int) ≠ -1 ∨ (e.src.place.index : Int) ≠ -1 := by
      rw [List.filter_eq_self.2 fun e _ => by simp]
      exact State.edges_start _ _
    rw [hall]
    exact (crossing_eq_map (x := .start) none (map_step_arrivals (i := -1) (k := 0) rfl)
      (map_step_arrivals (i := -1) (k := 0) rfl) (fun mv h => skipped_of_mem_arrivals rfl h)
      (fun mv h => skipped_of_mem_arrivals rfl h) rfl).symm
  | @on p q hp hq =>
    match p, q, hp, hq with
    | ⟨i, []⟩, ⟨j, []⟩, _, _ => cases ho
    | ⟨i, []⟩, ⟨j, b :: bs⟩, _, _ =>
      simp only [State.outlook] at ho
      split at ho <;> cases ho
    | ⟨i, a :: as⟩, ⟨j, []⟩, _, _ =>
      simp only [State.outlook] at ho
      split at ho <;> cases ho
    | ⟨i, a :: as⟩, ⟨j, b :: bs⟩, hp, hq =>
      rw [crossing_eq_map (State.pairing? (.on ⟨i, a :: as⟩ ⟨j, b :: bs⟩)) (map_step_moves hp)
        (map_step_moves hq) (fun mv h => skipped_of_mem_moves hp h)
        (fun mv h => skipped_of_mem_moves hq h) rfl, edges_inside_eq_filter]
      simp only [State.spot, State.destIndex, State.srcIndex, ne_eq, Int.natCast_inj]

/-! ## The chart is the graph of the search -/

theorem trackerAt_succ {α : Type} {ts : List (Tracker α)} {i : Nat} {a : Tracker α}
    {as : List (Tracker α)} (h : Place.Of ts ⟨i, a :: as⟩) :
    trackerAt ts ((i : Int) + 1) = as.head? := by
  obtain ⟨t, _, _, rfl⟩ := h.cons
  rw [trackerAt, if_neg (by omega), List.head?_drop]
  rfl

theorem ended_spot (S : Strategy (Except ε) δ σ ρ) (ds : List (Tracker δ)) (ss : List (Tracker σ))
    (s : State δ σ) : S.graph.ended s ↔ (chart S ds ss).ended s.spot := by
  match s with
  | .start _ _ => simp [Strategy.graph, chart, State.spot, State.outlook, State.destIndex]
  | .on ⟨i, []⟩ ⟨j, []⟩ =>
    simp [Strategy.graph, chart, State.spot, State.outlook, State.destIndex, State.srcIndex,
      State.destTracker?, State.srcTracker?, Place.tracker?]
  | .on ⟨i, []⟩ ⟨j, b :: bs⟩ =>
    by_cases hb : b.isSkippable <;>
      simp [Strategy.graph, chart, State.spot, State.outlook, State.srcTracker?, Place.tracker?, hb]
  | .on ⟨i, a :: as⟩ ⟨j, []⟩ =>
    by_cases ha : a.isSkippable <;>
      simp [Strategy.graph, chart, State.spot, State.outlook, State.destTracker?, Place.tracker?,
        ha]
  | .on ⟨i, a :: as⟩ ⟨j, b :: bs⟩ =>
    simp [Strategy.graph, chart, State.spot, State.outlook, State.destTracker?, Place.tracker?]

theorem map_guarded {α β : Type} (f : α → β) (x : Except ε Bool) (ls : List α) :
    (do if ← x then pure ls else pure [] : Except ε (List α)).map (List.map f) =
      (do if ← x then pure (ls.map f) else pure []) := by
  match x with
  | .error f => rfl
  | .ok false => rfl
  | .ok true => rfl

theorem links_spot (S : Strategy (Except ε) δ σ ρ) {ds : List (Tracker δ)} {ss : List (Tracker σ)}
    {s : State δ σ} (v : ρ) (hs : s.Fits ds ss) :
    (chart S ds ss).links v s.spot =
      (S.graph.links v s).map (List.map fun l => (l.1.spot, l.2)) := by
  have hmap {α : Type} (es : List α) (target : α → State δ σ)
      (folded : α → List (Pairing δ σ)) :
      (es.map fun e => (target e, folded e)).map (fun l => (l.1.spot, l.2)) =
        es.map fun e => ((target e).spot, folded e) := by
    rw [List.map_map]
    rfl
  match s, hs with
  | .start _ _, .start =>
    refine Eq.trans ?_ (map_guarded _ (.ok true) _).symm
    rw [hmap, map_spot_edges .start rfl]
    rfl
  | .on ⟨i, []⟩ ⟨j, []⟩, _ => rfl
  | .on ⟨i, []⟩ ⟨j, b :: bs⟩, .on _ hq =>
    by_cases hb : b.isSkippable
    · simp only [chart, State.spot, State.srcTracker?, State.destTracker?, Place.tracker?,
        List.head?_cons, List.head?_nil, hb, if_true, Strategy.graph, State.outlook, State.srcIndex,
        trackerAt_succ hq]
      rw [map_guarded]
      simp only [State.edges, State.forks, hb, if_true]
      rfl
    · simp only [chart, State.spot, State.srcTracker?, State.destTracker?, Place.tracker?,
        List.head?_cons, List.head?_nil, hb, Strategy.graph, State.outlook]
      rfl
  | .on ⟨i, a :: as⟩ ⟨j, []⟩, .on hp _ =>
    by_cases ha : a.isSkippable
    · simp only [chart, State.spot, State.srcTracker?, State.destTracker?, Place.tracker?,
        List.head?_cons, List.head?_nil, ha, if_true, Strategy.graph, State.outlook,
        State.destIndex, trackerAt_succ hp]
      rw [map_guarded]
      simp only [State.edges, State.forks, ha, if_true]
      rfl
    · simp only [chart, State.spot, State.srcTracker?, State.destTracker?, Place.tracker?,
        List.head?_cons, List.head?_nil, ha, Strategy.graph, State.outlook]
      rfl
  | .on ⟨i, a :: as⟩ ⟨j, b :: bs⟩, hs =>
    refine Eq.trans ?_ (map_guarded _ (S.admits v (.both a b)) _).symm
    rw [hmap, map_spot_edges hs rfl]
    rfl

theorem search_follows_first_walk (S : Strategy (Except ε) δ σ ρ) (dest : List (Tracker δ))
    (src : List (Tracker σ)) (initial : ρ) :
    EndsAsFirst (Decided S (chart S dest src) .start initial)
      ((search S {} .silent dest src initial).map Outcome.found) := by
  obtain ⟨log, r, h⟩ := exists_run (S := S) (o := {}) (.start dest src) initial 0 .blank
  have hwalks (ks : List Nat) (r : Except ε ρ) :
      Decided S S.graph (.start dest src) initial ks r ↔
        Decided S (chart S dest src) .start initial ks r :=
    decided_map State.spot (I := State.Fits dest src) (fun s _ => ended_spot S dest src s)
      (fun s v hs => links_spot S v hs)
      (fun s v ls y ps hs hls hy => by
        obtain ⟨_, e, _, _, he, rfl, _⟩ := Strategy.edge_of_mem_links hls hy
        exact State.fits_target hs he)
      .start
  have hfirst := findsFirst_congr hwalks (h.isFirst rfl)
  rw [search_silent h]
  match r, h, hfirst with
  | .error f, _, hfirst => exact hfirst
  | .ok (some w, l), _, hfirst => exact hfirst
  | .ok (none, l), h, hfirst => exact hfirst (h.not_limitReached rfl rfl rfl)

end SeqAlign
