import SeqAlign.Proofs.FirstWalk

/-!
# SeqAlign.Proofs.Candidates

The steps that one side of a walk can take next.

* `candidates`: the moves from before a sequence, or from a tracker in it. The edges inside of two
  sequences are the pairs of such moves, but for the one that stays on both sides
  (`State.edges_eq_candidates`).
* `Stays`, `Leaves`: the legal steps. A tracker that has more matches after this one can stay; any
  walk can go on to the next position, and further over skippable trackers, at most to the last one.
* `readSteps`: the same steps, found by reading one tracker after the other by its position. Reading
  outside of the sequence would fail, and it does not (`readSteps_eq`).
* `candidates_legal`: the candidates are the legal steps, in the order of their positions and without
  duplicates.
-/

namespace SeqAlign

variable {α δ σ : Type} {ts : List (Tracker α)} {i : Int}

/-- A walk stands on no tracker before a sequence, and inside on one for the item at its position. -/
def StandsAt (ts : List (Tracker α)) (i : Int) : Option (Tracker α) → Prop
  | none => i = -1
  | some t => ∃ u, trackerAt ts i = some u ∧ t.entry = u.entry

def candidates (ts : List (Tracker α)) (i : Int) : Option (Tracker α) → List (Move α)
  | none => Place.arrivals (i + 1).toNat (ts.drop (i + 1).toNat)
  | some t => Place.moves ⟨i.toNat, t :: ts.drop (i + 1).toNat⟩

theorem trackerAt_eq_some {u : Tracker α} :
    trackerAt ts i = some u ↔ ∃ k : Nat, i = k ∧ ts[k]? = some u := by
  unfold trackerAt
  split
  case isTrue hneg =>
    refine iff_of_false nofun ?_
    rintro ⟨k, rfl, _⟩
    omega
  case isFalse hneg =>
    constructor
    · exact fun hu => ⟨i.toNat, by omega, hu⟩
    · rintro ⟨k, rfl, hu⟩
      exact hu

theorem trackerAt_eq_none (h : 0 ≤ i) : trackerAt ts i = none ↔ (ts.length : Int) ≤ i := by
  rw [trackerAt, if_neg (by omega), List.getElem?_eq_none_iff]
  omega

theorem StandsAt.exists_place {t : Tracker α} (h : StandsAt ts i (some t)) :
    ∃ k : Nat, i = k ∧ k < ts.length ∧ Place.Of ts ⟨k, t :: ts.drop (k + 1)⟩ := by
  obtain ⟨u, hu, hentry⟩ := h
  obtain ⟨k, rfl, hk⟩ := trackerAt_eq_some.1 hu
  obtain ⟨entry, count⟩ := t
  obtain rfl : entry = u.entry := hentry
  exact ⟨k, rfl, (List.getElem?_eq_some_iff.1 hk).1, .on count hk⟩

theorem standsAt_of_place {k : Nat} {a : Tracker α} {as : List (Tracker α)}
    (h : Place.Of ts ⟨k, a :: as⟩) :
    StandsAt ts k (some a) ∧ candidates ts k (some a) = Place.moves ⟨k, a :: as⟩ := by
  obtain ⟨t, ht, hentry, rfl⟩ := h.cons
  exact ⟨⟨t, trackerAt_eq_some.2 ⟨k, rfl, ht⟩, hentry⟩, rfl⟩

theorem StandsAt.bounds {here : Option (Tracker α)} (h : StandsAt ts i here) :
    -1 ≤ i ∧ i + 1 ≤ ts.length := by
  cases here with
  | none =>
    obtain rfl : i = -1 := h
    omega
  | some t =>
    obtain ⟨k, rfl, hk, _⟩ := h.exists_place
    omega

/-- Edges inside of both sequences are made of candidates. -/
theorem State.edges_eq_candidates {ds : List (Tracker δ)} {ss : List (Tracker σ)} {s : State δ σ}
    (hs : s.Fits ds ss) (ho : s.outlook = .onward .inside) :
    StandsAt ds s.destIndex s.destTracker? ∧ StandsAt ss s.srcIndex s.srcTracker? ∧
      s.edges = (pairs (candidates ds s.destIndex s.destTracker?)
        (candidates ss s.srcIndex s.srcTracker?)).filter fun e =>
          (e.dest.place.index : Int) ≠ s.destIndex ∨ (e.src.place.index : Int) ≠ s.srcIndex := by
  cases hs with
  | start =>
    refine ⟨rfl, rfl, ?_⟩
    rw [List.filter_eq_self.2 fun e _ => by simp [destIndex]]
    exact edges_start ds ss
  | @on p q hp hq =>
    obtain ⟨k, ds'⟩ := p
    obtain ⟨l, ss'⟩ := q
    cases ds' with
    | nil =>
      cases ss' with
      | nil => cases ho
      | cons b bs =>
        simp only [outlook] at ho
        split at ho <;> cases ho
    | cons a as =>
      cases ss' with
      | nil =>
        simp only [outlook] at ho
        split at ho <;> cases ho
      | cons b bs =>
        obtain ⟨hdest, hds⟩ := standsAt_of_place hp
        obtain ⟨hsrc, hss⟩ := standsAt_of_place hq
        refine ⟨hdest, hsrc, ?_⟩
        simp only [destIndex, srcIndex, destTracker?, srcTracker?, Place.tracker?, List.head?_cons,
          hds, hss, ne_eq, Int.natCast_inj]
        exact edges_inside_eq_filter k l a as b bs

/-- The step that stays on a tracker and counts the match. -/
def Stays (i : Int) (here : Option (Tracker α)) (step : Int × Option (Tracker α)) : Prop :=
  ∃ t, here = some t ∧ t.matched.hasMore = true ∧ step = (i, some t.matched)

/-- A step to the next position, or to one further on with only skippable trackers before it. -/
def Leaves (ts : List (Tracker α)) (i : Int) (step : Int × Option (Tracker α)) : Prop :=
  (step.1 = i + 1 ∨ i + 1 < step.1 ∧ step.1 ≤ (ts.length : Int) - 1 ∧
    ∀ k, i + 1 ≤ k → k ≤ step.1 - 1 → ∃ t, trackerAt ts k = some t ∧ t.isSkippable = true) ∧
  step.2 = trackerAt ts step.1

theorem map_step_candidates {here : Option (Tracker α)} (h : StandsAt ts i here) :
    (candidates ts i here).map Move.step = sideSteps ts i (here.map Tracker.matched) := by
  cases here with
  | none =>
    obtain rfl : i = -1 := h
    exact map_step_arrivals (i := -1) rfl
  | some t =>
    obtain ⟨k, rfl, _, hplace⟩ := h.exists_place
    exact map_step_moves hplace

theorem all_between {k : Nat} (h : -1 ≤ i) (hk : k ≤ ts.length) :
    (between ts i k).all Tracker.isSkippable = true ↔
      ∀ j, i + 1 ≤ j → j ≤ (k : Int) - 1 → ∃ t, trackerAt ts j = some t ∧ t.isSkippable = true := by
  simp only [List.all_eq_true, between, List.mem_iff_getElem?, List.getElem?_drop,
    List.getElem?_take, Int.toNat_natCast]
  constructor
  · intro hall j hlow hhigh
    have hj : j.toNat < ts.length := by omega
    refine ⟨ts[j.toNat], trackerAt_eq_some.2 ⟨j.toNat, by omega, List.getElem?_eq_getElem hj⟩,
      hall _ ⟨j.toNat - (i + 1).toNat, ?_⟩⟩
    have hsum : (i + 1).toNat + (j.toNat - (i + 1).toNat) = j.toNat := by omega
    rw [hsum, if_pos (by omega), List.getElem?_eq_getElem hj]
  · rintro hall t ⟨n, hn⟩
    split at hn
    case isFalse => cases hn
    case isTrue hlt =>
      obtain ⟨u, hu, hskip⟩ := hall (((i + 1).toNat + n : Nat) : Int) (by omega) (by omega)
      obtain ⟨l, hl, hget⟩ := trackerAt_eq_some.1 hu
      rw [← Int.natCast_inj.1 hl, hn] at hget
      rwa [Option.some.inj hget]

theorem mem_departing (h : -1 ≤ i) {step : Int × Option (Tracker α)} :
    step ∈ departing ts i ↔ Leaves ts i step := by
  obtain ⟨p, x⟩ := step
  simp only [departing, List.mem_cons, List.mem_map, List.mem_filter, List.mem_range'_1,
    Prod.mk.injEq, Leaves]
  constructor
  · rintro (⟨rfl, rfl⟩ | ⟨k, ⟨hrange, hall⟩, rfl, rfl⟩)
    · exact ⟨.inl rfl, rfl⟩
    · refine ⟨.inr ⟨by omega, by omega, (all_between h (by omega)).1 hall⟩, ?_⟩
      rw [trackerAt, if_neg (by omega), Int.toNat_natCast]
  · rintro ⟨rfl | ⟨hlow, hhigh, hall⟩, rfl⟩
    · exact .inl ⟨rfl, rfl⟩
    · obtain ⟨k, rfl⟩ := Int.eq_ofNat_of_zero_le (a := p) (by omega)
      refine .inr ⟨k, ⟨by omega, (all_between h (by omega)).2 hall⟩, rfl, ?_⟩
      rw [trackerAt, if_neg (by omega), Int.toNat_natCast]

theorem mem_sideSteps (h : -1 ≤ i) {here : Option (Tracker α)} {step : Int × Option (Tracker α)} :
    step ∈ sideSteps ts i (here.map Tracker.matched) ↔ Stays i here step ∨ Leaves ts i step := by
  rw [sideSteps, List.mem_append, mem_departing h]
  refine or_congr_left ?_
  cases here with
  | none => simp [Stays]
  | some t =>
    by_cases ht : t.matched.hasMore = true
    · simp [Stays, Option.filter, ht]
    · simp [Stays, Option.filter, ht]

theorem pairwise_candidates {here : Option (Tracker α)} :
    ((candidates ts i here).map Move.step).Pairwise fun x y => x.1 < y.1 := by
  refine List.pairwise_map.2 ?_
  simp only [Move.step, Int.ofNat_lt]
  cases here with
  | none => exact Place.pairwise_arrivals _ _
  | some t => exact Place.pairwise_moves _ _ _

/-- The jumps that begin at this position. The tracker that is jumped over is read before the one
behind it, and only if that one is not behind the last. -/
def readJumps (ts : List (Tracker α)) (k : Nat) : Option (List (Int × Option (Tracker α))) :=
  if k + 1 < ts.length then do
    let t ← ts[k]?
    if t.isSkippable then
      let u ← ts[k + 1]?
      let later ← readJumps ts (k + 1)
      pure ((((k + 1 : Nat) : Int), some u) :: later)
    else pure []
  else pure []
termination_by ts.length - k

def readNext (ts : List (Tracker α)) (i : Int) : Option (Option (Tracker α)) :=
  if i + 1 < ts.length then (trackerAt ts (i + 1)).map some else pure none

def readSteps (ts : List (Tracker α)) (i : Int) (here : Option (Tracker α)) :
    Option (List (Int × Option (Tracker α))) := do
  let stay := ((here.map Tracker.matched).filter Tracker.hasMore).toList.map fun t => (i, some t)
  let next ← readNext ts i
  let jumps ← readJumps ts (i + 1).toNat
  pure (stay ++ (i + 1, next) :: jumps)

theorem readJumps_eq (ts : List (Tracker α)) (k : Nat) (jumped : List (Tracker α)) :
    readJumps ts k = some ((Place.leaps jumped k (ts.drop k)).map Move.step) := by
  induction hn : ts.length - k generalizing k jumped with
  | zero =>
    rw [readJumps, if_neg (by omega), List.drop_eq_nil_of_le (by omega)]
    rfl
  | succ n ih =>
    have hk : k < ts.length := by omega
    rw [readJumps, List.drop_eq_getElem_cons hk]
    split
    case isFalse hlast =>
      rw [List.drop_eq_nil_of_le (by omega)]
      rfl
    case isTrue hnext =>
      have hlater := ih (k + 1) (ts[k] :: jumped) (by omega)
      rw [List.drop_eq_getElem_cons hnext] at hlater ⊢
      simp only [List.getElem?_eq_getElem hk, List.getElem?_eq_getElem hnext, Option.bind_eq_bind,
        Option.bind_some, Place.leaps, hlater]
      split
      · rfl
      · rfl

theorem readNext_eq (h : -1 ≤ i) : readNext ts i = some (trackerAt ts (i + 1)) := by
  unfold readNext
  split
  case isTrue hlt =>
    cases hnext : trackerAt ts (i + 1) with
    | none =>
      have := (trackerAt_eq_none (by omega)).1 hnext
      omega
    | some u => rfl
  case isFalse hlt =>
    rw [(trackerAt_eq_none (by omega)).2 (by omega)]
    rfl

theorem readSteps_eq {here : Option (Tracker α)} (h : StandsAt ts i here) :
    readSteps ts i here = some ((candidates ts i here).map Move.step) := by
  have hi := h.bounds.1
  have hjumps : departing ts i = (i + 1, trackerAt ts (i + 1)) ::
      (Place.leaps [] (i + 1).toNat (ts.drop (i + 1).toNat)).map Move.step := by
    have harrivals : (Place.arrivals (i + 1).toNat (ts.drop (i + 1).toNat)).map Move.step =
      departing ts i := map_step_arrivals (by omega)
    rw [Place.arrivals, List.map_cons] at harrivals
    rw [(List.cons.inj harrivals).2]
    rfl
  rw [map_step_candidates h, sideSteps, hjumps]
  simp only [readSteps, readNext_eq hi, readJumps_eq ts _ [], Option.bind_eq_bind,
    Option.bind_some]
  rfl

/-! ## The candidates are the legal steps -/

theorem candidates_at {here : Option (Tracker α)} (h : StandsAt ts i here) :
    let steps := (candidates ts i here).map Move.step
    steps.Pairwise (fun x y => x.1 < y.1) ∧
      (∀ step, step ∈ steps ↔ Stays i here step ∨ Leaves ts i step) ∧
      (∀ step ∈ steps, step.1 ≤ ts.length ∧ (step.2 = none ↔ step.1 = ts.length)) ∧
      readSteps ts i here = some steps := by
  intro steps
  have hi := h.bounds
  have hmem (step : Int × Option (Tracker α)) :
      step ∈ steps ↔ Stays i here step ∨ Leaves ts i step := by
    rw [← mem_sideSteps hi.1, ← map_step_candidates h]
  refine ⟨pairwise_candidates, hmem, ?_, readSteps_eq h⟩
  intro step hstep
  rcases (hmem step).1 hstep with ⟨t, rfl, _, rfl⟩ | ⟨hposition, htracker⟩
  · exact ⟨by omega, iff_of_false nofun (by omega)⟩
  · have hle : step.1 ≤ ts.length := by omega
    rw [htracker, trackerAt_eq_none (by omega)]
    exact ⟨hle, by omega⟩

/-- From before a sequence, or from any tracker for an item in it, the candidates are the legal
steps: the one that stays, and those to later positions. They come in the order of their positions,
none of them twice, and none leads further than past the end, where alone there is no tracker. They
are found without reading outside of the sequence. Inside of two sequences a search tries the pairs
of such candidates. -/
theorem candidates_legal :
    (∀ (ts : List (Tracker α)) (i : Int) (here : Option (Tracker α)), StandsAt ts i here →
      let steps := (candidates ts i here).map Move.step
      steps.Pairwise (fun x y => x.1 < y.1) ∧
        (∀ step, step ∈ steps ↔ Stays i here step ∨ Leaves ts i step) ∧
        (∀ step ∈ steps, step.1 ≤ ts.length ∧ (step.2 = none ↔ step.1 = ts.length)) ∧
        readSteps ts i here = some steps) ∧
      ∀ (ds : List (Tracker δ)) (ss : List (Tracker σ)) (s : State δ σ), s.Fits ds ss →
        s.outlook = .onward .inside →
          StandsAt ds s.destIndex s.destTracker? ∧ StandsAt ss s.srcIndex s.srcTracker? ∧
            s.edges = (pairs (candidates ds s.destIndex s.destTracker?)
              (candidates ss s.srcIndex s.srcTracker?)).filter fun e =>
                (e.dest.place.index : Int) ≠ s.destIndex ∨ (e.src.place.index : Int) ≠ s.srcIndex :=
  ⟨fun _ _ _ h => candidates_at h, fun _ _ _ hs ho => State.edges_eq_candidates hs ho⟩

/-- From the first of four trackers, matched seven times. The two in the middle are skippable. At the
start of the same sequence and another one, the edges are pairs of what can be taken first. -/
theorem candidates_legal_four :
    let ts := freshTrackers [⟨"a", .oneOrMore⟩, ⟨"b", .optional⟩, ⟨"c", .zeroOrMore⟩, .single "d"]
    let ss := freshTrackers [⟨1, .optional⟩, .single 2]
    let here : Option (Tracker String) := some ⟨⟨0, ⟨"a", .oneOrMore⟩⟩, 7⟩
    let start : State String Nat := .start ts ss
    StandsAt ts 0 here ∧ (candidates ts 0 here).map (fun mv => mv.place.index) = [0, 1, 2, 3] ∧
      readSteps ts 0 here = some ((candidates ts 0 here).map Move.step) ∧
      start.Fits ts ss ∧ start.outlook = .onward .inside ∧
      start.edges = (pairs (candidates ts (-1) none) (candidates ss (-1) none)).filter fun e =>
        (e.dest.place.index : Int) ≠ -1 ∨ (e.src.place.index : Int) ≠ -1 := by
  intro ts ss here start
  obtain ⟨hlegal, hedges⟩ := candidates_legal (α := String) (δ := String) (σ := Nat)
  have hstands : StandsAt ts 0 here := ⟨_, rfl, rfl⟩
  obtain ⟨_, _, _, hread⟩ := hlegal ts 0 here hstands
  obtain ⟨_, _, hpairs⟩ := hedges ts ss start .start rfl
  exact ⟨hstands, by decide, hread, .start, rfl, hpairs⟩

end SeqAlign
