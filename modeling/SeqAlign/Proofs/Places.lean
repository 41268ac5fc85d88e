import SeqAlign.Walk.State

/-!
# SeqAlign.Proofs.Places

Where a search can get to in the two sequences it was given.

* `mem_arrivals`: the ways to enter a rest of a sequence, as a run of skippable trackers that is
  jumped over and what lies behind it. The moves come in the order of their places
  (`Place.pairwise_moves`).
* `Place.Of`: a place in a sequence of trackers. It knows its index and what lies ahead; only the
  count of the tracker it stands on is its own.
* `State.edges_inside`, `State.mem_edges_inside` and their like: the edges out of each kind of
  state, as pairs of moves.
* `State.Passage`: the ways on from two places, one constructor for each.
* `State.Fits`: a state between two sequences. Every edge keeps it (`fits_target`).
* `Pairing.Of`: a pairing of trackers of two sequences. What a walk stands on and what it folds are
  such pairings (`State.Fits.pairing`, `State.Fits.folded`).
-/

namespace SeqAlign

variable {α δ σ : Type}

namespace Place

theorem mem_leaps {jumped : List (Tracker α)} {i : Nat} {rest : List (Tracker α)} {mv : Move α} :
    mv ∈ leaps jumped i rest ↔
      ∃ js ts, js ≠ [] ∧ ts ≠ [] ∧ rest = js ++ ts ∧ (∀ t ∈ js, t.isSkippable = true) ∧
        mv = ⟨js.reverse ++ jumped, ⟨i + js.length, ts⟩⟩ := by
  fun_induction leaps jumped i rest with
  | case1 jumped i t u ts ht ih =>
    rw [List.mem_cons, ih]
    constructor
    · rintro (rfl | ⟨js, ts', hjs, hts', hrest, hall, rfl⟩)
      · exact ⟨[t], u :: ts, by simp, by simp, rfl, by simp [ht], rfl⟩
      · refine ⟨t :: js, ts', by simp, hts', by simp [hrest], ?_, ?_⟩
        · exact List.forall_mem_cons.2 ⟨ht, hall⟩
        · simp only [List.reverse_cons, List.append_assoc, List.singleton_append,
            List.length_cons, Nat.add_assoc, Nat.add_comm 1]
    · rintro ⟨js, ts', hjs, hts', hrest, hall, rfl⟩
      cases js with
      | nil => exact absurd rfl hjs
      | cons t' js =>
        obtain ⟨rfl, htail⟩ := List.cons.inj hrest
        cases js with
        | nil =>
          cases htail
          exact .inl rfl
        | cons u' js =>
          refine .inr ⟨u' :: js, ts', by simp, hts', htail, (List.forall_mem_cons.1 hall).2, ?_⟩
          simp [Nat.add_assoc, Nat.add_comm 1]
  | case2 jumped i t u ts ht =>
    constructor
    · intro h
      cases h
    · rintro ⟨js, ts', hjs, _, hrest, hall, _⟩
      cases js with
      | nil => exact absurd rfl hjs
      | cons t' js =>
        obtain ⟨rfl, _⟩ := List.cons.inj hrest
        exact absurd (hall t List.mem_cons_self) ht
  | case3 rest jumped i hshort =>
    constructor
    · intro h
      cases h
    · rintro ⟨js, ts, hjs, hts, rfl, _, _⟩
      obtain ⟨t, js, rfl⟩ := List.exists_cons_of_ne_nil hjs
      cases js with
      | cons u js => exact (hshort t u (js ++ ts) rfl).elim
      | nil =>
        obtain ⟨u, ts, rfl⟩ := List.exists_cons_of_ne_nil hts
        exact (hshort t u ts rfl).elim

theorem mem_arrivals {i : Nat} {rest : List (Tracker α)} {mv : Move α} :
    mv ∈ arrivals i rest ↔
      ∃ js ts, rest = js ++ ts ∧ (js = [] ∨ ts ≠ []) ∧ (∀ t ∈ js, t.isSkippable = true) ∧
        mv = ⟨js.reverse, ⟨i + js.length, ts⟩⟩ := by
  rw [arrivals, List.mem_cons, mem_leaps]
  constructor
  · rintro (rfl | ⟨js, ts, _, hts, hrest, hall, rfl⟩)
    · exact ⟨[], rest, rfl, .inl rfl, by simp, rfl⟩
    · exact ⟨js, ts, hrest, .inr hts, hall, by simp⟩
  · rintro ⟨js, ts, hrest, hjs, hall, rfl⟩
    cases js with
    | nil =>
      cases hrest
      exact .inl rfl
    | cons t js =>
      exact .inr ⟨t :: js, ts, by simp, hjs.resolve_left (by simp), hrest, hall, by simp⟩

theorem mem_stays {i : Nat} {t : Tracker α} {ts : List (Tracker α)} {mv : Move α} :
    mv ∈ stays ⟨i, t :: ts⟩ ↔ t.matched.hasMore = true ∧ mv = ⟨[], ⟨i, t.matched :: ts⟩⟩ := by
  unfold stays
  split <;> simp_all

theorem le_index_of_mem_arrivals {i : Nat} {rest : List (Tracker α)} {mv : Move α}
    (h : mv ∈ arrivals i rest) : i ≤ mv.place.index := by
  obtain ⟨js, rest, _, _, _, rfl⟩ := mem_arrivals.1 h
  exact Nat.le_add_right _ _

theorem index_of_mem_stays {p : Place α} {mv : Move α} (h : mv ∈ p.stays) :
    mv.place.index = p.index := by
  obtain ⟨i, rest⟩ := p
  cases rest with
  | nil => cases h
  | cons t rest =>
    obtain ⟨_, rfl⟩ := mem_stays.1 h
    rfl

theorem lt_index_of_mem_departures {p : Place α} {mv : Move α} (h : mv ∈ p.departures) :
    p.index < mv.place.index := by
  obtain ⟨i, rest⟩ := p
  cases rest with
  | nil => cases h
  | cons t rest => exact le_index_of_mem_arrivals h

theorem pairwise_leaps (jumped : List (Tracker α)) (i : Nat) (rest : List (Tracker α)) :
    (leaps jumped i rest).Pairwise fun x y => x.place.index < y.place.index := by
  fun_induction leaps jumped i rest with
  | case1 jumped i t u ts ht ih =>
    refine List.pairwise_cons.2 ⟨?_, ih⟩
    intro mv hmv
    obtain ⟨js, ts', hjs, _, _, _, rfl⟩ := mem_leaps.1 hmv
    have := List.length_pos_iff.2 hjs
    simp only
    omega
  | case2 => exact .nil
  | case3 => exact .nil

theorem pairwise_arrivals (i : Nat) (rest : List (Tracker α)) :
    (arrivals i rest).Pairwise fun x y => x.place.index < y.place.index := by
  refine List.pairwise_cons.2 ⟨?_, pairwise_leaps [] i rest⟩
  intro mv hmv
  obtain ⟨js, ts, hjs, _, _, _, rfl⟩ := mem_leaps.1 hmv
  exact Nat.lt_add_of_pos_right (List.length_pos_iff.2 hjs)

theorem pairwise_moves (i : Nat) (t : Tracker α) (ts : List (Tracker α)) :
    (moves ⟨i, t :: ts⟩).Pairwise fun x y => x.place.index < y.place.index := by
  refine List.pairwise_append.2 ⟨?_, pairwise_arrivals (i + 1) ts, ?_⟩
  · simp only [stays]
    split
    · exact List.pairwise_singleton _ _
    · exact .nil
  · intro x hx y hy
    rw [index_of_mem_stays hx]
    exact lt_index_of_mem_departures hy

inductive Of (ts : List (Tracker α)) : Place α → Prop where
  | past : Of ts ⟨ts.length, []⟩
  | on {i : Nat} {t : Tracker α} (c : UInt32) :
      ts[i]? = some t → Of ts ⟨i, { t with count := c } :: ts.drop (i + 1)⟩

theorem Of.fresh {ts : List (Tracker α)} {i : Nat} (h : i ≤ ts.length) : Of ts ⟨i, ts.drop i⟩ := by
  cases ht : ts[i]? with
  | none =>
    have : i = ts.length := Nat.le_antisymm h (List.getElem?_eq_none_iff.1 ht)
    rw [this, List.drop_length]
    exact .past
  | some t =>
    obtain ⟨hi, rfl⟩ := List.getElem?_eq_some_iff.1 ht
    rw [List.drop_eq_getElem_cons hi]
    exact .on _ ht

theorem Of.cons {ts : List (Tracker α)} {i : Nat} {a : Tracker α} {as : List (Tracker α)}
    (h : Of ts ⟨i, a :: as⟩) : ∃ t, ts[i]? = some t ∧ a.entry = t.entry ∧ as = ts.drop (i + 1) := by
  cases h with
  | on c ht => exact ⟨_, ht, rfl, rfl⟩

theorem Of.nil {ts : List (Tracker α)} {i : Nat} (h : Of ts ⟨i, []⟩) : i = ts.length := by
  cases h with
  | past => rfl

theorem Of.lt {ts : List (Tracker α)} {i : Nat} {a : Tracker α} {as : List (Tracker α)}
    (h : Of ts ⟨i, a :: as⟩) : i < ts.length := by
  obtain ⟨t, ht, _⟩ := h.cons
  exact (List.getElem?_eq_some_iff.1 ht).1

theorem Of.advance {ts : List (Tracker α)} {i : Nat} {a : Tracker α} {as : List (Tracker α)}
    (h : Of ts ⟨i, a :: as⟩) : Of ts ⟨i + 1, as⟩ := by
  obtain ⟨t, ht, _, rfl⟩ := h.cons
  exact .fresh (List.getElem?_eq_some_iff.1 ht).1

theorem of_mem_arrivals {ts : List (Tracker α)} {i : Nat} {mv : Move α} (hi : i ≤ ts.length)
    (h : mv ∈ arrivals i (ts.drop i)) : Of ts mv.place := by
  obtain ⟨js, rest, hrest, _, _, rfl⟩ := mem_arrivals.1 h
  have hlen := congrArg List.length hrest
  rw [List.length_drop, List.length_append] at hlen
  have : rest = ts.drop (i + js.length) := by
    rw [← List.drop_drop, hrest, List.drop_left]
  rw [this]
  exact .fresh (by omega)

theorem of_mem_departures {ts : List (Tracker α)} {p : Place α} {mv : Move α} (hp : Of ts p)
    (h : mv ∈ p.departures) : Of ts mv.place := by
  match p, hp with
  | ⟨i, []⟩, _ => cases h
  | ⟨i, a :: as⟩, hp =>
    obtain ⟨t, _, _, rfl⟩ := hp.cons
    exact of_mem_arrivals hp.lt h

theorem of_mem_moves {ts : List (Tracker α)} {p : Place α} {mv : Move α} (hp : Of ts p)
    (h : mv ∈ p.moves) : Of ts mv.place := by
  rcases List.mem_append.1 h with h | h
  · cases hp with
    | past => cases h
    | @on i t c ht =>
      obtain ⟨_, rfl⟩ := mem_stays.1 h
      exact @Of.on _ _ i t (c + 1) ht
  · exact of_mem_departures hp h

end Place

/-! ## Edges -/

/-- Each of these moves of dest with each of these moves of src. -/
def pairs (xs : List (Move δ)) (ys : List (Move σ)) : List (Edge δ σ) :=
  xs.flatMap fun x => ys.map fun y => ⟨x, y⟩

theorem flatMap_edges_each (xs : List (Move δ)) (ys : List (Move σ)) :
    (Fork.each xs ys).flatMap Fork.edges = pairs xs ys := by
  rw [Fork.each, List.flatMap_map]
  rfl

namespace State

theorem edges_start (ds : List (Tracker δ)) (ss : List (Tracker σ)) :
    (State.start ds ss).edges = pairs (Place.arrivals 0 ds) (Place.arrivals 0 ss) :=
  flatMap_edges_each _ _

theorem edges_inside (i j : Nat) (a : Tracker δ) (as : List (Tracker δ)) (b : Tracker σ)
    (bs : List (Tracker σ)) :
    (State.on ⟨i, a :: as⟩ ⟨j, b :: bs⟩).edges =
      pairs (Place.stays ⟨i, a :: as⟩) (Place.departures ⟨j, b :: bs⟩) ++
        pairs (Place.departures ⟨i, a :: as⟩) (Place.moves ⟨j, b :: bs⟩) := by
  rw [edges, forks, List.flatMap_append, flatMap_edges_each, flatMap_edges_each]

theorem mem_edges_start {ds : List (Tracker δ)} {ss : List (Tracker σ)} {e : Edge δ σ} :
    e ∈ (State.start ds ss).edges ↔
      e.dest ∈ Place.arrivals 0 ds ∧ e.src ∈ Place.arrivals 0 ss := by
  rw [mem_edges]
  constructor
  · rintro ⟨ys, h, hy⟩
    obtain ⟨hx, rfl⟩ := mem_each.1 h
    exact ⟨hx, hy⟩
  · rintro ⟨hx, hy⟩
    exact ⟨_, mem_each.2 ⟨hx, rfl⟩, hy⟩

theorem mem_edges_inside {i j : Nat} {a : Tracker δ} {as : List (Tracker δ)} {b : Tracker σ}
    {bs : List (Tracker σ)} {e : Edge δ σ} :
    e ∈ (State.on ⟨i, a :: as⟩ ⟨j, b :: bs⟩).edges ↔
      (e.dest ∈ Place.stays ⟨i, a :: as⟩ ∧ e.src ∈ Place.departures ⟨j, b :: bs⟩) ∨
        (e.dest ∈ Place.departures ⟨i, a :: as⟩ ∧ e.src ∈ Place.moves ⟨j, b :: bs⟩) := by
  rw [mem_edges]
  constructor
  · rintro ⟨ys, h, hy⟩
    rcases List.mem_append.1 h with h | h
    · obtain ⟨hx, rfl⟩ := mem_each.1 h
      exact .inl ⟨hx, hy⟩
    · obtain ⟨hx, rfl⟩ := mem_each.1 h
      exact .inr ⟨hx, hy⟩
  · rintro (⟨hx, hy⟩ | ⟨hx, hy⟩)
    · exact ⟨_, List.mem_append_left _ (mem_each.2 ⟨hx, rfl⟩), hy⟩
    · exact ⟨_, List.mem_append_right _ (mem_each.2 ⟨hx, rfl⟩), hy⟩

theorem mem_edges_past_dest {i j : Nat} {b : Tracker σ} {bs : List (Tracker σ)} {e : Edge δ σ} :
    e ∈ (State.on ⟨i, []⟩ ⟨j, b :: bs⟩).edges ↔
      b.isSkippable = true ∧ e = ⟨⟨[], ⟨i, []⟩⟩, ⟨[], ⟨j + 1, bs⟩⟩⟩ := by
  by_cases hb : b.isSkippable <;> simp [edges, forks, hb, Fork.edges]

theorem mem_edges_past_src {i j : Nat} {a : Tracker δ} {as : List (Tracker δ)} {e : Edge δ σ} :
    e ∈ (State.on ⟨i, a :: as⟩ ⟨j, []⟩).edges ↔
      a.isSkippable = true ∧ e = ⟨⟨[], ⟨i + 1, as⟩⟩, ⟨[], ⟨j, []⟩⟩⟩ := by
  by_cases ha : a.isSkippable <;> simp [edges, forks, ha, Fork.edges]

/-- The ways on from two places. -/
inductive Passage : Place δ → Place σ → Edge δ σ → Prop where
  | pastDest {i j : Nat} {b : Tracker σ} {bs : List (Tracker σ)} : b.isSkippable = true →
      Passage ⟨i, []⟩ ⟨j, b :: bs⟩ ⟨⟨[], ⟨i, []⟩⟩, ⟨[], ⟨j + 1, bs⟩⟩⟩
  | pastSrc {i j : Nat} {a : Tracker δ} {as : List (Tracker δ)} : a.isSkippable = true →
      Passage ⟨i, a :: as⟩ ⟨j, []⟩ ⟨⟨[], ⟨i + 1, as⟩⟩, ⟨[], ⟨j, []⟩⟩⟩
  | inside {i j : Nat} {a : Tracker δ} {as : List (Tracker δ)} {b : Tracker σ}
      {bs : List (Tracker σ)} {x : Move δ} {y : Move σ} :
      x ∈ Place.moves ⟨i, a :: as⟩ → y ∈ Place.moves ⟨j, b :: bs⟩ →
      (i < x.place.index ∨ j < y.place.index) → Passage ⟨i, a :: as⟩ ⟨j, b :: bs⟩ ⟨x, y⟩

/-- What an edge out of two places is, so that proofs about edges need not look at the places. -/
theorem passage_of_mem_edges {p : Place δ} {q : Place σ} {e : Edge δ σ}
    (he : e ∈ (State.on p q).edges) : Passage p q e := by
  match p, q, he with
  | ⟨i, []⟩, ⟨j, []⟩, he => cases he
  | ⟨i, []⟩, ⟨j, b :: bs⟩, he =>
    obtain ⟨hb, rfl⟩ := mem_edges_past_dest.1 he
    exact .pastDest hb
  | ⟨i, a :: as⟩, ⟨j, []⟩, he =>
    obtain ⟨ha, rfl⟩ := mem_edges_past_src.1 he
    exact .pastSrc ha
  | ⟨i, a :: as⟩, ⟨j, b :: bs⟩, he =>
    rcases mem_edges_inside.1 he with ⟨hx, hy⟩ | ⟨hx, hy⟩
    · exact .inside (List.mem_append_left _ hx) (List.mem_append_right _ hy)
        (.inr (Place.lt_index_of_mem_departures hy))
    · exact .inside (List.mem_append_right _ hx) hy
        (.inl (Place.lt_index_of_mem_departures hx))

theorem eq_on_of_finished {s : State δ σ} (h : s.outlook = .finished) :
    ∃ i j, s = .on ⟨i, []⟩ ⟨j, []⟩ := by
  match s with
  | .start _ _ => cases h
  | .on ⟨i, []⟩ ⟨j, []⟩ => exact ⟨i, j, rfl⟩
  | .on ⟨i, []⟩ ⟨j, b :: bs⟩ =>
    simp only [outlook] at h
    split at h <;> cases h
  | .on ⟨i, a :: as⟩ ⟨j, []⟩ =>
    simp only [outlook] at h
    split at h <;> cases h
  | .on ⟨i, a :: as⟩ ⟨j, b :: bs⟩ => cases h

/-- A state between two sequences. -/
inductive Fits (ds : List (Tracker δ)) (ss : List (Tracker σ)) : State δ σ → Prop where
  | start : Fits ds ss (.start ds ss)
  | on {p : Place δ} {q : Place σ} : p.Of ds → q.Of ss → Fits ds ss (.on p q)

theorem fits_target {ds : List (Tracker δ)} {ss : List (Tracker σ)} {s : State δ σ}
    {e : Edge δ σ} (hs : s.Fits ds ss) (he : e ∈ s.edges) : e.target.Fits ds ss := by
  cases hs with
  | start =>
    obtain ⟨hx, hy⟩ := mem_edges_start.1 he
    exact .on (Place.of_mem_arrivals (Nat.zero_le _) hx) (Place.of_mem_arrivals (Nat.zero_le _) hy)
  | on hp hq =>
    cases passage_of_mem_edges he with
    | pastDest _ => exact .on hp hq.advance
    | pastSrc _ => exact .on hp.advance hq
    | inside hx hy _ => exact .on (Place.of_mem_moves hp hx) (Place.of_mem_moves hq hy)

end State

/-- What is paired belongs to the two sequences; only the counts are its own. -/
structure Pairing.Of (ds : List (Tracker δ)) (ss : List (Tracker σ)) (q : Pairing δ σ) : Prop where
  dest : ∀ d ∈ q.dest, ∃ t ∈ ds, d.entry = t.entry
  src : ∀ s ∈ q.src, ∃ t ∈ ss, s.entry = t.entry

theorem Place.Of.head {ts : List (Tracker α)} {i : Nat} {a : Tracker α} {as : List (Tracker α)}
    (h : Place.Of ts ⟨i, a :: as⟩) : ∃ t ∈ ts, a.entry = t.entry := by
  obtain ⟨t, ht, hentry, _⟩ := h.cons
  exact ⟨t, List.mem_of_getElem? ht, hentry⟩

theorem Place.mem_of_mem_arrivals {i : Nat} {rest : List (Tracker α)} {mv : Move α}
    {t : Tracker α} (hmv : mv ∈ arrivals i rest) (ht : t ∈ mv.skipped) : t ∈ rest := by
  obtain ⟨js, ts, rfl, _, _, rfl⟩ := mem_arrivals.1 hmv
  rw [Move.skipped, List.reverse_reverse] at ht
  exact List.mem_append_left _ ht

theorem Place.Of.mem_of_mem_moves {ts : List (Tracker α)} {i : Nat} {a : Tracker α}
    {as : List (Tracker α)} {mv : Move α} {t : Tracker α} (h : Place.Of ts ⟨i, a :: as⟩)
    (hmv : mv ∈ Place.moves ⟨i, a :: as⟩) (ht : t ∈ mv.skipped) : t ∈ ts := by
  rcases List.mem_append.1 hmv with hmv | hmv
  · obtain ⟨_, rfl⟩ := Place.mem_stays.1 hmv
    cases ht
  · obtain ⟨_, _, _, rfl⟩ := h.cons
    exact List.mem_of_mem_drop (Place.mem_of_mem_arrivals hmv ht)

namespace State

variable {ds : List (Tracker δ)} {ss : List (Tracker σ)} {s : State δ σ}

theorem Fits.pairing (h : s.Fits ds ss) {q : Pairing δ σ} (hq : q ∈ s.pairing?) : q.Of ds ss := by
  cases h with
  | start => cases hq
  | @on p p' hp hp' =>
    match p, p', hp, hp', hq with
    | ⟨_, []⟩, ⟨_, b :: _⟩, _, hp', rfl => exact ⟨nofun, by rintro _ ⟨⟩; exact hp'.head⟩
    | ⟨_, a :: _⟩, ⟨_, []⟩, hp, _, rfl => exact ⟨by rintro _ ⟨⟩; exact hp.head, nofun⟩
    | ⟨_, a :: _⟩, ⟨_, b :: _⟩, hp, hp', rfl =>
      exact ⟨by rintro _ ⟨⟩; exact hp.head, by rintro _ ⟨⟩; exact hp'.head⟩

theorem Fits.mem_of_mem_skipped (h : s.Fits ds ss) {e : Edge δ σ} (he : e ∈ s.edges) :
    (∀ t ∈ e.dest.skipped, t ∈ ds) ∧ ∀ t ∈ e.src.skipped, t ∈ ss := by
  cases h with
  | start =>
    obtain ⟨hx, hy⟩ := mem_edges_start.1 he
    exact ⟨fun _ => Place.mem_of_mem_arrivals hx, fun _ => Place.mem_of_mem_arrivals hy⟩
  | on hp hp' =>
    cases passage_of_mem_edges he with
    | pastDest _ => exact ⟨nofun, nofun⟩
    | pastSrc _ => exact ⟨nofun, nofun⟩
    | inside hx hy _ => exact ⟨fun _ => hp.mem_of_mem_moves hx, fun _ => hp'.mem_of_mem_moves hy⟩

theorem Fits.folded (h : s.Fits ds ss) {e : Edge δ σ} (he : e ∈ s.edges) {q : Pairing δ σ}
    (hq : q ∈ e.folded s.pairing?) : q.Of ds ss := by
  obtain ⟨hdest, hsrc⟩ := h.mem_of_mem_skipped he
  simp only [Edge.folded, List.mem_append, Option.mem_toList, List.mem_map] at hq
  rcases hq with (hq | ⟨t, ht, rfl⟩) | ⟨t, ht, rfl⟩
  · exact h.pairing hq
  · exact ⟨by rintro _ ⟨⟩; exact ⟨t, hdest t ht, rfl⟩, nofun⟩
  · exact ⟨nofun, by rintro _ ⟨⟩; exact ⟨t, hsrc t ht, rfl⟩⟩

end State

end SeqAlign
