import SeqAlign.Proofs.Trail
import SeqAlign.Search.Alignment

/-!
# SeqAlign.Proofs.Groups

The groups that a search finds.

* `groupsOf`: the groups of the first dest entries, as a list of paired indices has them.
* `extend_groupsOf`: folding one more pairing of a dest item, whether that item is new or has a
  group already.
* `Collected`: at a state of a walk, the groups collected so far are those of the pairs so far.
* `IsGrouping`: what holds of the groups of an alignment.
* `alignedGroups_isGrouping`: groups that are found, with whatever options, are such groups.
-/

namespace SeqAlign

variable {ε δ σ ρ : Type}

namespace Group

theorem extend_of_ne {G : List (Group δ σ)} {d : Tracker δ}
    (h : ∀ g ∈ G, g.dest.position ≠ d.entry.position) (s : Option (Tracker σ)) :
    extend G ⟨some d, s⟩ = G ++ [⟨d.entry, (s.map Tracker.entry).toList⟩] := by
  simp only [extend]
  cases hlast : G.getLast? with
  | none =>
    obtain rfl := List.getLast?_eq_none_iff.1 hlast
    rfl
  | some g => simp only [h g (List.mem_of_getLast? hlast), if_false]

theorem extend_concat (G : List (Group δ σ)) (d : Tracker δ) (xs : List (Entry σ))
    (s : Option (Tracker σ)) :
    extend (G ++ [⟨d.entry, xs⟩]) ⟨some d, s⟩ =
      G ++ [⟨d.entry, xs ++ (s.map Tracker.entry).toList⟩] := by
  simp [extend]

theorem foldl_srcOnly (G : List (Group δ σ)) (ts : List (Tracker σ)) :
    (ts.map Pairing.srcOnly).foldl extend G = G := by
  induction ts with
  | nil => rfl
  | cons t ts ih => exact ih

end Group

section Groups

variable {ds : List (Item δ)} {ss : List (Item σ)} {P Q : List (Nat × Nat)} {k i : Nat}

/-- The src entries that are paired with one dest index. -/
def absorbedBy (ss : List (Item σ)) (P : List (Nat × Nat)) (i : Nat) : List (Entry σ) :=
  (P.filter fun x => x.1 = i).filterMap fun x => (entries ss)[x.2]?

def groupsOf (ds : List (Item δ)) (ss : List (Item σ)) (k : Nat) (P : List (Nat × Nat)) :
    List (Group δ σ) :=
  ((entries ds).take k).map fun d => ⟨d, absorbedBy ss P d.position⟩

theorem absorbedBy_append : absorbedBy ss (P ++ Q) i = absorbedBy ss P i ++ absorbedBy ss Q i := by
  simp [absorbedBy]

theorem absorbedBy_eq_nil (h : ∀ x ∈ P, x.1 ≠ i) : absorbedBy ss P i = [] := by
  have : (P.filter fun x => x.1 = i) = [] := List.filter_eq_nil_iff.2 fun x hx => by simp [h x hx]
  rw [absorbedBy, this]
  rfl

theorem position_of_mem_take {d : Entry δ} (h : d ∈ (entries ds).take k) : d.position < k := by
  obtain ⟨i, hi⟩ := List.mem_iff_getElem?.1 h
  have hlt := (List.getElem?_eq_some_iff.1 hi).1
  rw [List.length_take] at hlt
  rw [List.getElem?_take_of_lt (by omega), getElem?_entries, Option.map_eq_some_iff] at hi
  obtain ⟨item, _, rfl⟩ := hi
  simp only
  omega

theorem groupsOf_congr (h : ∀ i < k, absorbedBy ss P i = absorbedBy ss Q i) :
    groupsOf ds ss k P = groupsOf ds ss k Q :=
  List.map_congr_left fun d hd => by rw [h d.position (position_of_mem_take hd)]

theorem groupsOf_succ {item : Item δ} (h : ds[k]? = some item) :
    groupsOf ds ss (k + 1) P = groupsOf ds ss k P ++ [⟨⟨k, item⟩, absorbedBy ss P k⟩] := by
  have hk : (entries ds)[k]? = some ⟨k, item⟩ := by rw [getElem?_entries, h]; rfl
  rw [groupsOf, List.take_add_one, hk, List.map_append]
  rfl

/-- A pairing of the dest item at an index, the first one or a later one, adds the src entries
paired with it there. -/
theorem extend_groupsOf (ss : List (Item σ)) {d : Tracker δ} {s : Option (Tracker σ)}
    {item : Item δ} (hitem : ds[i]? = some item) (hd : d.entry = ⟨i, item⟩) (hk : k = i ∨ k = i + 1)
    (hP : ∀ x ∈ P, x.1 < k) (hQ : ∀ x ∈ Q, x.1 = i)
    (hs : absorbedBy ss Q i = (s.map Tracker.entry).toList) :
    Group.extend (groupsOf ds ss k P) ⟨some d, s⟩ = groupsOf ds ss (i + 1) (P ++ Q) := by
  have hbefore : groupsOf ds ss i (P ++ Q) = groupsOf ds ss i P := by
    refine groupsOf_congr fun l hl => ?_
    rw [absorbedBy_append, absorbedBy_eq_nil (P := Q), List.append_nil]
    intro x hx
    rw [hQ x hx]
    omega
  rw [groupsOf_succ hitem, hbefore, absorbedBy_append, hs]
  rcases hk with rfl | rfl
  · -- the item is new, and nothing has been paired with it
    rw [Group.extend_of_ne, absorbedBy_eq_nil fun x hx => Nat.ne_of_lt (hP x hx), hd,
      List.nil_append]
    intro g hg
    obtain ⟨e, he, rfl⟩ := List.mem_map.1 hg
    rw [hd]
    exact Nat.ne_of_lt (position_of_mem_take he)
  · -- the last group is the item's own
    rw [groupsOf_succ hitem, ← hd, Group.extend_concat]

theorem foldl_destOnly {js ts : List (Tracker δ)} (hjs : (freshTrackers ds).drop k = js ++ ts)
    (hP : ∀ x ∈ P, x.1 < k) :
    (js.map Pairing.destOnly).foldl Group.extend (groupsOf ds ss k P) =
      groupsOf ds ss (k + js.length) P := by
  induction js generalizing k with
  | nil => rfl
  | cons t js ih =>
    have hk : (freshTrackers ds)[k]? = some t := by rw [← List.head?_drop, hjs]; rfl
    have htail : (freshTrackers ds).drop (k + 1) = js ++ ts := by rw [← List.tail_drop, hjs]; rfl
    rw [getElem?_freshTrackers, Option.map_eq_some_iff] at hk
    obtain ⟨item, hitem, rfl⟩ := hk
    have hstep := extend_groupsOf ss (Q := []) (s := none) hitem
      (d := ⟨⟨k, item⟩, 0⟩) rfl (.inl rfl) hP (by simp) rfl
    rw [List.append_nil] at hstep
    rw [List.map_cons, List.foldl_cons, Pairing.destOnly, hstep,
      ih htail fun x hx => Nat.lt_succ_of_lt (hP x hx), List.length_cons, Nat.add_assoc,
      Nat.add_comm 1]

end Groups

/-- So many dest entries have a group. The one that the walk stands on has none yet, unless the walk
has stayed there. -/
def State.Grouped : State δ σ → Nat → Prop
  | .start _ _, k => k = 0
  | .on a _, k => k = a.index ∨ k = a.index + 1 ∧ a.rest ≠ []

def Collected (ds : List (Item δ)) (ss : List (Item σ)) (s : State δ σ) (P : List (Nat × Nat))
    (G : List (Group δ σ)) : Prop :=
  ∃ k, s.Grouped k ∧ (∀ x ∈ P, x.1 < k) ∧ G = groupsOf ds ss k P

section Collected

variable {p : δ → σ → Bool} {ds : List (Item δ)} {ss : List (Item σ)} {P : List (Nat × Nat)}
  {i : Nat} {a : Tracker δ} {as : List (Tracker δ)} {x : Move δ} {G : List (Group δ σ)}

theorem foldl_folded (here : Option (Pairing δ σ)) (e : Edge δ σ) :
    (e.folded here).foldl Group.extend G =
      (e.dest.skipped.map Pairing.destOnly).foldl Group.extend
        (here.toList.foldl Group.extend G) := by
  rw [Edge.folded, List.foldl_append, List.foldl_append, Group.foldl_srcOnly]

theorem collected_arrival {k : Nat} {y : Place σ}
    (hx : x ∈ Place.arrivals k ((freshTrackers ds).drop k)) (hP : ∀ z ∈ P, z.1 < k) :
    Collected ds ss (.on x.place y) P
      ((x.skipped.map Pairing.destOnly).foldl Group.extend (groupsOf ds ss k P)) := by
  obtain ⟨js, ts, hjs, _, _, rfl⟩ := Place.mem_arrivals.1 hx
  refine ⟨k + js.length, .inl rfl, ?_, ?_⟩
  · intro z hz
    exact Nat.lt_add_right _ (hP z hz)
  · rw [Move.skipped, List.reverse_reverse]
    exact foldl_destOnly hjs hP

theorem collected_move (ss : List (Item σ)) {is : List Nat} {y : Place σ}
    (h : Track ds ⟨i, a :: as⟩ is) (hx : x ∈ Place.moves ⟨i, a :: as⟩) (hP : ∀ z ∈ P, z.1 < i + 1) :
    Collected ds ss (.on x.place y) P
      ((x.skipped.map Pairing.destOnly).foldl Group.extend (groupsOf ds ss (i + 1) P)) := by
  rcases List.mem_append.1 hx with hx | hx
  · obtain ⟨_, rfl⟩ := Place.mem_stays.1 hx
    exact ⟨i + 1, .inr ⟨rfl, by simp⟩, hP, rfl⟩
  · obtain ⟨_, _, _, rfl⟩ := h.head
    exact collected_arrival hx hP

theorem collected_step {s : State δ σ} {e : Edge δ σ} (hs : Trail p ds ss s P) (he : e ∈ s.edges)
    (h : Collected ds ss s P G) :
    Collected ds ss e.target (P ++ s.met) ((e.folded s.pairing?).foldl Group.extend G) := by
  obtain ⟨k, hk, hP, rfl⟩ := h
  rw [foldl_folded]
  cases hs with
  | start =>
    obtain ⟨hx, _⟩ := State.mem_edges_start.1 he
    obtain rfl : k = 0 := hk
    exact collected_arrival hx hP
  | on hpaired =>
    cases State.passage_of_mem_edges he with
    | @pastDest i j b bs _ =>
      have hmet : P ++ (State.on (⟨i, []⟩ : Place δ) ⟨j, b :: bs⟩).met = P := List.append_nil P
      rw [hmet]
      exact ⟨k, hk, hP, rfl⟩
    | @pastSrc i j a as _ =>
      obtain ⟨item, hitem, ha, rfl⟩ := hpaired.dest.head
      have hfold := extend_groupsOf ss (Q := []) (s := none) hitem ha
        (hk.imp_right And.left) hP (by simp) rfl
      refine ⟨i + 1, .inl rfl, ?_, hfold⟩
      intro z hz
      rcases List.mem_append.1 hz with hz | hz
      · exact Nat.lt_succ_of_le (hpaired.dest.le _ (List.mem_map_of_mem hz))
      · cases hz
    | @inside i j a as b bs x y hx _ _ =>
      obtain ⟨item, hitem, ha, _⟩ := hpaired.dest.head
      obtain ⟨item', hitem', hb, _⟩ := hpaired.src.head
      have hfold := extend_groupsOf ss (Q := [(i, j)]) (s := some b) hitem ha
        (hk.imp_right And.left) hP (by simp) (by simp [absorbedBy, getElem?_entries, hitem', hb])
      have hmet (z : Nat × Nat) (hz : z ∈ P ++ [(i, j)]) : z.1 < i + 1 := by
        rcases List.mem_append.1 hz with hz | hz
        · exact Nat.lt_succ_of_le (hpaired.dest.le _ (List.mem_map_of_mem hz))
        · obtain rfl := List.mem_singleton.1 hz
          exact Nat.lt_succ_self i
      have hcollected := collected_move ss (y := y.place) hpaired.dest hx hmet
      rw [← hfold] at hcollected
      exact hcollected

theorem Collected.of_finished {s : State δ σ} (h : Collected ds ss s P G) (hs : Trail p ds ss s P)
    (hend : s.outlook = .finished) : G = groupsOf ds ss ds.length P := by
  obtain ⟨k, hk, _, rfl⟩ := h
  obtain ⟨i, j, rfl⟩ := State.eq_on_of_finished hend
  cases hs with
  | on hpaired =>
    have hi := hpaired.dest.place.nil
    rw [length_freshTrackers] at hi
    obtain rfl : k = i := hk.resolve_right fun h => h.2 rfl
    rw [hi]

end Collected

/-! ## The shape of a grouping -/

/-- One group for each dest item, in order. Read in this order the src items never go back, and
inside a group they go on; they are all related to the dest item, and every item occurs as often as
it tolerates. -/
structure IsGrouping (p : δ → σ → Bool) (ds : List (Item δ)) (ss : List (Item σ))
    (G : List (Group δ σ)) : Prop where
  dests : G.map Group.dest = entries ds
  srcs : ∀ g ∈ G, ∀ e ∈ g.absorbed, e ∈ entries ss
  ordered : (G.flatMap Group.absorbed).Pairwise fun e f => e.position ≤ f.position
  increasing : ∀ g ∈ G, g.absorbed.Pairwise fun e f => e.position < f.position
  related : ∀ g ∈ G, ∀ e ∈ g.absorbed, p g.dest.item.label e.item.label = true
  dest : ∀ g ∈ G, g.dest.item.Tolerates g.absorbed.length
  src : ∀ e ∈ entries ss,
    e.item.Tolerates (((G.flatMap Group.absorbed).map Entry.position).count e.position)

theorem filter_lt_succ {P : List (Nat × Nat)} (hP : P.Pairwise fun x y => x.1 ≤ y.1) (n : Nat) :
    (P.filter fun x => x.1 < n + 1) =
      (P.filter fun x => x.1 < n) ++ P.filter fun x => x.1 = n := by
  induction P with
  | nil => rfl
  | cons x P ih =>
    obtain ⟨hx, hP⟩ := List.pairwise_cons.1 hP
    simp only [List.filter_cons, ih hP, decide_eq_true_eq]
    rcases Nat.lt_trichotomy x.1 n with hlt | heq | hgt
    · rw [if_pos (by omega), if_pos hlt, if_neg (by omega), List.cons_append]
    · have hnil : (P.filter fun y => y.1 < n) = [] :=
        List.filter_eq_nil_iff.2 fun y hy => by simpa [← heq] using hx y hy
      rw [if_pos (by omega), if_neg (by omega), if_pos heq, hnil, List.nil_append, List.nil_append]
    · rw [if_neg (by omega), if_neg (by omega), if_neg (by omega)]

theorem flatMap_filter_range {P : List (Nat × Nat)} (hP : P.Pairwise fun x y => x.1 ≤ y.1)
    (n : Nat) : (List.range n).flatMap (fun i => P.filter fun x => x.1 = i) =
      P.filter fun x => x.1 < n := by
  induction n with
  | zero => simp
  | succ n ih =>
    rw [List.range_succ, List.flatMap_append, ih, List.flatMap_singleton, filter_lt_succ hP]

theorem flatMap_filter_eq_self {P : List (Nat × Nat)} (hP : P.Pairwise fun x y => x.1 ≤ y.1)
    {n : Nat} (hn : ∀ x ∈ P, x.1 < n) :
    (List.range n).flatMap (fun i => P.filter fun x => x.1 = i) = P := by
  rw [flatMap_filter_range hP]
  exact List.filter_eq_self.2 fun x hx => by simp [hn x hx]

section Shape

variable {p : δ → σ → Bool} {ds : List (Item δ)} {ss : List (Item σ)} {P : List (Nat × Nat)}

theorem mem_absorbedBy {i : Nat} {e : Entry σ} :
    e ∈ absorbedBy ss P i ↔ (i, e.position) ∈ P ∧ e ∈ entries ss := by
  simp only [absorbedBy, List.mem_filterMap, List.mem_filter, decide_eq_true_eq]
  constructor
  · rintro ⟨x, ⟨hx, rfl⟩, he⟩
    have hmem := List.mem_of_getElem? he
    rw [getElem?_entries, Option.map_eq_some_iff] at he
    obtain ⟨item, _, rfl⟩ := he
    exact ⟨hx, hmem⟩
  · rintro ⟨hx, he⟩
    exact ⟨_, ⟨hx, rfl⟩, by rw [getElem?_entries, mem_entries.1 he]; rfl⟩

theorem map_position_absorbedBy (h : Related p ds ss P) (i : Nat) :
    (absorbedBy ss P i).map Entry.position = (P.filter fun x => x.1 = i).map Prod.snd := by
  rw [absorbedBy, List.map_filterMap, ← List.filterMap_eq_map]
  refine List.filterMap_congr fun x hx => ?_
  obtain ⟨_, s, _, hs, _⟩ := h x (List.mem_filter.1 hx).1
  rw [getElem?_entries, hs]
  rfl

theorem length_absorbedBy (h : Related p ds ss P) (i : Nat) :
    (absorbedBy ss P i).length = (P.map Prod.fst).count i := by
  have hlength := congrArg List.length (map_position_absorbedBy h i)
  rw [List.length_map, List.length_map] at hlength
  rw [hlength, List.count, List.countP_map, List.countP_eq_length_filter]
  rfl

theorem groupsOf_length :
    groupsOf ds ss ds.length P = (entries ds).map fun d => ⟨d, absorbedBy ss P d.position⟩ := by
  rw [groupsOf, List.take_of_length_le]
  simp [entries]

theorem map_position_entries : (entries ds).map Entry.position = List.range ds.length := by
  refine List.ext_getElem? fun i => ?_
  rw [List.getElem?_map, getElem?_entries, Option.map_map]
  by_cases hi : i < ds.length
  · simp [List.getElem?_range hi, List.getElem?_eq_getElem hi]
  · simp [hi]

theorem map_position_absorbed (h : IsAlignment p ds ss P) :
    ((groupsOf ds ss ds.length P).flatMap Group.absorbed).map Entry.position = P.map Prod.snd := by
  have hrange (x : Nat × Nat) (hx : x ∈ P) : x.1 < ds.length := by
    obtain ⟨d, _, hd, _⟩ := h.related x hx
    exact (List.getElem?_eq_some_iff.1 hd).1
  calc ((groupsOf ds ss ds.length P).flatMap Group.absorbed).map Entry.position
      = (entries ds).flatMap fun d => (P.filter fun x => x.1 = d.position).map Prod.snd := by
        rw [groupsOf_length, List.flatMap_map, List.map_flatMap]
        exact List.flatMap_congr fun d _ => map_position_absorbedBy h.related d.position
    _ = (List.range ds.length).flatMap fun i => (P.filter fun x => x.1 = i).map Prod.snd := by
        rw [← map_position_entries, List.flatMap_map]
    _ = P.map Prod.snd := by
        rw [← List.map_flatMap, flatMap_filter_eq_self (h.pairwise.imp And.left) hrange]

theorem isGrouping_groupsOf (h : IsAlignment p ds ss P) :
    IsGrouping p ds ss (groupsOf ds ss ds.length P) where
  dests := by
    rw [groupsOf_length, List.map_map]
    exact List.map_id _
  srcs := by
    intro g hg e he
    obtain ⟨d, _, rfl⟩ := List.mem_map.1 hg
    exact (mem_absorbedBy.1 he).2
  ordered := by
    have hsorted : (P.map Prod.snd).Pairwise (· ≤ ·) :=
      List.pairwise_map.2 (h.pairwise.imp fun hxy => hxy.2.1)
    rw [← map_position_absorbed h] at hsorted
    exact List.pairwise_map.1 hsorted
  increasing := by
    intro g hg
    obtain ⟨d, _, rfl⟩ := List.mem_map.1 hg
    have hsorted : ((P.filter fun x => x.1 = d.position).map Prod.snd).Pairwise (· < ·) := by
      refine List.pairwise_map.2 ((h.pairwise.filter _).imp_of_mem fun {x y} hx hy hxy => ?_)
      have hx := of_decide_eq_true (List.mem_filter.1 hx).2
      have hy := of_decide_eq_true (List.mem_filter.1 hy).2
      obtain ⟨_, _, hlt⟩ := hxy
      omega
    rw [← map_position_absorbedBy h.related] at hsorted
    exact List.pairwise_map.1 hsorted
  related := by
    intro g hg e he
    rw [groupsOf_length] at hg
    obtain ⟨d, hd, rfl⟩ := List.mem_map.1 hg
    obtain ⟨hmem, he⟩ := mem_absorbedBy.1 he
    obtain ⟨d', s', hd', hs', hrel⟩ := h.related _ hmem
    cases (mem_entries.1 hd).symm.trans hd'
    cases (mem_entries.1 he).symm.trans hs'
    exact hrel
  dest := by
    intro g hg
    rw [groupsOf_length] at hg
    obtain ⟨d, hd, rfl⟩ := List.mem_map.1 hg
    rw [length_absorbedBy h.related]
    exact h.dest d.position d.item (mem_entries.1 hd)
  src := by
    intro e he
    rw [map_position_absorbed h]
    exact h.src e.position e.item (mem_entries.1 he)

end Shape

theorem grouping_foldAll (relation : δ → σ → Id Bool) (destText : δ → String) (srcText : σ → String)
    (G : List (Group δ σ)) (qs : List (Pairing δ σ)) :
    (grouping relation destText srcText).certain.foldAll G qs = .ok (qs.foldl Group.extend G) := by
  induction qs generalizing G with
  | nil => rfl
  | cons q qs ih => exact ih _

theorem alignedGroups_isGrouping {p : δ → σ → Bool} {destText : δ → String} {srcText : σ → String}
    {o : Options} {t : Tracer Id δ σ (List (Group δ σ))} {dest : List (Item δ)}
    {src : List (Item σ)} {G : List (Group δ σ)}
    (h : (alignedGroups (m := Id) (fun d s => pure (p d s)) destText srcText o t dest src).found =
      some G) : IsGrouping p dest src G := by
  obtain ⟨ks, hd⟩ := decided_of_found h
  obtain ⟨s, P, hend, hP, k, hk, _, rfl⟩ := hd.trail (p := p)
    (fun v q => congrArg Except.ok (corresponds_pure (m := Id) p q)) (V := Collected dest src) (by
      intro s P e v w hs _ he hv hf
      rw [grouping_foldAll] at hf
      obtain rfl := Except.ok.inj hf
      exact collected_step hs he hv)
    ⟨0, rfl, by simp, rfl⟩
  have halign := hP.isAlignment hend
  obtain ⟨i, j, rfl⟩ := State.eq_on_of_finished hend
  cases hP with
  | on hpaired =>
    have hi := hpaired.dest.place.nil
    rw [length_freshTrackers] at hi
    obtain rfl : k = i := hk.resolve_right fun h => h.2 rfl
    rw [hi]
    exact isGrouping_groupsOf halign

/-- Both ones go to the repeating item, and the optional three stays empty. -/
theorem isGrouping_one_one_two :
    IsGrouping (fun d s : Nat => d == s) [⟨1, .zeroOrMore⟩, .single 2, ⟨3, .optional⟩]
      [.single 1, .single 1, .single 2]
      [⟨⟨0, ⟨1, .zeroOrMore⟩⟩, [⟨0, .single 1⟩, ⟨1, .single 1⟩]⟩,
        ⟨⟨1, .single 2⟩, [⟨2, .single 2⟩]⟩, ⟨⟨2, ⟨3, .optional⟩⟩, []⟩] := by
  have hfound : (alignedGroups (m := Id) (fun d s => pure (d == s)) toString toString {} .silent
      [⟨1, .zeroOrMore⟩, .single 2, ⟨3, .optional⟩] [.single 1, .single 1, .single 2]).found =
      some [⟨⟨0, ⟨1, .zeroOrMore⟩⟩, [⟨0, .single 1⟩, ⟨1, .single 1⟩]⟩,
        ⟨⟨1, .single 2⟩, [⟨2, .single 2⟩]⟩, ⟨⟨2, ⟨3, .optional⟩⟩, []⟩] := by
    decide +kernel
  exact alignedGroups_isGrouping hfound

end SeqAlign
