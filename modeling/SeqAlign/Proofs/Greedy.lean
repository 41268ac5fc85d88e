import SeqAlign.Proofs.Cuts
import SeqAlign.Proofs.Matching

/-!
# SeqAlign.Proofs.Greedy

A search for groups is greedy: earlier dest items absorb as much as they can.

* `pairwise_edges`: where each src item occurs once, the edges out of a state are tried in the order
  of the dest index that they lead to.
* `Earliest`: no alignment gives a src item to an earlier dest item, unless it gives one before it to
  a later dest item.
* `Greedy.step`: along an edge such that no walk along the edges before it ends, the pairs so far
  stay the earliest.
* `alignedGroups_greedy`: the groups that are found are the blocks of the greatest cut.
-/

namespace SeqAlign

variable {α ε δ σ ρ : Type}

section Once

variable {p : δ → σ → Bool} {ds : List (Item δ)} {ss : List (Item σ)} {s : State δ σ}
  {e : Edge δ σ} {P : List (Nat × Nat)} {fs : List Nat} {G : List (Group δ σ)} {j : Nat}
  {b : Tracker σ} {bs : List (Tracker σ)}

theorem arrivals_once (hss : ∀ s ∈ ss, s.quantifier = .one) (k : Nat) :
    Place.arrivals k ((freshTrackers ss).drop k) = [⟨[], ⟨k, (freshTrackers ss).drop k⟩⟩] := by
  have hnone : Place.leaps [] k ((freshTrackers ss).drop k) = [] := by
    refine List.eq_nil_iff_forall_not_mem.2 fun mv hmv => ?_
    obtain ⟨js, ts, hjs, _, hrest, hall, _⟩ := Place.mem_leaps.1 hmv
    obtain ⟨t, js, rfl⟩ := List.exists_cons_of_ne_nil hjs
    have ht : (freshTrackers ss)[k]? = some t := by rw [← List.head?_drop, hrest]; rfl
    rw [getElem?_freshTrackers, Option.map_eq_some_iff] at ht
    obtain ⟨item, hitem, rfl⟩ := ht
    have hskip := hall _ List.mem_cons_self
    simp [Tracker.isSkippable, Tracker.item, hss item (List.mem_of_getElem? hitem),
      Quantifier.one] at hskip
  rw [Place.arrivals, hnone]

theorem Track.quantifier_once (hss : ∀ s ∈ ss, s.quantifier = .one) {js : List Nat}
    (h : Track ss ⟨j, b :: bs⟩ js) : b.item.quantifier = .one := by
  obtain ⟨item, hitem, hentry, _⟩ := h.head
  rw [Tracker.item, hentry]
  exact hss item (List.mem_of_getElem? hitem)

theorem Track.departures_once (hss : ∀ s ∈ ss, s.quantifier = .one) {js : List Nat}
    (h : Track ss ⟨j, b :: bs⟩ js) :
    Place.departures ⟨j, b :: bs⟩ = [⟨[], ⟨j + 1, bs⟩⟩] := by
  obtain ⟨_, _, _, rfl⟩ := h.head
  exact arrivals_once hss (j + 1)

theorem Track.stays_once (hss : ∀ s ∈ ss, s.quantifier = .one) {js : List Nat}
    (h : Track ss ⟨j, b :: bs⟩ js) : Place.stays ⟨j, b :: bs⟩ = [] := by
  have hb := h.quantifier_once hss
  refine List.eq_nil_iff_forall_not_mem.2 fun mv hmv => ?_
  obtain ⟨hmore, _⟩ := Place.mem_stays.1 hmv
  have hb' : b.matched.item.quantifier = .one := hb
  -- the count is at most one, so counting once more does not wrap
  have hle := UInt32.le_iff_toNat_le.1 (h.counted b 1 rfl (by rw [hb]; rfl)).2
  rw [Tracker.hasMore, hb'] at hmore
  have hlt := UInt32.lt_iff_toNat_lt.1 (of_decide_eq_true hmore)
  simp only [Tracker.matched, UInt32.toNat_add, UInt32.toNat_one] at hlt hle
  omega

theorem pairs_singleton (xs : List (Move δ)) (y : Move σ) :
    pairs xs [y] = xs.map fun x => ⟨x, y⟩ := by
  simp only [pairs, List.flatMap_singleton, List.map_eq_flatMap]

theorem pairwise_edges (hss : ∀ s ∈ ss, s.quantifier = .one) (h : Trail p ds ss s P) :
    s.edges.Pairwise fun e f => e.dest.place.index < f.dest.place.index := by
  cases h with
  | start =>
    have hsrc := arrivals_once hss 0
    rw [List.drop_zero] at hsrc
    rw [State.edges_start, hsrc, pairs_singleton]
    exact List.pairwise_map.2 (Place.pairwise_arrivals 0 _)
  | @on a b P h =>
    match a, b, h with
    | ⟨i, []⟩, ⟨j, []⟩, _ => exact .nil
    | ⟨i, []⟩, ⟨j, b :: bs⟩, _ =>
      simp only [State.edges, State.forks]
      split <;> simp [Fork.edges]
    | ⟨i, a :: as⟩, ⟨j, []⟩, _ =>
      simp only [State.edges, State.forks]
      split <;> simp [Fork.edges]
    | ⟨i, a :: as⟩, ⟨j, b :: bs⟩, h =>
      rw [State.edges_inside, Place.moves, h.src.stays_once hss, h.src.departures_once hss,
        List.nil_append, pairs_singleton, pairs_singleton, ← List.map_append]
      exact List.pairwise_map.2 (Place.pairwise_moves i a as)

theorem srcIndex_target (hss : ∀ s ∈ ss, s.quantifier = .one) (h : Trail p ds ss s P)
    (he : e ∈ s.edges) :
    e.target.srcIndex.toNat = s.srcIndex.toNat + s.met.length := by
  cases h with
  | start =>
    obtain ⟨_, hy⟩ := State.mem_edges_start.1 he
    have hsrc := arrivals_once hss 0
    rw [List.drop_zero] at hsrc
    rw [hsrc] at hy
    rw [Edge.target, List.mem_singleton.1 hy]
    rfl
  | on h =>
    cases State.passage_of_mem_edges he with
    | pastDest hb => simp [Tracker.isSkippable, h.src.quantifier_once hss, Quantifier.one] at hb
    | pastSrc _ => rfl
    | inside _ hy _ =>
      rw [Place.moves, h.src.stays_once hss, h.src.departures_once hss, List.nil_append] at hy
      rw [Edge.target, List.mem_singleton.1 hy]
      rfl

/-! ## The earliest pairs -/

/-- No alignment gives a src item to an earlier dest item than these do, before it gives one to a
later dest item. -/
def Earliest (p : δ → σ → Bool) (ds : List (Item δ)) (ss : List (Item σ)) (fs : List Nat) : Prop :=
  ∀ gs, IsAlignment p ds ss gs.zipIdx → ¬ Before gs fs

/-- What holds along the first walk: each src item so far has been taken, and none of them could
have been taken earlier. -/
structure Greedy (p : δ → σ → Bool) (ds : List (Item δ)) (ss : List (Item σ)) (s : State δ σ)
    (fs : List Nat) (G : List (Group δ σ)) : Prop where
  trail : Trail p ds ss s fs.zipIdx
  taken : s.srcIndex.toNat = fs.length
  collected : Collected ds ss s fs.zipIdx G
  earliest : Earliest p ds ss (fs ++ s.met.map Prod.fst)

theorem State.met_eq (s : State δ σ) :
    s.met = [] ∨ s.met = [(s.destIndex.toNat, s.srcIndex.toNat)] := by
  match s with
  | .start _ _ => exact .inl rfl
  | .on ⟨_, []⟩ _ => exact .inl rfl
  | .on ⟨_, _ :: _⟩ ⟨_, []⟩ => exact .inl rfl
  | .on ⟨_, _ :: _⟩ ⟨_, _ :: _⟩ => exact .inr rfl

theorem Greedy.zipIdx_met (h : Greedy p ds ss s fs G) :
    fs.zipIdx ++ s.met = (fs ++ s.met.map Prod.fst).zipIdx := by
  rw [List.zipIdx_append]
  rcases s.met_eq with hmet | hmet
  · rw [hmet]
    rfl
  · rw [hmet, h.taken]
    simp

theorem Greedy.exists_edge {S : Strategy (Except Empty) δ σ ρ} (hS : S.Asks p)
    (h : Greedy p ds ss s fs G) (he : e ∈ s.edges) (hmet : e.target.met ≠ []) {y : Nat}
    {ys : List Nat} (hal : IsAlignment p ds ss (fs ++ s.met.map Prod.fst ++ y :: ys).zipIdx) :
    ∃ e' ∈ s.edges, e'.dest.place.index = y ∧ S.Ends e'.target := by
  obtain ⟨Q, hal⟩ : ∃ Q, IsAlignment p ds ss
      (fs.zipIdx ++ s.met ++ (y, s.srcIndex.toNat + s.met.length) :: Q) := by
    rw [List.zipIdx_append, ← h.zipIdx_met, List.zipIdx_cons, List.length_append, List.length_map,
      Nat.zero_add, ← h.taken] at hal
    exact ⟨_, hal⟩
  have htrail := h.trail
  generalize fs.zipIdx = P at htrail hal
  cases htrail with
  | start =>
    obtain ⟨e', he', a, as, b, bs, htarget, hnext⟩ := exists_edge_start hal
    obtain ⟨hdest, _⟩ := State.on.inj htarget
    refine ⟨e', he', congrArg Place.index hdest, ?_⟩
    rw [htarget]
    exact ends_paired hS hnext hal
  | on hpaired =>
    cases State.passage_of_mem_edges he with
    | pastDest _ => exact absurd rfl hmet
    | @pastSrc i j a as _ => cases as <;> exact absurd rfl hmet
    | @inside i j a as b bs _ _ _ _ _ =>
      have hnext : IsAlignment p ds ss (P ++ (i, j) :: (y, j + 1) :: Q) := by
        rw [List.append_assoc] at hal
        exact hal
      obtain ⟨e', he', a', as', b', bs', htarget, hnext'⟩ := hpaired.exists_edge hnext
      obtain ⟨hdest, _⟩ := State.on.inj htarget
      refine ⟨e', he', congrArg Place.index hdest, ?_⟩
      rw [htarget]
      exact ends_paired hS hnext' hal

/-- Along the first edge from which a walk ends, the next src item is taken as early as possible. -/
theorem Greedy.step {S : Strategy (Except Empty) δ σ ρ} (hS : S.Asks p)
    (hss : ∀ s ∈ ss, s.quantifier = .one) (h : Greedy p ds ss s fs G)
    (hs : ∀ q ∈ s.pairing?, q.accepts p = true) {before after : List (Edge δ σ)}
    (hsplit : s.edges = before ++ e :: after) (hbefore : ∀ e' ∈ before, ¬ S.Ends e'.target) :
    Greedy p ds ss e.target (fs ++ s.met.map Prod.fst)
      ((e.folded s.pairing?).foldl Group.extend G) := by
  have he : e ∈ s.edges := by
    rw [hsplit]
    exact List.mem_append_right _ List.mem_cons_self
  refine ⟨?_, ?_, ?_, ?_⟩
  · rw [← h.zipIdx_met]
    exact h.trail.step hs he
  · rw [srcIndex_target hss h.trail he, h.taken, List.length_append, List.length_map]
  · rw [← h.zipIdx_met]
    exact collected_step h.trail he h.collected
  · intro gs hgs
    rcases e.target.met_eq with hmet | hmet
    · rw [hmet, List.map_nil, List.append_nil]
      exact h.earliest gs hgs
    · rw [hmet]
      refine not_before_concat (h.earliest gs hgs) ?_
      rintro y ys hlt rfl
      obtain ⟨e', he', rfl, hends⟩ := h.exists_edge hS he (by simp [hmet]) hgs
      have hsorted := pairwise_edges hss h.trail
      rw [hsplit] at he' hsorted
      obtain ⟨_, hafter, _⟩ := List.pairwise_append.1 hsorted
      rcases List.mem_append.1 he' with hmem | hmem
      · exact hbefore e' hmem hends
      · -- the edge would come later, though it leads to a lower dest index
        have hle : e.dest.place.index ≤ e'.dest.place.index := by
          rcases List.mem_cons.1 hmem with rfl | hmem
          · exact Nat.le_refl _
          · exact Nat.le_of_lt ((List.pairwise_cons.1 hafter).1 e' hmem)
        exact Nat.not_lt_of_le hle hlt

theorem Trail.srcIndex_of_finished (h : Trail p ds ss s P) (hend : s.outlook = .finished) :
    s.srcIndex.toNat = ss.length := by
  obtain ⟨i, j, rfl⟩ := State.eq_on_of_finished hend
  cases h with
  | on hpaired =>
    have hj := hpaired.src.place.nil
    rw [length_freshTrackers] at hj
    exact hj

theorem exists_earliest {S : Strategy (Except Empty) δ σ (List (Group δ σ))} (hS : S.Asks p)
    (hfold : ∀ G qs, S.foldAll G qs = .ok (qs.foldl Group.extend G))
    (hss : ∀ s ∈ ss, s.quantifier = .one)
    (h : IsFirst (Decided S S.graph (.start (freshTrackers ds) (freshTrackers ss)) []) (.ok G)) :
    ∃ fs, fs.length = ss.length ∧ IsAlignment p ds ss fs.zipIdx ∧ Earliest p ds ss fs ∧
      G = groupsOf ds ss ds.length fs.zipIdx := by
  have hstart : Greedy p ds ss (.start (freshTrackers ds) (freshTrackers ss)) [] [] := by
    refine ⟨.start, rfl, ⟨0, rfl, by simp, rfl⟩, ?_⟩
    rintro gs _ ⟨rs, x, y, xs, ys, _, _, hnil⟩
    cases (List.append_eq_nil_iff.1 hnil.symm).2
  obtain ⟨s, hend, fs, hgreedy⟩ := Strategy.isFirst_invariant
    (I := fun s G => ∃ fs, Greedy p ds ss s fs G) (by
      rintro s G e before after G' ⟨fs, hgreedy⟩ hopen hsplit hnone hf
      rw [hfold] at hf
      obtain rfl := Except.ok.inj hf
      refine ⟨_, hgreedy.step hS hss ((hS.opens G s.pairing?).1 hopen) hsplit ?_⟩
      intro e' he' hends
      obtain ⟨k, hk⟩ := List.mem_iff_getElem?.1 he'
      obtain ⟨ks, w, hd⟩ := hends ((e'.folded s.pairing?).foldl Group.extend G)
      exact hnone (k :: ks) _ ⟨e', hk, .inr ⟨_, hfold _ _, hd⟩⟩)
    h ⟨[], hstart⟩
  refine ⟨fs, ?_, hgreedy.trail.isAlignment hend, ?_,
    hgreedy.collected.of_finished hgreedy.trail hend⟩
  · rw [← hgreedy.taken, hgreedy.trail.srcIndex_of_finished hend]
  · obtain ⟨i, j, rfl⟩ := State.eq_on_of_finished hend
    have hmet : fs ++ (State.on (⟨i, []⟩ : Place δ) (⟨j, []⟩ : Place σ)).met.map Prod.fst = fs :=
      List.append_nil fs
    rw [← hmet]
    exact hgreedy.earliest

theorem greatest_of_earliest (hss : ∀ s ∈ ss, s.quantifier = .one) (hfs : fs.length = ss.length)
    (hal : IsAlignment p ds ss fs.zipIdx) (hearliest : Earliest p ds ss fs) {sizes : List Nat}
    (hcut : IsCut p ds ss sizes) :
    sizes ≤ groupSizes (groupsOf ds ss ds.length fs.zipIdx) := by
  have hcut' := (isGrouping_groupsOf hal).isCut (flatMap_absorbed_groupsOf hal hfs)
  refine not_lt.1 fun hlt => ?_
  have hlength : sizes.length = ds.length := hcut.tolerated.length_eq.symm
  refine hearliest _ (hcut.isAlignment hss) ?_
  have hbefore := before_takers (hcut'.tolerated.length_eq.symm.trans hlength.symm)
    (hcut'.sum.trans hcut.sum.symm) hlt
  rwa [← takers_groupsOf hal] at hbefore

end Once

section Search

variable {p : δ → σ → Bool} (destText : δ → String) (srcText : σ → String)

theorem certain_grouping :
    (grouping (m := Id) (fun d s => pure (p d s)) destText srcText).certain =
      grouping (m := Except Empty) (fun d s => pure (p d s)) destText srcText := by
  rw [Strategy.certain, Strategy.mk.injEq]
  refine ⟨?_, ?_, rfl, rfl⟩
  · funext G q
    exact (congrArg Except.ok (corresponds_pure (m := Id) p q)).trans
      (corresponds_pure (m := Except Empty) p q).symm
  · funext G q
    rfl

/-- Where each src item occurs exactly once, groups are found if and only if src can be cut into
blocks, and then the groups are the blocks of the cut with the greatest sizes. -/
theorem alignedGroups_greedy (b : Bool) (t : Tracer Id δ σ (List (Group δ σ)))
    (dest : List (Item δ)) (src : List (Item σ)) (hsrc : ∀ s ∈ src, s.quantifier = .one) :
    let found := (alignedGroups (m := Id) (fun d s => pure (p d s)) destText srcText
      { memoize := b } t dest src).found
    (found = none ↔ ¬ ∃ sizes, IsCut p dest src sizes) ∧
      ∀ G, found = some G →
        IsCut p dest src (groupSizes G) ∧
          (∀ sizes, IsCut p dest src sizes → sizes ≤ groupSizes G) ∧
            G = (entries dest).zipWith Group.mk ((groupSizes G).splitLengths (entries src)) := by
  have hdigest := grouping_digestsFuture (fun d s => (pure (p d s) : Except Empty Bool)) destText
    srcText []
  rw [← certain_grouping] at hdigest
  intro found
  have hfound : found = (search (grouping (m := Id) (fun d s => pure (p d s)) destText srcText) {} t
      (freshTrackers dest) (freshTrackers src) []).found :=
    found_memoize _ b t _ _ _ hdigest
  obtain ⟨log, u, l, hrun, hsearch⟩ := exists_run_certain
    (grouping (m := Id) (fun d s => pure (p d s)) destText srcText) {} t (freshTrackers dest)
    (freshTrackers src) []
  rw [hfound, hsearch]
  have hasks : (grouping (m := Id) (fun d s => pure (p d s)) destText srcText).certain.Asks p :=
    fun v q => congrArg Except.ok (corresponds_pure (m := Id) p q)
  have hfirst := hrun.isFirst rfl
  cases u with
  | none =>
    have hnone := hfirst (hrun.not_limitReached rfl rfl rfl)
    refine ⟨iff_of_true rfl ?_, fun G hG => by cases hG⟩
    rintro ⟨sizes, hcut⟩
    obtain ⟨ks, w, hd⟩ := ends_start hasks (hcut.isAlignment hsrc) []
    exact hnone ks _ hd
  | some G =>
    obtain ⟨fs, hfs, hal, hearliest, rfl⟩ :=
      exists_earliest hasks (grouping_foldAll _ destText srcText) hsrc hfirst
    have hgrouping := isGrouping_groupsOf hal
    have hall := flatMap_absorbed_groupsOf hal hfs
    have hcut := hgrouping.isCut hall
    refine ⟨iff_of_false (by simp) fun h => h ⟨_, hcut⟩, ?_⟩
    rintro G hG
    obtain rfl := Option.some.inj hG
    exact ⟨hcut, fun sizes => greatest_of_earliest hsrc hfs hal hearliest,
      hgrouping.eq_zipWith hall⟩

end Search

/-- The first item leaves one to the second, which cannot do without, and nothing to the third. -/
theorem greatest_two_one_zero :
    IsCut (fun d s : Nat => d == s) [⟨1, .zeroOrMore⟩, ⟨1, .oneOrMore⟩, ⟨1, .optional⟩]
        [.single 1, .single 1, .single 1] [2, 1, 0] ∧
      ∀ sizes, IsCut (fun d s : Nat => d == s) [⟨1, .zeroOrMore⟩, ⟨1, .oneOrMore⟩, ⟨1, .optional⟩]
        [.single 1, .single 1, .single 1] sizes → sizes ≤ [2, 1, 0] := by
  have hsrc : ∀ s ∈ [Item.single 1, .single 1, .single 1], s.quantifier = .one := by
    decide
  have hfound : (alignedGroups (m := Id) (fun d s => pure (d == s)) toString toString
      { memoize := false } .silent [⟨1, .zeroOrMore⟩, ⟨1, .oneOrMore⟩, ⟨1, .optional⟩]
      [.single 1, .single 1, .single 1]).found =
      some [⟨⟨0, ⟨1, .zeroOrMore⟩⟩, [⟨0, .single 1⟩, ⟨1, .single 1⟩]⟩,
        ⟨⟨1, ⟨1, .oneOrMore⟩⟩, [⟨2, .single 1⟩]⟩, ⟨⟨2, ⟨1, .optional⟩⟩, []⟩] := by
    decide +kernel
  obtain ⟨hcut, hgreatest, _⟩ := (alignedGroups_greedy toString toString false .silent
    [⟨1, .zeroOrMore⟩, ⟨1, .oneOrMore⟩, ⟨1, .optional⟩] _ hsrc).2 _ hfound
  exact ⟨hcut, hgreatest⟩

end SeqAlign
