import SeqAlign.Proofs.Agreement
import SeqAlign.Proofs.Recording

/-!
# SeqAlign.Proofs.Maxima

Maxima in the search for a common sequence, which never looks at a count before it pairs two items.

* `Tracker.Ready`: not matched yet, or open to one more match. What a walk stands on is ready
  (`State.Ready`), and every edge keeps it.
* `hasAlignment_agrees_alignedMerge`: so without maxima of zero it makes no difference that nobody
  looks at the counts, and sequences match if and only if a common sequence is found.
* `Paced items p is`: a walk that stands at `p` and never looks at a count may have paired the
  indices `is`, each as often as its item lets through (`Item.LetsThrough`).
* `alignedMerge_keepsMaxima`: so every maximum but zero is kept.
-/

namespace SeqAlign

variable {α γ δ σ : Type}

/-- Not matched yet, or open to one more match. -/
def Tracker.Ready (t : Tracker α) : Prop := t.count = 0 ∨ t.hasMore = true

theorem Tracker.Ready.hasMore {t : Tracker α} (h : t.Ready)
    (hmax : t.item.quantifier.max ≠ some 0) : t.hasMore = true := by
  rcases h with hcount | hmore
  · cases hm : t.item.quantifier.max with
    | none => simp [Tracker.hasMore, hm]
    | some m =>
      have hne : m ≠ 0 := by
        rintro rfl
        exact hmax hm
      simpa [Tracker.hasMore, hm, hcount] using UInt32.pos_iff_ne_zero.2 hne
  · exact hmore

def Place.Ready (p : Place α) : Prop := ∀ t ∈ p.tracker?, t.Ready

def State.Ready : State δ σ → Prop
  | .start _ _ => True
  | .on p q => p.Ready ∧ q.Ready

theorem Place.ready_of_arrival {items : List (Item α)} {k : Nat} {mv : Move α}
    (hmv : mv ∈ arrivals k ((freshTrackers items).drop k)) : mv.place.Ready := by
  intro t ht
  obtain ⟨item, _, rfl⟩ := fresh_of_arrival hmv ht
  exact .inl rfl

theorem Place.Of.ready_of_move {items : List (Item α)} {i : Nat} {a : Tracker α}
    {as : List (Tracker α)} {mv : Move α} (h : Place.Of (freshTrackers items) ⟨i, a :: as⟩)
    (hmv : mv ∈ Place.moves ⟨i, a :: as⟩) : mv.place.Ready := by
  rcases List.mem_append.1 hmv with hmv | hmv
  · obtain ⟨hmore, rfl⟩ := Place.mem_stays.1 hmv
    rintro _ ⟨⟩
    exact .inr hmore
  · obtain ⟨_, _, _, rfl⟩ := h.cons
    exact Place.ready_of_arrival hmv

theorem Place.Of.ready_of_leave {items : List (Item α)} {i : Nat} {a : Tracker α}
    {as : List (Tracker α)} (h : Place.Of (freshTrackers items) ⟨i, a :: as⟩) :
    Place.Ready ⟨i + 1, as⟩ := by
  obtain ⟨_, _, _, rfl⟩ := h.cons
  have hmv : (⟨[], ⟨i + 1, _⟩⟩ : Move α) ∈
      Place.arrivals (i + 1) ((freshTrackers items).drop (i + 1)) := List.mem_cons_self
  exact Place.ready_of_arrival hmv

section Ready

variable {dest : List (Item δ)} {src : List (Item σ)} {s : State δ σ}

theorem State.Ready.target (h : s.Ready) (hs : s.Fits (freshTrackers dest) (freshTrackers src))
    {e : Edge δ σ} (he : e ∈ s.edges) : e.target.Ready := by
  cases hs with
  | start =>
    obtain ⟨hx, hy⟩ := State.mem_edges_start.1 he
    exact ⟨Place.ready_of_arrival hx, Place.ready_of_arrival hy⟩
  | on hp hq =>
    cases State.passage_of_mem_edges he with
    | pastDest _ => exact ⟨h.1, hq.ready_of_leave⟩
    | pastSrc _ => exact ⟨hp.ready_of_leave, h.2⟩
    | inside hx hy _ => exact ⟨hp.ready_of_move hx, hq.ready_of_move hy⟩

end Ready

section Agreement

/-- The merge is defined on two items where the relation holds, and on an item alone that need not
occur. -/
structure Merging.Follows (p : δ → σ → Bool)
    (merge : Option (Item δ) → Option (Item σ) → Option (Item γ)) (dest : List (Item δ))
    (src : List (Item σ)) : Prop where
  both : ∀ d ∈ dest, ∀ s ∈ src, (merge (some d) (some s)).isSome = p d.label s.label
  destOnly : ∀ d ∈ dest, d.quantifier.min = 0 → (merge (some d) none).isSome = true
  srcOnly : ∀ s ∈ src, s.quantifier.min = 0 → (merge none (some s)).isSome = true

variable {p : δ → σ → Bool} {merge : Option (Item δ) → Option (Item σ) → Option (Item γ)}
  {dest : List (Item δ)} {src : List (Item σ)}

theorem Merging.Follows.accepts_eq_hasCommon (h : Merging.Follows p merge dest src)
    (hdest : ∀ d ∈ dest, d.quantifier.max ≠ some 0) (hsrc : ∀ s ∈ src, s.quantifier.max ≠ some 0)
    {x : State δ σ} {ph : Phase} {q : Pairing δ σ}
    (hx : x.Fits (freshTrackers dest) (freshTrackers src)) (hready : x.Ready)
    (ho : x.outlook = .onward ph) (hq : q ∈ x.pairing?) : q.accepts p = q.hasCommon merge := by
  obtain ⟨hqd, hqs⟩ := hx.pairing hq
  match x, hready, ho, hq with
  | .on ⟨_, []⟩ ⟨_, b :: _⟩, _, ho, rfl =>
    have hb : b.isSkippable = true := by
      by_contra hb
      simp [State.outlook, hb] at ho
    have hcommon := h.srcOnly b.item (item_mem_of_entry (hqs b rfl))
      (by simpa [Tracker.isSkippable] using hb)
    exact hb.trans hcommon.symm
  | .on ⟨_, a :: _⟩ ⟨_, []⟩, _, ho, rfl =>
    have ha : a.isSkippable = true := by
      by_contra ha
      simp [State.outlook, ha] at ho
    have hcommon := h.destOnly a.item (item_mem_of_entry (hqd a rfl))
      (by simpa [Tracker.isSkippable] using ha)
    exact ha.trans hcommon.symm
  | .on ⟨_, a :: _⟩ ⟨_, b :: _⟩, ⟨ha, hb⟩, _, rfl =>
    have hmema := item_mem_of_entry (hqd a rfl)
    have hmemb := item_mem_of_entry (hqs b rfl)
    have hmorea := (ha a rfl).hasMore (hdest _ hmema)
    have hmoreb := (hb b rfl).hasMore (hsrc _ hmemb)
    calc (Pairing.both a b).accepts p = p a.label b.label := by
          simp [Pairing.accepts, Pairing.both, hmorea, hmoreb]
      _ = (merge (some a.item) (some b.item)).isSome := (h.both _ hmema _ hmemb).symm

/-- Where no maximum is zero, the search for a common sequence goes through the states of the search
for an alignment. -/
theorem hasAlignment_agrees_alignedMerge [DecidableEq γ] (p : δ → σ → Bool)
    (merge : Option (Item δ) → Option (Item σ) → Option (Item γ)) (text : γ → String) (o : Options)
    (t : Tracer Id δ σ Bool) (t' : Tracer Id δ σ (List (Item γ))) (dest : List (Item δ))
    (src : List (Item σ)) (hdest : ∀ d ∈ dest, d.quantifier.max ≠ some 0)
    (hsrc : ∀ s ∈ src, s.quantifier.max ≠ some 0) (hmerge : Merging.Follows p merge dest src) :
    let merged : Outcome (List (Item γ)) :=
      alignedMerge (m := Id) (fun d s => pure (merge d s)) text o t' dest src
    hasAlignment (m := Id) (fun d s => pure (p d s)) o t dest src =
      (merged.found.isSome, merged.stats) := by
  intro merged
  have hmirrors : (existence (m := Id) fun d s => pure (p d s)).certain.Mirrors
      (commonSequence (m := Id) (fun d s => pure (merge d s)) text).certain
      (fun x _ _ => x.Fits (freshTrackers dest) (freshTrackers src) ∧ x.Ready) := by
    refine ⟨fun _ _ _ _ => rfl, ?_, ?_⟩
    · rintro x v w ph ⟨hx, hready⟩ ho
      cases hq : x.pairing? with
      | none => exact .done rfl
      | some q =>
        have hsame := hmerge.accepts_eq_hasCommon hdest hsrc hx hready ho hq
        exact .done ((corresponds_pure (m := Id) p q).trans hsame)
    · rintro x v w e ⟨hx, hready⟩ _ he
      exact together_of_certain fun _ _ _ _ => ⟨State.fits_target hx he, hready.target hx he⟩
  obtain ⟨hstats, hfound⟩ := search_mirrors hmirrors o t t' (freshTrackers dest)
    (freshTrackers src) false [] ⟨.start, trivial⟩
  rw [hasAlignment_eq, hstats]
  exact congrArg (·, merged.stats) (isSome_eq_of_rel hfound)

/-- Hulls of equal numbers, with dead ends remembered. -/
theorem agrees_hull_one_two :
    Merging.Follows (fun a b : Nat => a == b) Merging.hull [⟨1, .zeroOrMore⟩, .single 2]
        [.single 1, ⟨1, .upTo 3⟩, .single 2] ∧
      hasAlignment (m := Id) (fun a b : Nat => pure (a == b)) { memoize := true } .silent
          [⟨1, .zeroOrMore⟩, .single 2] [.single 1, ⟨1, .upTo 3⟩, .single 2] =
        let merged : Outcome (List (Item Nat)) :=
          alignedMerge (m := Id) (fun d s => pure (Merging.hull d s)) toString { memoize := true }
            .silent [⟨1, .zeroOrMore⟩, .single 2] [.single 1, ⟨1, .upTo 3⟩, .single 2]
        (merged.found.isSome, merged.stats) := by
  have hfollows : Merging.Follows (fun a b : Nat => a == b) Merging.hull
      [⟨1, .zeroOrMore⟩, .single 2] [.single 1, ⟨1, .upTo 3⟩, .single 2] :=
    ⟨by decide, by decide, by decide⟩
  exact ⟨hfollows,
    hasAlignment_agrees_alignedMerge _ _ _ _ _ _ _ _ (by decide) (by decide) hfollows⟩

end Agreement

/-! ## How often an item is paired -/

/-- As often as the quantifier says, if a maximum of zero is read as one. -/
def Item.LetsThrough (item : Item α) (times : Nat) : Prop :=
  (∀ m, item.quantifier.max = some m → times ≤ max 1 m.toNat) ∧
    (times = 0 → item.quantifier.min = 0)

def Pairing.indices? : Pairing δ σ → Option (Nat × Nat)
  | ⟨some d, some s⟩ => some (d.entry.position, s.entry.position)
  | _ => none

/-- The indices of the items that have been folded together, in order. -/
def foldedTogether (folded : List (Pairing δ σ)) : List (Nat × Nat) :=
  folded.filterMap Pairing.indices?

/-- At a place of one side, the walk may have paired these indices. Nobody has looked at the counts,
but the tracker that the walk stands on has kept one. -/
structure Paced (items : List (Item α)) (p : Place α) (is : List Nat) : Prop where
  place : p.Of (freshTrackers items)
  ready : p.Ready
  le : ∀ i ∈ is, i ≤ p.index
  bounded : ∀ i item m, items[i]? = some item → item.quantifier.max = some m →
    is.count i ≤ max 1 m.toNat
  required : ∀ i item, i < p.index → items[i]? = some item → i ∉ is → item.quantifier.min = 0
  counted : ∀ t m, p.tracker? = some t → t.item.quantifier.max = some m →
    t.count.toNat = is.count p.index

namespace Paced

variable {items : List (Item α)} {is : List Nat} {i : Nat} {t : Tracker α}
  {ts : List (Tracker α)} {mv : Move α}

theorem arrive {k : Nat} (hk : k ≤ items.length) (hlt : ∀ i ∈ is, i < k)
    (hbounded : ∀ i item m, items[i]? = some item → item.quantifier.max = some m →
      is.count i ≤ max 1 m.toNat)
    (hrequired : ∀ i item, i < k → items[i]? = some item → i ∉ is → item.quantifier.min = 0)
    (hmv : mv ∈ Place.arrivals k ((freshTrackers items).drop k)) : Paced items mv.place is := by
  have hle := Place.le_index_of_mem_arrivals hmv
  refine ⟨Place.of_mem_arrivals (length_freshTrackers items ▸ hk) hmv,
    Place.ready_of_arrival hmv, ?_, hbounded, ?_, ?_⟩
  · intro i hi
    exact Nat.le_trans (Nat.le_of_lt (hlt i hi)) hle
  · intro i item hi hitem hnot
    by_cases hik : i < k
    · exact hrequired i item hik hitem hnot
    · exact min_eq_zero_of_jumped hmv (Nat.le_of_not_lt hik) hi hitem
  · intro t m ht _
    obtain ⟨item, _, rfl⟩ := fresh_of_arrival hmv ht
    rw [Track.count_eq_zero hlt hle]
    rfl

theorem fresh (hmv : mv ∈ Place.arrivals 0 (freshTrackers items)) : Paced items mv.place [] :=
  arrive (Nat.zero_le _) (by simp) (by simp) (fun i _ hi => absurd hi (Nat.not_lt_zero i)) hmv

theorem toNat_count_matched (h : Paced items ⟨i, t :: ts⟩ is) {m : UInt32}
    (hm : t.item.quantifier.max = some m) : t.matched.count.toNat = t.count.toNat + 1 := by
  rcases h.ready t rfl with hcount | hmore
  · simp [Tracker.matched, hcount]
  · exact Tracker.toNat_count_matched hm hmore

theorem bounded_concat (h : Paced items ⟨i, t :: ts⟩ is) {k : Nat} {item : Item α} {m : UInt32}
    (hitem : items[k]? = some item) (hm : item.quantifier.max = some m) :
    (is ++ [i]).count k ≤ max 1 m.toNat := by
  rw [List.count_append]
  by_cases hk : i = k
  · subst hk
    obtain ⟨item', hitem', hentry, _⟩ := h.place.item
    cases hitem.symm.trans hitem'
    have hmt : t.item.quantifier.max = some m := by rw [Tracker.item, hentry, hm]
    have hcount := h.counted t m rfl hmt
    simp only at hcount
    rw [List.count_singleton_self, ← hcount]
    rcases h.ready t rfl with hzero | hmore
    · rw [hzero]
      exact Nat.le_max_left 1 m.toNat
    · simp only [Tracker.hasMore, hmt, decide_eq_true_eq, UInt32.lt_iff_toNat_lt] at hmore
      omega
  · rw [List.count_singleton, if_neg (by simpa using hk)]
    exact h.bounded k item m hitem hm

theorem required_concat (h : Paced items ⟨i, t :: ts⟩ is) {k : Nat} {item : Item α}
    (hk : k < i + 1) (hitem : items[k]? = some item) (hnot : k ∉ is ++ [i]) :
    item.quantifier.min = 0 := by
  simp only [List.mem_append, List.mem_singleton, not_or] at hnot
  exact h.required k item (by simp only; omega) hitem hnot.1

theorem depart (h : Paced items ⟨i, t :: ts⟩ is) (hmv : mv ∈ Place.departures ⟨i, t :: ts⟩) :
    Paced items mv.place (is ++ [i]) := by
  obtain ⟨item, hitem, _, rfl⟩ := h.place.item
  exact arrive (List.getElem?_eq_some_iff.1 hitem).1
    (fun k hk => Nat.lt_succ_of_le (le_of_mem_concat h.le k hk)) (fun _ _ _ => h.bounded_concat)
    (fun _ _ => h.required_concat) hmv

theorem stay (h : Paced items ⟨i, t :: ts⟩ is) (hmv : mv ∈ Place.stays ⟨i, t :: ts⟩) :
    Paced items mv.place (is ++ [i]) := by
  have hplace := Place.of_mem_moves h.place (List.mem_append_left _ hmv)
  have hready := h.place.ready_of_move (List.mem_append_left _ hmv)
  obtain ⟨_, rfl⟩ := Place.mem_stays.1 hmv
  refine ⟨hplace, hready, le_of_mem_concat h.le, fun _ _ _ => h.bounded_concat, ?_, ?_⟩
  · intro k item hk hitem hnot
    exact h.required_concat (Nat.lt_succ_of_lt hk) hitem hnot
  · intro u m hu hm
    obtain rfl := Option.some.inj hu
    have hcount := h.counted t m rfl hm
    simp only at hcount
    rw [h.toNat_count_matched hm, hcount, List.count_append, List.count_singleton_self]

theorem move (h : Paced items ⟨i, t :: ts⟩ is) (hmv : mv ∈ Place.moves ⟨i, t :: ts⟩) :
    Paced items mv.place (is ++ [i]) := by
  rcases List.mem_append.1 hmv with hmv | hmv
  · exact h.stay hmv
  · exact h.depart hmv

theorem leave (h : Paced items ⟨i, t :: ts⟩ is) (hskip : t.isSkippable = true) :
    Paced items ⟨i + 1, ts⟩ is := by
  obtain ⟨item, hitem, hentry, rfl⟩ := h.place.item
  have hmv : (⟨[], ⟨i + 1, (freshTrackers items).drop (i + 1)⟩⟩ : Move α) ∈
      Place.arrivals (i + 1) ((freshTrackers items).drop (i + 1)) := List.mem_cons_self
  refine arrive (List.getElem?_eq_some_iff.1 hitem).1
    (fun k hk => Nat.lt_succ_of_le (h.le k hk)) h.bounded ?_ hmv
  intro k item' hk hitem' hnot
  rcases Nat.lt_succ_iff_lt_or_eq.1 hk with hk | rfl
  · exact h.required k item' hk hitem' hnot
  · cases hitem.symm.trans hitem'
    simpa [Tracker.isSkippable, Tracker.item, hentry] using hskip

theorem final (h : Paced items ⟨i, []⟩ is) {k : Nat} {item : Item α}
    (hitem : items[k]? = some item) : item.LetsThrough (is.count k) := by
  have hi := h.place.nil
  rw [length_freshTrackers] at hi
  refine ⟨fun m hm => h.bounded k item m hitem hm, fun hzero => ?_⟩
  exact h.required k item (hi ▸ (List.getElem?_eq_some_iff.1 hitem).1) hitem
    (List.count_eq_zero.1 hzero)

end Paced

section Route

variable {dest : List (Item δ)} {src : List (Item σ)} {s : State δ σ} {xs : List (Step δ σ)}

inductive State.Paces (dest : List (Item δ)) (src : List (Item σ)) :
    State δ σ → List (Nat × Nat) → Prop where
  | start : Paces dest src (.start (freshTrackers dest) (freshTrackers src)) []
  | on {p : Place δ} {q : Place σ} {P : List (Nat × Nat)} :
      Paced dest p (P.map Prod.fst) → Paced src q (P.map Prod.snd) → Paces dest src (.on p q) P

theorem State.Paces.step {P : List (Nat × Nat)} (h : s.Paces dest src P) {e : Edge δ σ}
    (he : e ∈ s.edges) : e.target.Paces dest src (P ++ s.met) := by
  cases h with
  | start =>
    obtain ⟨hx, hy⟩ := State.mem_edges_start.1 he
    exact .on (Paced.fresh hx) (Paced.fresh hy)
  | on hp hq =>
    cases State.passage_of_mem_edges he with
    | pastDest hb =>
      exact .on (by simpa [State.met] using hp) (by simpa [State.met] using hq.leave hb)
    | pastSrc ha =>
      exact .on (by simpa [State.met] using hp.leave ha) (by simpa [State.met] using hq)
    | inside hx hy _ =>
      exact .on (by simpa [State.met] using hp.move hx) (by simpa [State.met] using hq.move hy)

theorem Route.paces (h : Route dest src xs s) :
    s.Paces dest src (xs.flatMap fun x => x.state.met) := by
  induction h with
  | start => exact .start
  | step _ he ih =>
    rw [List.flatMap_append, List.flatMap_singleton]
    exact ih.step he

theorem State.Fits.foldedTogether_step
    (h : s.Fits (freshTrackers dest) (freshTrackers src)) (e : Edge δ σ) :
    foldedTogether (Step.mk s e).folded = s.met := by
  have hjumped : ∀ q ∈ (Step.mk s e).jumped, q.indices? = none := by
    intro q hq
    rcases List.mem_append.1 hq with hq | hq
    · obtain ⟨_, _, rfl⟩ := List.mem_map.1 hq
      rfl
    · obtain ⟨_, _, rfl⟩ := List.mem_map.1 hq
      rfl
  have hfolded : (Step.mk s e).folded = s.pairing?.toList ++ (Step.mk s e).jumped :=
    List.append_assoc _ _ _
  rw [foldedTogether, hfolded, List.filterMap_append, List.filterMap_eq_nil_iff.2 hjumped,
    List.append_nil]
  cases h with
  | start => rfl
  | @on p q hp hq =>
    match p, q, hp, hq with
    | ⟨_, []⟩, ⟨_, []⟩, _, _ => rfl
    | ⟨_, []⟩, ⟨_, _ :: _⟩, _, _ => rfl
    | ⟨_, _ :: _⟩, ⟨_, []⟩, _, _ => rfl
    | ⟨i, a :: _⟩, ⟨j, b :: _⟩, hp, hq =>
      obtain ⟨_, _, ha, _⟩ := hp.item
      obtain ⟨_, _, hb, _⟩ := hq.item
      simp [State.pairing?, State.met, Pairing.indices?, Pairing.both, ha, hb]

theorem Route.foldedTogether_steps (h : Route dest src xs s) :
    foldedTogether (xs.flatMap Step.folded) = xs.flatMap fun x => x.state.met := by
  induction h with
  | start => rfl
  | step h _ ih =>
    have hstep := h.fits.foldedTogether_step
    simp only [foldedTogether, List.flatMap_append, List.flatMap_singleton,
      List.filterMap_append] at ih hstep ⊢
    rw [ih, hstep]

/-- On a walk that ends, every item is paired as often as it lets through. -/
theorem Route.letsThrough (h : Route dest src xs s) (hend : s.outlook = .finished) :
    (∀ i (d : Item δ), dest[i]? = some d →
        d.LetsThrough (((foldedTogether (xs.flatMap Step.folded)).map Prod.fst).count i)) ∧
      ∀ j (d : Item σ), src[j]? = some d →
        d.LetsThrough (((foldedTogether (xs.flatMap Step.folded)).map Prod.snd).count j) := by
  have hpaces := h.paces
  rw [h.foldedTogether_steps]
  obtain ⟨i, j, rfl⟩ := State.eq_on_of_finished hend
  cases hpaces with
  | on hp hq => exact ⟨fun _ _ => hp.final, fun _ _ => hq.final⟩

end Route

/-- In a common sequence every item has been folded together with items of the other side as often
as it lets through: a maximum is kept unless it is zero, and then there is one pair at most. -/
theorem alignedMerge_keepsMaxima [DecidableEq γ]
    (merge : Option (Item δ) → Option (Item σ) → Option (Item γ)) (text : γ → String)
    (o : Options) (t : Tracer Id δ σ (List (Item γ)))
    (t' : Tracer Id δ σ (List (Item γ) × List (Pairing δ σ))) (dest : List (Item δ))
    (src : List (Item σ)) :
    let merged : Outcome (List (Item γ)) :=
      alignedMerge (m := Id) (fun d s => pure (merge d s)) text o t dest src
    let recorded : Outcome (List (Item γ) × List (Pairing δ σ)) :=
      search (commonSequence (m := Id) (fun d s => pure (merge d s)) text).recording o t'
        (freshTrackers dest) (freshTrackers src) ([], [])
    recorded.found.map Prod.fst = merged.found ∧ recorded.stats = merged.stats ∧
      ∀ items folded, recorded.found = some (items, folded) →
        (∀ i (d : Item δ), dest[i]? = some d →
            d.LetsThrough (((foldedTogether folded).map Prod.fst).count i)) ∧
          ∀ j (d : Item σ), src[j]? = some d →
            d.LetsThrough (((foldedTogether folded).map Prod.snd).count j) := by
  intro merged recorded
  obtain ⟨hfound, hstats⟩ := search_recording
    (commonSequence (m := Id) (fun d s => pure (merge d s)) text) o t t' (freshTrackers dest)
    (freshTrackers src) []
  refine ⟨hfound, hstats, ?_⟩
  intro items folded h
  obtain ⟨s, xs, hend, hroute, rfl, _⟩ := recording_route h
  exact hroute.letsThrough hend

/-- One item that may occur twice is folded together with two. -/
theorem letsThrough_upTo_two :
    (⟨1, .upTo 2⟩ : Item Nat).LetsThrough 2 ∧ (.single 1 : Item Nat).LetsThrough 1 := by
  obtain ⟨_, _, hkeeps⟩ := alignedMerge_keepsMaxima (Merging.keep (α := Nat)) toString {} .silent
    .silent [⟨1, .upTo 2⟩] [.single 1, .single 1]
  obtain ⟨hdest, hsrc⟩ := hkeeps [⟨1, .upTo 2⟩]
    [.both ⟨⟨0, ⟨1, .upTo 2⟩⟩, 0⟩ ⟨⟨0, .single 1⟩, 0⟩,
      .both ⟨⟨0, ⟨1, .upTo 2⟩⟩, 1⟩ ⟨⟨1, .single 1⟩, 0⟩]
    (by decide +kernel)
  exact ⟨hdest 0 _ rfl, hsrc 1 _ rfl⟩

/-- The only pair there is cannot be, but nobody looks at the count. -/
theorem alignedMerge_exceeds_zero :
    (search (commonSequence (m := Id) (fun d s => pure (Merging.equal d s)) toString).recording {}
        .silent (freshTrackers [⟨1, .exactly 0⟩]) (freshTrackers [.single 1]) ([], [])).found =
      some ([.single 1], ([.both ⟨⟨0, ⟨1, .exactly 0⟩⟩, 0⟩ ⟨⟨0, .single 1⟩, 0⟩] :
        List (Pairing Nat Nat))) ∧
      0 < ((foldedTogether ([.both ⟨⟨0, ⟨1, .exactly 0⟩⟩, 0⟩ ⟨⟨0, .single 1⟩, 0⟩] :
        List (Pairing Nat Nat))).map Prod.fst).count 0 ∧
      (hasAlignment (m := Id) (fun a b : Nat => pure (a == b)) {} .silent [⟨1, .exactly 0⟩]
        [.single 1]).1 = false := by
  decide +kernel

end SeqAlign
