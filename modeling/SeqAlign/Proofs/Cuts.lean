import Mathlib.Algebra.GroupWithZero.Nat
import Mathlib.Data.List.Count
import Mathlib.Data.List.Forall2
import Mathlib.Data.List.Lex
import Mathlib.Data.List.Nodup
import Mathlib.Data.List.SplitLengths
import SeqAlign.Proofs.Groups

/-!
# SeqAlign.Proofs.Cuts

Alignments of a sequence whose src items occur once each.

* `IsCut`: sizes by which src is cut into consecutive blocks, one for each dest item. They are
  compared in the lexicographic order of lists.
* `takers`: for each src item, the dest index whose block it is in.
* `Before`: where two lists first differ, the first one has less. Greater sizes give src items to
  earlier dest items (`before_takers`).
* `IsCut.isAlignment`: the pairs of a cut are an alignment.
* `IsGrouping.isCut`: the groups of an alignment are the blocks of a cut.
-/

namespace SeqAlign

variable {δ σ : Type}

/-- Cutting src into consecutive blocks of these sizes gives each dest item as many src items as it
tolerates, all of them related to it. -/
structure IsCut (p : δ → σ → Bool) (ds : List (Item δ)) (ss : List (Item σ)) (sizes : List Nat) :
    Prop where
  sum : sizes.sum = ss.length
  tolerated : List.Forall₂ Item.Tolerates ds sizes
  related : List.Forall₂ (fun d block => ∀ s ∈ block, p d.label s.label = true) ds
    (sizes.splitLengths ss)

/-- How many src entries each group has absorbed. -/
def groupSizes (G : List (Group δ σ)) : List Nat := G.map fun g => g.absorbed.length

theorem tolerates_one {α : Type} {item : Item α} (h : item.quantifier = .one) :
    item.Tolerates 1 := by
  refine ⟨?_, fun h0 => absurd h0 Nat.one_ne_zero⟩
  intro m hm
  rw [h] at hm
  obtain rfl := Option.some.inj hm
  exact Nat.le_refl 1

/-- The dest index that takes each src item. -/
def takers : List Nat → List Nat
  | [] => []
  | n :: sizes => List.replicate n 0 ++ (takers sizes).map (· + 1)

theorem length_takers (sizes : List Nat) : (takers sizes).length = sizes.sum := by
  induction sizes with
  | nil => rfl
  | cons n sizes ih => simp [takers, ih]

theorem pairwise_takers (sizes : List Nat) : (takers sizes).Pairwise (· ≤ ·) := by
  induction sizes with
  | nil => exact .nil
  | cons n sizes ih =>
    refine List.pairwise_append.2 ⟨List.pairwise_replicate.2 (.inr (Nat.le_refl 0)), ?_, ?_⟩
    · exact List.pairwise_map.2 (ih.imp Nat.succ_le_succ)
    · intro x hx y _
      rw [List.eq_of_mem_replicate hx]
      exact Nat.zero_le y

theorem count_takers (sizes : List Nat) (i : Nat) :
    (takers sizes).count i = sizes[i]?.getD 0 := by
  induction sizes generalizing i with
  | nil => rfl
  | cons n sizes ih =>
    rw [takers, List.count_append]
    cases i with
    | zero =>
      have hnone : ((takers sizes).map (· + 1)).count 0 = 0 :=
        List.count_eq_zero.2 fun h => by
          obtain ⟨x, _, hx⟩ := List.mem_map.1 h
          cases hx
      rw [hnone, List.count_replicate_self]
      rfl
    | succ i =>
      have hnone : (List.replicate n 0).count (i + 1) = 0 :=
        List.count_eq_zero.2 fun h => by cases List.eq_of_mem_replicate h
      rw [hnone, List.count_map_of_injective _ _ Nat.succ_injective, ih, Nat.zero_add]
      rfl

theorem eq_takers {fs sizes : List Nat} (hfs : fs.Pairwise (· ≤ ·))
    (hcount : ∀ i, fs.count i = sizes[i]?.getD 0) : fs = takers sizes := by
  have hperm : fs.Perm (takers sizes) :=
    List.perm_iff_count.2 fun i => by rw [hcount, count_takers]
  exact hperm.eq_of_pairwise (fun _ _ _ _ => Nat.le_antisymm) hfs (pairwise_takers sizes)

/-- Where the two lists first differ, the first one has less. -/
def Before (fs gs : List Nat) : Prop :=
  ∃ rs x y xs ys, x < y ∧ fs = rs ++ x :: xs ∧ gs = rs ++ y :: ys

theorem Before.append_left {fs gs : List Nat} (h : Before fs gs) (ks : List Nat) :
    Before (ks ++ fs) (ks ++ gs) := by
  obtain ⟨rs, x, y, xs, ys, hlt, rfl, rfl⟩ := h
  exact ⟨ks ++ rs, x, y, xs, ys, hlt, (List.append_assoc _ _ _).symm,
    (List.append_assoc _ _ _).symm⟩

theorem Before.map_succ {fs gs : List Nat} (h : Before fs gs) :
    Before (fs.map (· + 1)) (gs.map (· + 1)) := by
  obtain ⟨rs, x, y, xs, ys, hlt, rfl, rfl⟩ := h
  exact ⟨rs.map (· + 1), x + 1, y + 1, xs.map (· + 1), ys.map (· + 1), Nat.succ_lt_succ hlt,
    List.map_append, List.map_append⟩

theorem not_before_concat {fs gs : List Nat} {x : Nat} (h : ¬ Before gs fs)
    (hlater : ∀ y ys, y < x → gs ≠ fs ++ y :: ys) : ¬ Before gs (fs ++ [x]) := by
  rintro ⟨rs, y, z, ys, zs, hlt, hgs, hfs⟩
  rcases List.eq_nil_or_concat zs with rfl | ⟨zs, z', rfl⟩
  · obtain ⟨rfl, hz⟩ := List.append_inj' hfs rfl
    cases hz
    exact hlater y ys hlt hgs
  · rw [List.concat_eq_append, ← List.cons_append, ← List.append_assoc] at hfs
    obtain ⟨rfl, _⟩ := List.append_inj' hfs rfl
    exact h ⟨rs, y, z, ys, zs, hlt, hgs, rfl⟩

/-- The more the first dest items take, the earlier the takers. -/
theorem before_takers {xs ys : List Nat} (hlength : xs.length = ys.length)
    (hsum : xs.sum = ys.sum) (hlt : xs < ys) : Before (takers ys) (takers xs) := by
  induction xs generalizing ys with
  | nil =>
    obtain rfl := List.length_eq_zero_iff.1 hlength.symm
    exact absurd hlt (List.lt_irrefl [])
  | cons x xs ih =>
    cases ys with
    | nil => cases hlength
    | cons y ys =>
      rw [List.sum_cons, List.sum_cons] at hsum
      rcases List.cons_lt_cons_iff.1 hlt with hxy | ⟨rfl, htail⟩
      · -- behind the shorter block the one list goes on with zero, the other one does not
        obtain ⟨n, rfl⟩ := Nat.exists_eq_add_of_lt hxy
        have hpos : 0 < (takers xs).length := by
          rw [length_takers]
          omega
        obtain ⟨z, zs, hxs⟩ := List.exists_cons_of_length_pos hpos
        refine ⟨List.replicate x 0, 0, z + 1, List.replicate n 0 ++ (takers ys).map (· + 1),
          zs.map (· + 1), Nat.succ_pos z, ?_, ?_⟩
        · rw [takers, Nat.add_assoc, List.replicate_add, List.replicate_succ, List.append_assoc]
          rfl
        · rw [takers, hxs]
          rfl
      · exact (ih (Nat.succ.inj hlength) (Nat.add_left_cancel hsum) htail).map_succ.append_left _

section Cut

variable {p : δ → σ → Bool} {ds : List (Item δ)} {ss : List (Item σ)} {sizes fs : List Nat}

theorem IsCut.getElem?_sizes (h : IsCut p ds ss sizes) {i : Nat} {d : Item δ}
    (hd : ds[i]? = some d) : ∃ n, sizes[i]? = some n ∧ d.Tolerates n := by
  obtain ⟨hlength, hall⟩ := List.forall₂_iff_get.1 h.tolerated
  obtain ⟨hi, rfl⟩ := List.getElem?_eq_some_iff.1 hd
  exact ⟨sizes[i], List.getElem?_eq_getElem (hlength ▸ hi), hall i hi (hlength ▸ hi)⟩

theorem related_of_takers {R : Item δ → Item σ → Prop} (hsum : sizes.sum = ss.length)
    (hrel : List.Forall₂ (fun d block => ∀ s ∈ block, R d s) ds (sizes.splitLengths ss)) {i j : Nat}
    (hj : (takers sizes)[j]? = some i) : ∃ d s, ds[i]? = some d ∧ ss[j]? = some s ∧ R d s := by
  induction sizes generalizing ds ss i j with
  | nil => cases hj
  | cons n sizes ih =>
    rw [List.splitLengths_cons] at hrel
    rw [List.sum_cons] at hsum
    cases hrel with
    | @cons d _ ds _ hblock hrel =>
      rcases Nat.lt_or_ge j n with hjn | hjn
      · -- the item is in the first block
        have hlength : j < (List.replicate n 0).length := by rwa [List.length_replicate]
        rw [takers, List.getElem?_append_left hlength] at hj
        obtain rfl := List.eq_of_mem_replicate (List.mem_of_getElem? hj)
        have hs : ss[j]? = some ss[j] := List.getElem?_eq_getElem (by omega)
        refine ⟨d, ss[j], rfl, hs, hblock _ ?_⟩
        exact List.mem_of_getElem? (i := j) (by rw [List.getElem?_take_of_lt hjn, hs])
      · have hlength : (List.replicate n 0).length ≤ j := by rwa [List.length_replicate]
        rw [takers, List.getElem?_append_right hlength, List.length_replicate, List.getElem?_map,
          Option.map_eq_some_iff] at hj
        obtain ⟨k, hk, rfl⟩ := hj
        have hrest : sizes.sum = (ss.drop n).length := by
          rw [List.length_drop]
          omega
        obtain ⟨d', s, hd', hs, hR⟩ := ih hrest hrel hk
        refine ⟨d', s, hd', ?_, hR⟩
        rwa [List.getElem?_drop, Nat.add_sub_cancel' hjn] at hs

theorem forward_zipIdx (hfs : fs.Pairwise (· ≤ ·)) : fs.zipIdx.IsChain Forward := by
  refine List.isChain_iff_pairwise.2 (List.pairwise_iff_getElem.2 fun i j hi hj hij => ?_)
  rw [List.length_zipIdx] at hi hj
  have hle := List.pairwise_iff_getElem.1 hfs i j hi hj hij
  rw [List.getElem_zipIdx, List.getElem_zipIdx]
  exact ⟨hle, by simp only; omega, .inr (by simp only; omega)⟩

theorem exhausts_zipIdx (hfs : fs.length = ss.length) :
    Exhausts ds.length ss.length fs.zipIdx := by
  cases hlast : fs.zipIdx.getLast? with
  | none =>
    have hnil := List.zipIdx_eq_nil_iff.1 (List.getLast?_eq_none_iff.1 hlast)
    rw [Exhausts, hlast]
    exact .inr (by rw [← hfs, hnil]; rfl)
  | some x =>
    rw [List.getLast?_eq_getElem?, List.length_zipIdx, List.getElem?_zipIdx,
      Option.map_eq_some_iff] at hlast
    obtain ⟨y, hy, rfl⟩ := hlast
    have hlt := (List.getElem?_eq_some_iff.1 hy).1
    rw [Exhausts, List.getLast?_eq_getElem?, List.length_zipIdx, List.getElem?_zipIdx, hy]
    exact .inr (by simp only; omega)

theorem IsCut.isAlignment (hss : ∀ s ∈ ss, s.quantifier = .one) (h : IsCut p ds ss sizes) :
    IsAlignment p ds ss (takers sizes).zipIdx := by
  have hlength : (takers sizes).length = ss.length := (length_takers sizes).trans h.sum
  refine ⟨forward_zipIdx (pairwise_takers sizes), ?_, ?_, ?_, exhausts_zipIdx hlength⟩
  · intro x hx
    exact related_of_takers h.sum h.related (List.mem_zipIdx_iff_getElem?.1 hx)
  · intro i d hd
    obtain ⟨n, hn, htolerates⟩ := h.getElem?_sizes hd
    rw [List.zipIdx_map_fst, count_takers, hn]
    exact htolerates
  · intro j s hs
    have hj := (List.getElem?_eq_some_iff.1 hs).1
    have hone : (List.range' 0 ss.length).count j = 1 :=
      List.count_eq_one_of_mem List.nodup_range' (List.mem_range'_1.2 ⟨Nat.zero_le j, by omega⟩)
    rw [List.zipIdx_map_snd, hlength, hone]
    exact tolerates_one (hss s (List.mem_of_getElem? hs))

end Cut

/-! ## The groups of an alignment -/

theorem map_item_entries {α : Type} (items : List (Item α)) :
    (entries items).map Entry.item = items := by
  refine List.ext_getElem? fun i => ?_
  rw [List.getElem?_map, getElem?_entries, Option.map_map]
  exact congrFun Option.map_id _

theorem eq_entries {α : Type} {items : List (Item α)} {es : List (Entry α)}
    (hmem : ∀ e ∈ es, e ∈ entries items)
    (hpos : es.map Entry.position = List.range items.length) : es = entries items := by
  have hread (fs : List (Entry α)) (hfs : ∀ e ∈ fs, e ∈ entries items) :
      (fs.map Entry.position).map (fun i => (entries items)[i]?) = fs.map some := by
    rw [List.map_map]
    refine List.map_congr_left fun e he => ?_
    simp only [Function.comp_apply, getElem?_entries, mem_entries.1 (hfs e he), Option.map_some]
  refine List.map_injective_iff.2 (fun _ _ => Option.some.inj) ?_
  rw [← hread es hmem, ← hread (entries items) fun _ he => he, hpos, map_position_entries]

theorem splitLengths_flatten {α : Type} (bs : List (List α)) :
    (bs.map List.length).splitLengths bs.flatten = bs := by
  induction bs with
  | nil => rfl
  | cons b bs ih =>
    rw [List.map_cons, List.flatten_cons, List.splitLengths_cons, List.take_left, List.drop_left, ih]

section Shape

variable {p : δ → σ → Bool} {ds : List (Item δ)} {ss : List (Item σ)} {G : List (Group δ σ)}

/-- Groups that absorb every src item once, in order, are the blocks of a cut. -/
theorem IsGrouping.isCut (h : IsGrouping p ds ss G) (hall : G.flatMap Group.absorbed = entries ss) :
    IsCut p ds ss (groupSizes G) := by
  have hds : ds = G.map fun g => g.dest.item := by
    rw [← map_item_entries ds, ← h.dests, List.map_map]
    rfl
  have hblocks : (groupSizes G).splitLengths ss =
      G.map fun g => g.absorbed.map Entry.item := by
    have hss : ss = (G.map fun g => g.absorbed.map Entry.item).flatten := by
      rw [← List.flatMap_def, ← List.map_flatMap, hall, map_item_entries]
    have hsizes : groupSizes G =
        (G.map fun g => g.absorbed.map Entry.item).map List.length := by simp [groupSizes]
    rw [hss, hsizes, splitLengths_flatten]
  refine ⟨?_, ?_, ?_⟩
  · have hlength := congrArg List.length hall
    rw [List.length_flatMap, entries, List.length_mapIdx] at hlength
    exact hlength
  · rw [hds, groupSizes, List.forall₂_map_left_iff, List.forall₂_map_right_iff, List.forall₂_same]
    exact h.dest
  · rw [hblocks, hds, List.forall₂_map_left_iff, List.forall₂_map_right_iff, List.forall₂_same]
    intro g hg s hs
    obtain ⟨e, he, rfl⟩ := List.mem_map.1 hs
    exact h.related g hg e he

theorem IsGrouping.eq_zipWith (h : IsGrouping p ds ss G)
    (hall : G.flatMap Group.absorbed = entries ss) :
    G = (entries ds).zipWith Group.mk
      ((groupSizes G).splitLengths (entries ss)) := by
  have hblocks : (groupSizes G).splitLengths (entries ss) =
      G.map Group.absorbed := by
    have hsplit := splitLengths_flatten (G.map Group.absorbed)
    rwa [List.map_map, ← List.flatMap_def, hall] at hsplit
  rw [hblocks, ← h.dests, List.zipWith_map, List.zipWith_self]
  exact (List.map_id G).symm

end Shape

theorem flatMap_absorbed_groupsOf {p : δ → σ → Bool} {ds : List (Item δ)} {ss : List (Item σ)}
    {fs : List Nat} (h : IsAlignment p ds ss fs.zipIdx) (hfs : fs.length = ss.length) :
    (groupsOf ds ss ds.length fs.zipIdx).flatMap Group.absorbed = entries ss := by
  refine eq_entries ?_ ?_
  · intro e he
    obtain ⟨g, hg, he⟩ := List.mem_flatMap.1 he
    exact (isGrouping_groupsOf h).srcs g hg e he
  · rw [map_position_absorbed h, List.zipIdx_map_snd, hfs, List.range_eq_range']

theorem takers_groupsOf {p : δ → σ → Bool} {ds : List (Item δ)} {ss : List (Item σ)}
    {fs : List Nat} (h : IsAlignment p ds ss fs.zipIdx) :
    fs = takers (groupSizes (groupsOf ds ss ds.length fs.zipIdx)) := by
  have hfst : fs.zipIdx.map Prod.fst = fs := List.zipIdx_map_fst 0 fs
  refine eq_takers ?_ ?_
  · have hsorted := List.pairwise_map.2 (h.pairwise.imp And.left)
    rwa [hfst] at hsorted
  · intro i
    have hlengths : groupSizes (groupsOf ds ss ds.length fs.zipIdx) =
        (List.range ds.length).map fs.count := by
      rw [groupSizes, groupsOf_length, List.map_map, ← map_position_entries, List.map_map]
      refine List.map_congr_left fun d _ => ?_
      simp only [Function.comp_apply, length_absorbedBy h.related, hfst]
    rw [hlengths, List.getElem?_map]
    by_cases hi : i < ds.length
    · rw [List.getElem?_range hi]
      rfl
    · rw [List.getElem?_eq_none (by simpa using hi), List.count_eq_zero.2]
      · rfl
      · intro hmem
        obtain ⟨j, hj⟩ := List.mem_iff_getElem?.1 hmem
        obtain ⟨d, _, hd, _⟩ := h.related (i, j) (List.mem_zipIdx_iff_getElem?.2 hj)
        exact hi (List.getElem?_eq_some_iff.1 hd).1

end SeqAlign
