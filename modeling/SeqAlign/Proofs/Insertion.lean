import Mathlib.Data.List.Count
import Mathlib.Order.Monotone.Basic
import SeqAlign.Proofs.Agreement

/-!
# SeqAlign.Proofs.Insertion

Inserting an item that need not occur.

* `shifted`: where the indices are after an insertion.
* `IsAlignment.insertIdx`: with the indices shifted, an alignment stays one. For an item behind the
  last one the alignment has to reach the end of the other sequence (`ReachesEnd`), because two
  sequences never both have items left over.
* `IsAlignment.swap`: dest and src may change places, so what holds of the one holds of the other.
* `IsAlignment.of_concat`: behind a last item that can be paired with nothing, an alignment does
  reach the end of the other sequence.
* `hasAlignment_insertIdx`: what this says about a match.
-/

namespace SeqAlign

variable {α δ σ : Type}

/-- Where an index is after an element has been inserted at `k`. -/
def shifted (k i : Nat) : Nat := if i < k then i else i + 1

theorem shifted_strictMono (k : Nat) : StrictMono (shifted k) := by
  intro i j h
  simp only [shifted]
  split <;> split <;> omega

theorem shifted_ne (k i : Nat) : shifted k i ≠ k := by
  simp only [shifted]
  split <;> omega

theorem eq_or_exists_shifted (k j : Nat) : j = k ∨ ∃ i, j = shifted k i := by
  rcases Nat.lt_trichotomy j k with hlt | heq | hgt
  · exact .inr ⟨j, (if_pos hlt).symm⟩
  · exact .inl heq
  · refine .inr ⟨j - 1, ?_⟩
    rw [shifted, if_neg (by omega)]
    omega

theorem getElem?_insertIdx_shifted (xs : List α) (k : Nat) (x : α) (i : Nat) :
    (xs.insertIdx k x)[shifted k i]? = xs[i]? := by
  rw [shifted]
  split
  case isTrue hlt => exact List.getElem?_insertIdx_of_lt hlt
  case isFalse hge => exact List.getElem?_insertIdx_of_gt (by omega)

theorem Tolerated.insertIdx {items : List (Item α)} {is : List Nat} {x : Item α}
    (hx : x.quantifier.min = 0) (k : Nat) (h : Tolerated items is) :
    Tolerated (items.insertIdx k x) (is.map (shifted k)) := by
  intro j item hitem
  rcases eq_or_exists_shifted k j with rfl | ⟨i, rfl⟩
  · have hcount : (is.map (shifted j)).count j = 0 :=
      List.count_eq_zero.2 fun hmem => by
        obtain ⟨i, _, hi⟩ := List.mem_map.1 hmem
        exact shifted_ne j i hi
    rw [List.getElem?_insertIdx_self] at hitem
    obtain ⟨_, hitem⟩ := Option.ite_none_right_eq_some.1 hitem
    obtain rfl := Option.some.inj hitem
    rw [hcount]
    exact ⟨fun m _ => Nat.zero_le m.toNat, fun _ => hx⟩
  · rw [getElem?_insertIdx_shifted] at hitem
    rw [List.count_map_of_injective _ _ (shifted_strictMono k).injective]
    exact h i item hitem

/-- The last of these indices is that of the last of `n` items; there is no index only if there is no
item. -/
def ReachesEnd (n : Nat) (is : List Nat) : Prop :=
  match is.getLast? with
  | none => n = 0
  | some i => i + 1 = n

theorem exhausts_iff {n m : Nat} {P : List (Nat × Nat)} :
    Exhausts n m P ↔ ReachesEnd n (P.map Prod.fst) ∨ ReachesEnd m (P.map Prod.snd) := by
  rw [Exhausts, ReachesEnd, ReachesEnd, List.getLast?_map, List.getLast?_map]
  cases P.getLast? <;> exact Iff.rfl

theorem ReachesEnd.shifted {n k : Nat} {is : List Nat} (hk : k < n) (h : ReachesEnd n is) :
    ReachesEnd (n + 1) (is.map (shifted k)) := by
  rw [ReachesEnd] at h ⊢
  rw [List.getLast?_map]
  cases hlast : is.getLast? with
  | none =>
    rw [hlast] at h
    exact absurd h (Nat.ne_zero_of_lt hk)
  | some i =>
    rw [hlast] at h
    have hend : i + 1 = n := h
    have hi : ¬ i < k := by omega
    exact congrArg (· + 1) ((if_neg hi).trans hend)

theorem not_reachesEnd {n : Nat} {is : List Nat} (h : ∀ i ∈ is, i < n) :
    ¬ ReachesEnd (n + 1) is := by
  rw [ReachesEnd]
  cases hlast : is.getLast? with
  | none => exact Nat.succ_ne_zero n
  | some i => exact fun hi => absurd (h i (List.mem_of_getLast? hlast)) (by omega)

section Alignment

variable {p : δ → σ → Bool} {ds : List (Item δ)} {ss : List (Item σ)} {P : List (Nat × Nat)}

theorem Forward.shifted {x y : Nat × Nat} (k : Nat) (h : Forward x y) :
    Forward (shifted k x.1, x.2) (shifted k y.1, y.2) := by
  obtain ⟨hle, hle', hlt⟩ := h
  have hmono := shifted_strictMono k
  exact ⟨hmono.monotone hle, hle', hlt.imp_left fun h => hmono h⟩

theorem IsAlignment.insertIdx {x : Item δ} (hx : x.quantifier.min = 0) {k : Nat}
    (hk : k < ds.length ∨ ReachesEnd ss.length (P.map Prod.snd)) (h : IsAlignment p ds ss P) :
    IsAlignment p (ds.insertIdx k x) ss (P.map fun y => (shifted k y.1, y.2)) := by
  have hfst : (P.map fun y => (shifted k y.1, y.2)).map Prod.fst =
      (P.map Prod.fst).map (shifted k) := by
    rw [List.map_map, List.map_map]
    rfl
  have hsnd : (P.map fun y => (shifted k y.1, y.2)).map Prod.snd = P.map Prod.snd := List.map_map
  refine ⟨?_, ?_, ?_, ?_, ?_⟩
  · exact (List.isChain_map _).2 (h.forward.imp fun _ _ => Forward.shifted k)
  · refine List.forall_mem_map.2 fun y hy => ?_
    obtain ⟨d, s, hd, hs, hrel⟩ := h.related y hy
    exact ⟨d, s, (getElem?_insertIdx_shifted ds k x y.1).trans hd, hs, hrel⟩
  · rw [hfst]
    exact h.dest.insertIdx hx k
  · rw [hsnd]
    exact h.src
  · rw [exhausts_iff, hfst, hsnd]
    rcases hk with hk | hend
    · rw [List.length_insertIdx_of_le_length (Nat.le_of_lt hk)]
      exact (exhausts_iff.1 h.exhausts).imp_left (ReachesEnd.shifted hk)
    · exact .inr hend

theorem map_fst_map_swap (P : List (Nat × Nat)) :
    (P.map Prod.swap).map Prod.fst = P.map Prod.snd :=
  List.map_map

theorem map_snd_map_swap (P : List (Nat × Nat)) :
    (P.map Prod.swap).map Prod.snd = P.map Prod.fst :=
  List.map_map

theorem IsAlignment.swap (h : IsAlignment p ds ss P) :
    IsAlignment (fun s d => p d s) ss ds (P.map Prod.swap) := by
  refine ⟨?_, ?_, ?_, ?_, ?_⟩
  · exact (List.isChain_map _).2
      (h.forward.imp fun _ _ hxy => ⟨hxy.2.1, hxy.1, hxy.2.2.symm⟩)
  · refine List.forall_mem_map.2 fun x hx => ?_
    obtain ⟨d, s, hd, hs, hrel⟩ := h.related x hx
    exact ⟨s, d, hs, hd, hrel⟩
  · rw [map_fst_map_swap]
    exact h.src
  · rw [map_snd_map_swap]
    exact h.dest
  · rw [exhausts_iff, map_fst_map_swap, map_snd_map_swap]
    exact (exhausts_iff.1 h.exhausts).symm

theorem IsAlignment.insertIdx_src {y : Item σ} (hy : y.quantifier.min = 0) {k : Nat}
    (hk : k < ss.length ∨ ReachesEnd ds.length (P.map Prod.fst)) (h : IsAlignment p ds ss P) :
    ∃ Q, IsAlignment p ds (ss.insertIdx k y) Q := by
  rw [← map_snd_map_swap] at hk
  exact ⟨_, (h.swap.insertIdx hy hk).swap⟩

/-- If the last item of dest can be paired with nothing, src has nothing left over. -/
theorem IsAlignment.of_concat {x : Item δ} (hx : ∀ s ∈ ss, p x.label s.label = false)
    (h : IsAlignment p (ds ++ [x]) ss P) :
    IsAlignment p ds ss P ∧ ReachesEnd ss.length (P.map Prod.snd) := by
  have hrelated : Related p ds ss P := by
    intro y hy
    obtain ⟨d, s, hd, hs, hrel⟩ := h.related y hy
    refine ⟨d, s, ?_, hs, hrel⟩
    rw [List.getElem?_append] at hd
    split at hd
    case isTrue => exact hd
    case isFalse =>
      -- only the unrelated item stands there
      obtain rfl := List.mem_singleton.1 (List.mem_of_getElem? hd)
      rw [hx s (List.mem_of_getElem? hs)] at hrel
      cases hrel
  have hbefore : ∀ i ∈ P.map Prod.fst, i < ds.length := by
    refine List.forall_mem_map.2 fun y hy => ?_
    obtain ⟨_, _, hd, _⟩ := hrelated y hy
    exact (List.getElem?_eq_some_iff.1 hd).1
  have hend := exhausts_iff.1 h.exhausts
  rw [List.length_append, List.length_singleton] at hend
  have hsrc := hend.resolve_left (not_reachesEnd hbefore)
  refine ⟨⟨h.forward, hrelated, ?_, h.src, exhausts_iff.2 (.inr hsrc)⟩, hsrc⟩
  intro i d hd
  exact h.dest i d (List.getElem?_append_left (List.getElem?_eq_some_iff.1 hd).1 ▸ hd)

theorem IsAlignment.of_concat_src {y : Item σ} (hy : ∀ d ∈ ds, p d.label y.label = false)
    (h : IsAlignment p ds (ss ++ [y]) P) :
    IsAlignment p ds ss P ∧ ReachesEnd ds.length (P.map Prod.fst) := by
  obtain ⟨halign, hend⟩ := h.swap.of_concat hy
  have hback := halign.swap
  rw [List.map_map, Prod.swap_swap_eq, List.map_id] at hback
  rw [map_snd_map_swap] at hend
  exact ⟨hback, hend⟩

end Alignment

/-- Sequences that match still match after an item that need not occur has been inserted before some
item, or behind the last one if an alignment pairs the last item of the other sequence. Behind the
last one an item that can be paired with nothing takes such an alignment. -/
theorem hasAlignment_insertIdx (p : δ → σ → Bool) (b : Bool) (t : Tracer Id δ σ Bool)
    (dest : List (Item δ)) (src : List (Item σ)) (x : Item δ) (y : Item σ)
    (hx : x.quantifier.min = 0) (hy : y.quantifier.min = 0) :
    let matched (ds : List (Item δ)) (ss : List (Item σ)) : Bool :=
      (hasAlignment (m := Id) (fun d s => pure (p d s)) { memoize := b } t ds ss).1
    let destEnds := ∃ P, IsAlignment p dest src P ∧ ReachesEnd dest.length (P.map Prod.fst)
    let srcEnds := ∃ P, IsAlignment p dest src P ∧ ReachesEnd src.length (P.map Prod.snd)
    (∀ k, k < dest.length → matched dest src = true → matched (dest.insertIdx k x) src = true) ∧
      (∀ k, k < src.length → matched dest src = true → matched dest (src.insertIdx k y) = true) ∧
      (srcEnds → matched (dest ++ [x]) src = true) ∧
      (destEnds → matched dest (src ++ [y]) = true) ∧
      ((∀ s ∈ src, p x.label s.label = false) → matched (dest ++ [x]) src = true → srcEnds) ∧
      ((∀ d ∈ dest, p d.label y.label = false) → matched dest (src ++ [y]) = true → destEnds) := by
  intro matched destEnds srcEnds
  have hmatched (ds : List (Item δ)) (ss : List (Item σ)) :
      matched ds ss = true ↔ ∃ P, IsAlignment p ds ss P := by
    rw [← isSome_found_existence_iff p t ds ss b]
    exact Bool.eq_iff_iff.1 (congrArg Prod.fst (hasAlignment_eq p { memoize := b } t ds ss))
  simp only [hmatched]
  refine ⟨?_, ?_, ?_, ?_, ?_, ?_⟩
  · rintro k hk ⟨P, hP⟩
    exact ⟨_, hP.insertIdx hx (.inl hk)⟩
  · rintro k hk ⟨P, hP⟩
    exact hP.insertIdx_src hy (.inl hk)
  · rintro ⟨P, hP, hend⟩
    rw [← List.insertIdx_length_self]
    exact ⟨_, hP.insertIdx hx (.inr hend)⟩
  · rintro ⟨P, hP, hend⟩
    rw [← List.insertIdx_length_self]
    exact hP.insertIdx_src hy (.inr hend)
  · rintro hunrelated ⟨P, hP⟩
    exact ⟨P, hP.of_concat hunrelated⟩
  · rintro hunrelated ⟨P, hP⟩
    exact ⟨P, hP.of_concat_src hunrelated⟩

/-- An optional three before the two; and behind it, where src is exhausted. -/
theorem hasAlignment_insertIdx_two :
    (hasAlignment (m := Id) (fun d s : Nat => pure (d == s)) {} .silent
        ([Item.single 2].insertIdx 0 ⟨3, .optional⟩) [.single 2]).1 = true ∧
      ∃ P, IsAlignment (fun d s : Nat => d == s) [.single 2] [.single 2] P ∧
        ReachesEnd 1 (P.map Prod.snd) := by
  obtain ⟨hbefore, _, _, _, hbehind, _⟩ := hasAlignment_insertIdx (fun d s : Nat => d == s) false
    .silent [.single 2] [.single 2] ⟨3, .optional⟩ ⟨3, .optional⟩ rfl rfl
  exact ⟨hbefore 0 (by decide) (by decide +kernel), hbehind (by decide) (by decide +kernel)⟩

/-- Behind the one an optional three breaks the match, because of the optional two that src has left
over. -/
theorem not_hasAlignment_insertIdx_last :
    (hasAlignment (m := Id) (fun d s : Nat => pure (d == s)) {} .silent [.single 1]
        [.single 1, ⟨2, .optional⟩]).1 = true ∧
      (hasAlignment (m := Id) (fun d s : Nat => pure (d == s)) {} .silent
        ([Item.single 1].insertIdx 1 ⟨3, .optional⟩) [.single 1, ⟨2, .optional⟩]).1 = false := by
  decide +kernel

end SeqAlign
