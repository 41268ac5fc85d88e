import Mathlib.Algebra.Order.BigOperators.Group.List
import Mathlib.Algebra.Order.Group.Nat
import SeqAlign.Proofs.Agreement
import SeqAlign.Proofs.Cuts

/-!
# SeqAlign.Proofs.Bounds

What the bounds of a quantifier mean to a match with a sequence whose items occur once each.

* `IsBoundedCut`: a cut of src whose blocks have at least the minimum and at most the maximum of
  their dest items.
* `exists_isAlignment_iff_isCut`: where each src item occurs once, the sequences have an alignment
  if and only if src has a cut.
* `isCut_least`, `not_isBoundedCut_least`: where a minimum is above one, some sequence has a cut but
  no bounded one.
* `hasAlignment_iff_isCut`: maxima are kept, but of a minimum above one no more is asked than one
  occurrence. The bounds of a sequence are kept if and only if no minimum is above one.
-/

namespace SeqAlign

variable {δ σ : Type}

/-- So many occurrences are within the bounds. -/
def Quantifier.Permits (q : Quantifier) (n : Nat) : Prop :=
  q.min.toNat ≤ n ∧ ∀ m, q.max = some m → n ≤ m.toNat

/-- Cutting src into consecutive blocks of these sizes gives each dest item as many src items as its
quantifier says, all of them related to it. -/
structure IsBoundedCut (p : δ → σ → Bool) (ds : List (Item δ)) (ss : List (Item σ))
    (sizes : List Nat) : Prop where
  sum : sizes.sum = ss.length
  bounded : List.Forall₂ (fun d n => d.quantifier.Permits n) ds sizes
  related : List.Forall₂ (fun d block => ∀ s ∈ block, p d.label s.label = true) ds
    (sizes.splitLengths ss)

theorem Item.tolerates_of_permits {item : Item δ} {n : Nat} (h : item.quantifier.Permits n) :
    item.Tolerates n := by
  refine ⟨h.2, fun hn => ?_⟩
  have hmin := Nat.le_zero.1 (hn ▸ h.1)
  exact UInt32.toNat_inj.1 hmin

theorem Item.permits_of_tolerates {item : Item δ} {n : Nat} (hmin : item.quantifier.min ≤ 1)
    (h : item.Tolerates n) : item.quantifier.Permits n := by
  refine ⟨?_, h.1⟩
  rcases Nat.eq_zero_or_pos n with hn | hn
  · rw [h.2 hn]
    exact Nat.zero_le n
  · exact Nat.le_trans (UInt32.le_iff_toNat_le.1 hmin) hn

section Cut

variable {p : δ → σ → Bool} {ds : List (Item δ)} {ss : List (Item σ)} {sizes : List Nat}

theorem IsBoundedCut.isCut (h : IsBoundedCut p ds ss sizes) : IsCut p ds ss sizes :=
  ⟨h.sum, h.bounded.imp fun _ _ => Item.tolerates_of_permits, h.related⟩

theorem IsCut.isBoundedCut (hds : ∀ d ∈ ds, d.quantifier.min ≤ 1) (h : IsCut p ds ss sizes) :
    IsBoundedCut p ds ss sizes where
  sum := h.sum
  bounded := by
    have hboth := (List.forall₂_and_left ds sizes).2 ⟨hds, h.tolerated⟩
    exact hboth.imp fun _ _ hd => Item.permits_of_tolerates hd.1 hd.2
  related := h.related

variable {P : List (Nat × Nat)}

theorem IsAlignment.map_snd_once (hss : ∀ s ∈ ss, s.quantifier = .one) (h : IsAlignment p ds ss P) :
    P.map Prod.snd = List.range ss.length := by
  have hsorted : (P.map Prod.snd).Pairwise (· ≤ ·) :=
    List.pairwise_map.2 (h.pairwise.imp fun hxy => hxy.2.1)
  have hperm : (P.map Prod.snd).Perm (List.range ss.length) := by
    refine List.perm_iff_count.2 fun j => ?_
    by_cases hj : j < ss.length
    · obtain ⟨hle, hzero⟩ := h.src j ss[j] (List.getElem?_eq_getElem hj)
      rw [hss _ (List.getElem_mem hj)] at hle hzero
      have hone : (P.map Prod.snd).count j ≤ 1 := hle 1 rfl
      have hpos : (P.map Prod.snd).count j ≠ 0 := fun h0 => absurd (hzero h0) (by decide)
      rw [List.count_eq_one_of_mem List.nodup_range (List.mem_range.2 hj)]
      omega
    · rw [List.count_eq_zero.2, List.count_eq_zero.2]
      · exact fun hmem => hj (List.mem_range.1 hmem)
      · intro hmem
        obtain ⟨x, hx, rfl⟩ := List.mem_map.1 hmem
        obtain ⟨_, s, _, hs, _⟩ := h.related x hx
        exact hj (List.getElem?_eq_some_iff.1 hs).1
  exact hperm.eq_of_pairwise (fun _ _ _ _ => Nat.le_antisymm) hsorted
    (List.pairwise_lt_range.imp Nat.le_of_lt)

theorem IsAlignment.length_once (hss : ∀ s ∈ ss, s.quantifier = .one) (h : IsAlignment p ds ss P) :
    P.length = ss.length := by
  have hsnd := congrArg List.length (h.map_snd_once hss)
  rwa [List.length_map, List.length_range] at hsnd

theorem IsAlignment.eq_zipIdx (hss : ∀ s ∈ ss, s.quantifier = .one) (h : IsAlignment p ds ss P) :
    P = (P.map Prod.fst).zipIdx := by
  rw [List.zipIdx_eq_zip_range', List.length_map, h.length_once hss, ← List.range_eq_range']
  exact List.zip_of_prod rfl (h.map_snd_once hss)

theorem exists_isAlignment_iff_isCut (hss : ∀ s ∈ ss, s.quantifier = .one) :
    (∃ P, IsAlignment p ds ss P) ↔ ∃ sizes, IsCut p ds ss sizes := by
  constructor
  · rintro ⟨P, hP⟩
    have hlength := (List.length_map Prod.fst).trans (hP.length_once hss)
    rw [hP.eq_zipIdx hss] at hP
    exact ⟨_, (isGrouping_groupsOf hP).isCut (flatMap_absorbed_groupsOf hP hlength)⟩
  · rintro ⟨sizes, hcut⟩
    exact ⟨_, hcut.isAlignment hss⟩

end Cut

/-- The least number of occurrences that the item tolerates. -/
def Item.least (d : Item δ) : Nat := if d.quantifier.min = 0 then 0 else 1

theorem Quantifier.toNat_min_pos {q : Quantifier} (h : ¬ q.min = 0) : 0 < q.min.toNat :=
  Nat.pos_of_ne_zero fun h0 => h (UInt32.toNat_inj.1 h0)

theorem Item.tolerates_least (d : Item δ) : d.Tolerates d.least := by
  rw [Item.least]
  split
  case isTrue hmin => exact ⟨fun m _ => Nat.zero_le m.toNat, fun _ => hmin⟩
  case isFalse hmin =>
    refine ⟨fun m hm => ?_, fun h0 => absurd h0 Nat.one_ne_zero⟩
    exact Nat.le_trans (Quantifier.toNat_min_pos hmin)
      (UInt32.le_iff_toNat_le.1 (d.quantifier.min_le_max m hm))

theorem Item.least_le_min (d : Item δ) : d.least ≤ d.quantifier.min.toNat := by
  rw [Item.least]
  split
  case isTrue => exact Nat.zero_le _
  case isFalse hmin => exact Quantifier.toNat_min_pos hmin

theorem Item.least_lt_min {d : Item δ} (hmin : ¬ d.quantifier.min ≤ 1) :
    d.least < d.quantifier.min.toNat := by
  have hone : ¬ d.quantifier.min.toNat ≤ 1 := fun h => hmin (UInt32.le_iff_toNat_le.2 h)
  rw [Item.least]
  split <;> omega

theorem isCut_least (ds : List (Item δ)) (label : σ) :
    IsCut (fun _ _ => true) ds (List.replicate (ds.map Item.least).sum (.single label))
      (ds.map Item.least) where
  sum := List.length_replicate.symm
  tolerated := by
    rw [List.forall₂_map_right_iff, List.forall₂_same]
    exact fun d _ => d.tolerates_least
  related := by
    refine List.forall₂_iff_get.2 ⟨?_, fun _ _ _ _ _ => rfl⟩
    rw [List.length_splitLengths, List.length_map]

theorem IsBoundedCut.sum_min_le {p : δ → σ → Bool} {ds : List (Item δ)} {ss : List (Item σ)}
    {sizes : List Nat} (h : IsBoundedCut p ds ss sizes) :
    (ds.map fun d => d.quantifier.min.toNat).sum ≤ ss.length := by
  rw [← h.sum]
  refine List.Forall₂.sum_le_sum ?_
  rw [List.forall₂_map_left_iff]
  exact h.bounded.imp fun _ _ hd => hd.1

/-- Where a minimum is above one, some sequence has too few items for a bounded cut. -/
theorem not_isBoundedCut_least {p : δ → σ → Bool} {ds : List (Item δ)} {d : Item δ} (hd : d ∈ ds)
    (hmin : ¬ d.quantifier.min ≤ 1) {ss : List (Item σ)} (hss : ss.length = (ds.map Item.least).sum)
    (sizes : List Nat) : ¬ IsBoundedCut p ds ss sizes := by
  intro h
  have hlt := List.sum_lt_sum Item.least (fun d : Item δ => d.quantifier.min.toNat)
    (fun d _ => d.least_le_min) ⟨d, hd, Item.least_lt_min hmin⟩
  have hle := h.sum_min_le
  omega

/-- Against a sequence whose items occur once each, an item takes at most as many of them as its
maximum says, and at least one unless its minimum is zero. A cut within the bounds is always found,
but that a match means that there is such a cut is only so for sequences without a minimum above
one. -/
theorem hasAlignment_iff_isCut [Inhabited σ] (b : Bool) (t : Tracer Id δ σ Bool)
    (dest : List (Item δ)) :
    let matched (p : δ → σ → Bool) (src : List (Item σ)) : Bool :=
      (hasAlignment (m := Id) (fun d s => pure (p d s)) { memoize := b } t dest src).1
    (∀ p src, (∀ s ∈ src, s.quantifier = .one) →
      (matched p src = true ↔ ∃ sizes, IsCut p dest src sizes) ∧
        ((∃ sizes, IsBoundedCut p dest src sizes) → matched p src = true)) ∧
      ((∀ d ∈ dest, d.quantifier.min ≤ 1) ↔
        ∀ p src, (∀ s ∈ src, s.quantifier = .one) →
          (matched p src = true ↔ ∃ sizes, IsBoundedCut p dest src sizes)) := by
  intro matched
  have hcut (p : δ → σ → Bool) (src : List (Item σ)) (hsrc : ∀ s ∈ src, s.quantifier = .one) :
      matched p src = true ↔ ∃ sizes, IsCut p dest src sizes := by
    rw [← exists_isAlignment_iff_isCut hsrc, ← isSome_found_existence_iff p t dest src b]
    exact Bool.eq_iff_iff.1 (congrArg Prod.fst (hasAlignment_eq p { memoize := b } t dest src))
  have hfound (p : δ → σ → Bool) (src : List (Item σ)) (hsrc : ∀ s ∈ src, s.quantifier = .one)
      (h : ∃ sizes, IsBoundedCut p dest src sizes) : matched p src = true := by
    obtain ⟨sizes, h⟩ := h
    exact (hcut p src hsrc).2 ⟨sizes, h.isCut⟩
  refine ⟨fun p src hsrc => ⟨hcut p src hsrc, hfound p src hsrc⟩, ?_, ?_⟩
  · intro hmin p src hsrc
    refine ⟨fun h => ?_, hfound p src hsrc⟩
    obtain ⟨sizes, h⟩ := (hcut p src hsrc).1 h
    exact ⟨sizes, h.isBoundedCut hmin⟩
  · intro hbounds d hd
    by_contra hmin
    have hsrc : ∀ s ∈ List.replicate (dest.map Item.least).sum (Item.single (default : σ)),
        s.quantifier = .one := by
      intro s hs
      rw [List.eq_of_mem_replicate hs]
      rfl
    obtain ⟨sizes, h⟩ := (hbounds _ _ hsrc).1 ((hcut _ _ hsrc).2 ⟨_, isCut_least dest default⟩)
    exact not_isBoundedCut_least hd hmin List.length_replicate sizes h

/-- The optional one stays empty, and both twos go to the repeating item. -/
theorem isBoundedCut_zero_two :
    ∃ sizes, IsBoundedCut (fun d s : Nat => d == s) [⟨1, .optional⟩, ⟨2, .oneOrMore⟩]
      [.single 2, .single 2] sizes := by
  have hbounds := (hasAlignment_iff_isCut (σ := Nat) false .silent
    [⟨1, .optional⟩, ⟨2, .oneOrMore⟩]).2.1 (by decide)
  exact (hbounds (fun d s => d == s) [.single 2, .single 2] (by decide)).1 (by decide +kernel)

/-- An item that is to occur twice matches a sequence in which it occurs once. -/
theorem matching_below_minimum :
    (hasAlignment (m := Id) (fun d s : Nat => pure (d == s)) {} .silent [⟨1, .exactly 2⟩]
        [.single 1]).1 = true ∧
      ¬ ∃ sizes, IsBoundedCut (fun d s : Nat => d == s) [⟨1, .exactly 2⟩] [.single 1] sizes := by
  refine ⟨by decide +kernel, ?_⟩
  rintro ⟨sizes, h⟩
  have hle : 2 ≤ 1 := h.sum_min_le
  omega

end SeqAlign
