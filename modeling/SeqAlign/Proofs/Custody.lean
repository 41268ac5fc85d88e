import Mathlib.Data.List.Nodup
import Mathlib.Data.List.Perm.Basic
import SeqAlign.Ownership

/-!
# SeqAlign.Proofs.Custody

Every object that has been created is in one place.

* `Custody.holders`, `Custody.destructions`, `Custody.handovers`: how many boxes hold an object, how
  often it has been destroyed, and how often it has been handed out.
* `Custody.places`: the three together. Letting go of an object, taking one over and moving one
  between boxes are equations between such sums (`places_vacate`, `places_reset`, `places_swap`).
* `Custody.Accounted`: an object that has been created has one place, and all others have none. Every
  operation keeps this (`Accounted.apply`).
* `Custody.OwnsOnce`: what this says about boxes and destroyed objects.
* `applyAll_ownsOnce`: it holds after any operations on any number of boxes. Once all boxes have come
  to their end, each object that was not handed out has been destroyed once.
-/

namespace SeqAlign

namespace Custody

/-- So many of these objects have this identity. -/
def times (id : Nat) (objects : List Object) : Nat := objects.countP fun o => o.id == id

/-- A box with this content holds the object with this identity. -/
def isIn (id : Nat) (held : Option Object) : Bool := held.any fun o => o.id == id

def holders (c : Custody) (id : Nat) : Nat := c.boxes.countP (isIn id)

def destructions (c : Custody) (id : Nat) : Nat := times id c.destroyed

def handovers (c : Custody) (id : Nat) : Nat := times id c.released

def places (c : Custody) (id : Nat) : Nat := c.holders id + c.destructions id + c.handovers id

variable (c : Custody) (box : Nat) (id : Nat)

theorem times_append (xs ys : List Object) : times id (xs ++ ys) = times id xs + times id ys :=
  List.countP_append

theorem ite_isIn (held : Option Object) :
    (if isIn id held = true then 1 else 0) = times id held.toList := by
  cases held with
  | none => rfl
  | some o => simp [isIn, times, List.countP_cons]

theorem countP_append_box (boxes : List (Option Object)) (held : Option Object) :
    (boxes ++ [held]).countP (isIn id) = boxes.countP (isIn id) + times id held.toList := by
  rw [List.countP_append, List.countP_singleton, ite_isIn]

/-- What a box takes over is held once more, and what it held before once less. -/
theorem countP_set_box {boxes : List (Option Object)} (h : box < boxes.length)
    (new : Option Object) :
    (boxes.set box new).countP (isIn id) + times id (boxes[box]?).join.toList =
      boxes.countP (isIn id) + times id new.toList := by
  have hold : times id boxes[box].toList ≤ boxes.countP (isIn id) := by
    rw [← ite_isIn]
    split
    · exact List.countP_pos_iff.2 ⟨boxes[box], List.getElem_mem h, by assumption⟩
    · exact Nat.zero_le _
  rw [List.countP_set h, ite_isIn, ite_isIn, List.getElem?_eq_getElem h, Option.join_some]
  omega

theorem held_of_length_le {c : Custody} {box : Nat} (h : c.boxes.length ≤ box) :
    c.held box = none := by
  rw [held, List.getElem?_eq_none h]
  rfl

theorem places_vacate :
    (c.vacate box).places id + times id (c.held box).toList = c.places id := by
  have hholders : (c.vacate box).holders id + times id (c.held box).toList = c.holders id := by
    by_cases h : box < c.boxes.length
    · exact countP_set_box box id h none
    · rw [held_of_length_le (Nat.le_of_not_lt h), holders, vacate,
        List.set_eq_of_length_le (Nat.le_of_not_lt h)]
      rfl
  have hrest : (c.vacate box).destructions id + (c.vacate box).handovers id =
    c.destructions id + c.handovers id := rfl
  simp only [places]
  omega

theorem places_reset (h : box < c.boxes.length) (new : Option Object) :
    (c.reset box new).places id = c.places id + times id new.toList := by
  have hholders : (c.reset box new).holders id + times id (c.held box).toList =
    c.holders id + times id new.toList := countP_set_box box id h new
  have hdestroyed : (c.reset box new).destructions id =
    c.destructions id + times id (c.held box).toList := times_append id _ _
  have hreleased : (c.reset box new).handovers id = c.handovers id := rfl
  simp only [places]
  omega

theorem places_reset_none : (c.reset box none).places id = c.places id := by
  by_cases h : box < c.boxes.length
  · exact places_reset c box id h none
  · have hsame : c.reset box none = c := by
      rw [reset, held_of_length_le (Nat.le_of_not_lt h),
        List.set_eq_of_length_le (Nat.le_of_not_lt h)]
      simp
    rw [hsame]

theorem places_swap {box other : Nat} (h : box < c.boxes.length) (hother : other < c.boxes.length) :
    (c.apply (.swap box other)).places id = c.places id := by
  have hfirst := countP_set_box box id h (c.held other)
  have hlength : other < (c.boxes.set box (c.held other)).length := by rwa [List.length_set]
  have hsecond := countP_set_box other id hlength (c.held box)
  -- the second box still holds what it held, also if it is the first one
  have hkept : ((c.boxes.set box (c.held other))[other]?).join = c.held other := by
    rw [List.getElem?_set]
    split
    · rfl
    · rfl
  rw [hkept] at hsecond
  have hholders : (c.apply (.swap box other)).holders id = c.holders id := by
    simp only [holders, apply, h, hother, and_self, if_true]
    simp only [held] at hfirst hsecond ⊢
    omega
  have hrest : (c.apply (.swap box other)).destructions id +
      (c.apply (.swap box other)).handovers id = c.destructions id + c.handovers id := by
    simp only [apply, h, hother, and_self, if_true]
    rfl
  simp only [places]
  omega

theorem countP_eraseIdx_box {boxes : List (Option Object)} (h : boxes[box]? = some none) :
    (boxes.eraseIdx box).countP (isIn id) = boxes.countP (isIn id) := by
  obtain ⟨hlt, hbox⟩ := List.getElem?_eq_some_iff.1 h
  rw [← (List.getElem_cons_eraseIdx_perm hlt).countP_eq, List.countP_cons, hbox, ite_isIn]
  rfl

theorem places_remove : (c.apply (.remove box)).places id = c.places id := by
  have hplaces := places_reset_none c box id
  have hholders : (c.apply (.remove box)).holders id = (c.reset box none).holders id := by
    by_cases h : box < c.boxes.length
    · exact countP_eraseIdx_box box id (by simp [reset, h])
    · have hlength : (c.reset box none).boxes.length ≤ box := by
        simpa [reset] using Nat.le_of_not_lt h
      simp only [holders, apply, List.eraseIdx_of_length_le hlength]
  have hrest : (c.apply (.remove box)).destructions id + (c.apply (.remove box)).handovers id =
    (c.reset box none).destructions id + (c.reset box none).handovers id := rfl
  simp only [places] at hplaces ⊢
  omega

/-- One place for each object that has been created, and none for any other. -/
def Accounted (c : Custody) : Prop := ∀ id, c.places id = if id < c.created then 1 else 0

variable {c}

theorem Accounted.of_eq {c' : Custody} (h : c.Accounted) (hcreated : c'.created = c.created)
    (hplaces : ∀ id, c'.places id = c.places id) : c'.Accounted := by
  intro id
  rw [hplaces, hcreated, h id]

theorem accounted_ofBoxes (n : Nat) : (ofBoxes n).Accounted := by
  intro id
  have hnone : (List.replicate n none).countP (isIn id) = 0 :=
    List.countP_eq_zero.2 fun held hheld => by
      rw [(List.mem_replicate.1 hheld).2]
      simp [isIn]
  simp [places, holders, destructions, handovers, ofBoxes, hnone, times]

theorem Accounted.apply (h : c.Accounted) (op : BoxOp) : (c.apply op).Accounted := by
  cases op with
  | add =>
    refine h.of_eq rfl fun id => ?_
    have hholders : (c.apply .add).holders id = c.holders id := countP_append_box id c.boxes none
    simp only [places, hholders]
    rfl
  | addFrom source =>
    simp only [Custody.apply]
    split
    · refine h.of_eq rfl fun id => ?_
      rw [← places_vacate c source id]
      have hholders := countP_append_box id (c.vacate source).boxes (c.held source)
      simp only [places, holders, hholders, destructions, handovers]
      omega
    · exact h
  | store box value negated =>
    simp only [Custody.apply]
    split
    case isTrue hbox =>
      intro id
      let counted : Custody := { c with created := c.created + 1 }
      have hplaces := places_reset counted box id hbox (some ⟨c.created, value, negated⟩)
      have hold : counted.places id = if id < c.created then 1 else 0 := h id
      have hnew : times id [(⟨c.created, value, negated⟩ : Object)] =
          if c.created = id then 1 else 0 := by
        simp [times, List.countP_cons]
      calc (counted.reset box (some ⟨c.created, value, negated⟩)).places id
          = (if id < c.created then 1 else 0) + if c.created = id then 1 else 0 := by
            rw [hplaces, hold, Option.toList_some, hnew]
        _ = if id < c.created + 1 then 1 else 0 := by
            split <;> split <;> split <;> omega
    case isFalse => exact h
  | clear box => exact h.of_eq rfl fun id => places_reset_none c box id
  | transfer box source =>
    simp only [Custody.apply]
    split
    case isTrue hboxes =>
      refine h.of_eq rfl fun id => ?_
      rw [places_reset _ box id (by simpa [vacate] using hboxes.1)]
      exact places_vacate c source id
    case isFalse => exact h
  | swap box other =>
    by_cases hboxes : box < c.boxes.length ∧ other < c.boxes.length
    · refine h.of_eq ?_ fun id => places_swap c id hboxes.1 hboxes.2
      simp only [Custody.apply, hboxes, and_self, if_true]
    · simp only [Custody.apply, hboxes, if_false]
      exact h
  | release box =>
    refine h.of_eq rfl fun id => ?_
    have hhandovers : (c.apply (.release box)).handovers id =
      (c.vacate box).handovers id + times id (c.held box).toList := times_append id _ _
    rw [← places_vacate c box id]
    simp only [places, hhandovers]
    exact (Nat.add_assoc _ _ _).symm
  | remove box => exact h.of_eq rfl fun id => places_remove c box id

theorem Accounted.applyAll (h : c.Accounted) (ops : List BoxOp) : (c.applyAll ops).Accounted := by
  induction ops generalizing c with
  | nil => exact h
  | cons op ops ih => exact ih (h.apply op)

theorem destroyed_prefix_apply (c : Custody) (op : BoxOp) :
    c.destroyed <+: (c.apply op).destroyed := by
  cases op with
  | add => exact List.prefix_rfl
  | addFrom source =>
    simp only [apply]
    split <;> exact List.prefix_rfl
  | store box value negated =>
    simp only [apply]
    split
    · exact List.prefix_append _ _
    · exact List.prefix_rfl
  | clear box => exact List.prefix_append _ _
  | transfer box source =>
    simp only [apply]
    split
    · exact List.prefix_append _ _
    · exact List.prefix_rfl
  | swap box other =>
    simp only [apply]
    split <;> exact List.prefix_rfl
  | release box => exact List.prefix_rfl
  | remove box => exact List.prefix_append _ _

theorem destroyed_prefix_applyAll (c : Custody) (ops : List BoxOp) :
    c.destroyed <+: (c.applyAll ops).destroyed := by
  induction ops generalizing c with
  | nil => exact List.prefix_rfl
  | cons op ops ih => exact (destroyed_prefix_apply c op).trans (ih (c.apply op))

/-! ## Owning once -/

/-- Boxes share no objects, and hold none that has been destroyed. -/
structure OwnsOnce (c : Custody) : Prop where
  held_once : ∀ i j o o', c.held i = some o → c.held j = some o' → o.id = o'.id → i = j
  destroyed_once : (c.destroyed.map Object.id).Nodup
  held_alive : ∀ i o, c.held i = some o → o.id ∉ c.destroyed.map Object.id
  /-- One box holds it, or it has been destroyed, or it has been handed out. -/
  one_place : ∀ id < c.created, c.holders id + c.destructions id + c.handovers id = 1

theorem holders_pos {i : Nat} {o : Object} (h : c.held i = some o) : 0 < c.holders o.id := by
  obtain ⟨_, hheld, rfl⟩ := Option.bind_eq_some_iff.1 h
  exact List.countP_pos_iff.2 ⟨_, List.mem_of_getElem? hheld, by simp [isIn]⟩

theorem times_eq_count (id : Nat) (objects : List Object) :
    times id objects = (objects.map Object.id).count id := by
  rw [times, List.count, List.countP_map]
  rfl

theorem Accounted.places_le (h : c.Accounted) (id : Nat) : c.places id ≤ 1 := by
  rw [h id]
  split <;> omega

theorem Accounted.ownsOnce (h : c.Accounted) : c.OwnsOnce where
  held_once i j o o' hi hj hid := by
    -- without the first box nobody would hold the object, but the second one does
    by_contra hij
    have hone := h.places_le o.id
    have hvacated := places_vacate c i o.id
    have htimes : times o.id (c.held i).toList = 1 := by simp [hi, times]
    have hstays : (c.vacate i).held j = some o' := by
      rw [← hj, held, held, vacate, List.getElem?_set_ne hij]
    have hpos := holders_pos hstays
    rw [← hid] at hpos
    have hle : (c.vacate i).holders o.id ≤ (c.vacate i).places o.id := by
      rw [places]
      omega
    omega
  destroyed_once := by
    refine List.nodup_iff_count_le_one.2 fun id => ?_
    have hone := h.places_le id
    rw [← times_eq_count]
    simp only [places, destructions] at hone
    omega
  held_alive i o hi hmem := by
    have hone := h.places_le o.id
    have hpos := holders_pos hi
    have hdestroyed : 0 < c.destructions o.id := by
      rw [destructions, times_eq_count]
      exact List.count_pos_iff.2 hmem
    simp only [places] at hone
    omega
  one_place id hid := by
    have hone := h id
    rwa [if_pos hid, places] at hone

/-- After any operations on any number of boxes, no object is held by two boxes, none has been
destroyed twice or is held after its destruction, and each one that was created has one place. What
has been destroyed stays destroyed. Once no box is left, each object that was not handed out has been
destroyed, once. -/
theorem applyAll_ownsOnce (n : Nat) (ops : List BoxOp) :
    let c := (ofBoxes n).applyAll ops
    c.OwnsOnce ∧
      (∀ later, c.destroyed <+: (c.applyAll later).destroyed) ∧
      (c.boxes = [] → ∀ id < c.created, c.handovers id = 0 → c.destructions id = 1) := by
  intro c
  have howns : c.OwnsOnce := ((accounted_ofBoxes n).applyAll ops).ownsOnce
  refine ⟨howns, destroyed_prefix_applyAll c, ?_⟩
  intro hboxes id hid hkept
  have hone := howns.one_place id hid
  have hholders : c.holders id = 0 := by rw [holders, hboxes]; rfl
  omega

/-- Three objects: the first gives way to the second, which is handed out, and the third is held to
the end. -/
theorem applyAll_ownsOnce_three :
    let c := (ofBoxes 2).applyAll
      [.store 0 5 false, .transfer 0 0, .addFrom 0, .swap 1 2, .store 1 7 true, .store 2 9 false,
        .release 1, .remove 0, .remove 0, .remove 0]
    c.boxes = [] ∧ c.created = 3 ∧ c.destructions 0 = 1 ∧ c.handovers 1 = 1 ∧
      c.destructions 2 = 1 := by
  intro c
  obtain ⟨_, _, hended⟩ := applyAll_ownsOnce 2
    [.store 0 5 false, .transfer 0 0, .addFrom 0, .swap 1 2, .store 1 7 true, .store 2 9 false,
      .release 1, .remove 0, .remove 0, .remove 0]
  have hboxes : c.boxes = [] := by decide
  exact ⟨hboxes, by decide, hended hboxes 0 (by decide) (by decide), by decide,
    hended hboxes 2 (by decide) (by decide)⟩

end Custody

end SeqAlign
