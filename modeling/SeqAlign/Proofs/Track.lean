import SeqAlign.Proofs.Places

/-!
# SeqAlign.Proofs.Track

One side of a walk, and how often it has visited each index.

* `Item.Tolerates`: how often an item may occur in an alignment. `Tolerated` says so of all items
  of a sequence.
* `Track items p is`: a walk that stands at `p` has visited the indices `is`. Those behind it have
  been visited as often as their items tolerate, and the tracker that it stands on has counted the
  visits.
* `Track.arrive`, `Track.stay`, `Track.depart`, `Track.leave`: what each kind of move keeps.
* `Track.exists_arrival`, `Track.exists_move`: to the next index that a walk is to visit there is a
  move, as long as its indices occur as often as their items tolerate.
-/

namespace SeqAlign

variable {α : Type}

/-- At most as often as the maximum says; never only if the minimum is zero. -/
def Item.Tolerates (item : Item α) (times : Nat) : Prop :=
  (∀ m, item.quantifier.max = some m → times ≤ m.toNat) ∧ (times = 0 → item.quantifier.min = 0)

/-- Each index of the sequence occurs as often as its item tolerates. -/
def Tolerated (items : List (Item α)) (is : List Nat) : Prop :=
  ∀ (i : Nat) (item : Item α), items[i]? = some item → item.Tolerates (is.count i)

theorem Tolerated.min_eq_zero {items : List (Item α)} {is : List Nat} (h : Tolerated items is)
    {i : Nat} {item : Item α} (hitem : items[i]? = some item) (hi : i ∉ is) :
    item.quantifier.min = 0 :=
  (h i item hitem).2 (List.count_eq_zero.2 hi)

theorem length_freshTrackers (items : List (Item α)) :
    (freshTrackers items).length = items.length := by
  simp [freshTrackers, entries]

theorem drop_freshTrackers_eq_nil {items : List (Item α)} {k : Nat} (h : items.length ≤ k) :
    (freshTrackers items).drop k = [] :=
  List.drop_eq_nil_of_le (Nat.le_trans (Nat.le_of_eq (length_freshTrackers items)) h)

theorem getElem?_entries (items : List (Item α)) (i : Nat) :
    (entries items)[i]? = items[i]?.map (Entry.mk i) :=
  List.getElem?_mapIdx

theorem mem_entries {items : List (Item α)} {e : Entry α} :
    e ∈ entries items ↔ items[e.position]? = some e.item := by
  rw [List.mem_iff_getElem?]
  constructor
  · rintro ⟨i, hi⟩
    rw [getElem?_entries, Option.map_eq_some_iff] at hi
    obtain ⟨item, hitem, rfl⟩ := hi
    exact hitem
  · intro h
    exact ⟨e.position, by rw [getElem?_entries, h]; rfl⟩

theorem getElem?_freshTrackers (items : List (Item α)) (i : Nat) :
    (freshTrackers items)[i]? = items[i]?.map fun item => ⟨⟨i, item⟩, 0⟩ := by
  rw [freshTrackers, List.getElem?_map, getElem?_entries, Option.map_map]
  rfl

theorem isSkippable_of_fresh {items : List (Item α)} {i : Nat} {t : Tracker α}
    (ht : (freshTrackers items)[i]? = some t)
    (hmin : ∀ item, items[i]? = some item → item.quantifier.min = 0) : t.isSkippable = true := by
  rw [getElem?_freshTrackers, Option.map_eq_some_iff] at ht
  obtain ⟨item, hitem, rfl⟩ := ht
  simpa [Tracker.isSkippable, Tracker.item] using hmin item hitem

theorem mem_freshTrackers {items : List (Item α)} {t : Tracker α} :
    t ∈ freshTrackers items ↔ items[t.entry.position]? = some t.item ∧ t.count = 0 := by
  simp only [freshTrackers, List.mem_map, mem_entries]
  constructor
  · rintro ⟨e, he, rfl⟩
    exact ⟨he, rfl⟩
  · rintro ⟨hitem, hcount⟩
    exact ⟨t.entry, hitem, by rw [← hcount]⟩

theorem item_mem_of_entry {items : List (Item α)} {a : Tracker α}
    (h : ∃ t ∈ freshTrackers items, a.entry = t.entry) : a.item ∈ items := by
  obtain ⟨t, ht, hentry⟩ := h
  rw [Tracker.item, hentry]
  exact List.mem_of_getElem? (mem_freshTrackers.1 ht).1

theorem Place.Of.item {items : List (Item α)} {i : Nat} {t : Tracker α} {ts : List (Tracker α)}
    (h : Place.Of (freshTrackers items) ⟨i, t :: ts⟩) :
    ∃ item, items[i]? = some item ∧ t.entry = ⟨i, item⟩ ∧
      ts = (freshTrackers items).drop (i + 1) := by
  obtain ⟨u, hu, hentry, hts⟩ := h.cons
  rw [getElem?_freshTrackers, Option.map_eq_some_iff] at hu
  obtain ⟨item, hitem, rfl⟩ := hu
  exact ⟨item, hitem, hentry, hts⟩

section Arrivals

variable {items : List (Item α)} {k : Nat} {mv : Move α}

/-- What is jumped over on the way into the rest of a sequence need not occur. -/
theorem min_eq_zero_of_jumped (hmv : mv ∈ Place.arrivals k ((freshTrackers items).drop k)) {i : Nat}
    {item : Item α} (hk : k ≤ i) (hi : i < mv.place.index) (hitem : items[i]? = some item) :
    item.quantifier.min = 0 := by
  obtain ⟨js, ts, hrest, _, hall, rfl⟩ := Place.mem_arrivals.1 hmv
  obtain ⟨l, rfl⟩ := Nat.exists_eq_add_of_le hk
  have hl : (js ++ ts)[l]? = some ⟨⟨k + l, item⟩, 0⟩ := by
    rw [← hrest, List.getElem?_drop, getElem?_freshTrackers, hitem]
    rfl
  rw [List.getElem?_append_left (by simp only at hi; omega)] at hl
  simpa [Tracker.isSkippable, Tracker.item] using hall _ (List.mem_of_getElem? hl)

theorem fresh_of_arrival (hmv : mv ∈ Place.arrivals k ((freshTrackers items).drop k))
    {t : Tracker α} (ht : mv.place.tracker? = some t) :
    ∃ item, items[mv.place.index]? = some item ∧ t = ⟨⟨mv.place.index, item⟩, 0⟩ := by
  obtain ⟨js, ts, hrest, _, _, rfl⟩ := Place.mem_arrivals.1 hmv
  have hl : (freshTrackers items)[k + js.length]? = some t := by
    rw [← List.getElem?_drop, hrest, List.getElem?_append_right (Nat.le_refl _), Nat.sub_self,
      ← List.head?_eq_getElem?]
    exact ht
  rw [getElem?_freshTrackers, Option.map_eq_some_iff] at hl
  obtain ⟨item, hitem, rfl⟩ := hl
  exact ⟨item, hitem, rfl⟩

end Arrivals

theorem Tracker.toNat_count_matched {t : Tracker α} {m : UInt32}
    (hm : t.item.quantifier.max = some m) (hmore : t.hasMore = true) :
    t.matched.count.toNat = t.count.toNat + 1 := by
  simp only [Tracker.hasMore, hm, decide_eq_true_eq, UInt32.lt_iff_toNat_lt] at hmore
  -- a count below a maximum does not wrap
  have := UInt32.toNat_lt m
  simp only [Tracker.matched, UInt32.toNat_add, UInt32.toNat_one]
  omega

theorem le_of_mem_concat {is : List Nat} {i : Nat} (h : ∀ k ∈ is, k ≤ i) :
    ∀ k ∈ is ++ [i], k ≤ i := by
  intro k hk
  rcases List.mem_append.1 hk with hk | hk
  · exact h k hk
  · exact Nat.le_of_eq (List.mem_singleton.1 hk)

structure Track (items : List (Item α)) (p : Place α) (is : List Nat) : Prop where
  place : p.Of (freshTrackers items)
  le : ∀ i ∈ is, i ≤ p.index
  behind : ∀ i item, i < p.index → items[i]? = some item → item.Tolerates (is.count i)
  counted : ∀ t m, p.tracker? = some t → t.item.quantifier.max = some m →
    t.count.toNat = is.count p.index ∧ t.count ≤ m

namespace Track

variable {items : List (Item α)} {p : Place α} {is : List Nat} {i : Nat} {t : Tracker α}
  {ts : List (Tracker α)} {mv : Move α}

theorem head (h : Track items ⟨i, t :: ts⟩ is) :
    ∃ item, items[i]? = some item ∧ t.entry = ⟨i, item⟩ ∧
      ts = (freshTrackers items).drop (i + 1) :=
  h.place.item

theorem count_eq_zero {k : Nat} (h : ∀ i ∈ is, i < k) (hi : k ≤ i) : is.count i = 0 := by
  refine List.count_eq_zero.2 fun hmem => ?_
  have := h i hmem
  omega

/-- Entering the rest of a sequence: what is jumped over need not occur, and what lies ahead has
not been visited. -/
theorem arrive {k : Nat} (hk : k ≤ items.length) (hlt : ∀ i ∈ is, i < k)
    (hbehind : ∀ i item, i < k → items[i]? = some item → item.Tolerates (is.count i))
    (hmv : mv ∈ Place.arrivals k ((freshTrackers items).drop k)) : Track items mv.place is := by
  have hle := Place.le_index_of_mem_arrivals hmv
  refine ⟨Place.of_mem_arrivals (length_freshTrackers items ▸ hk) hmv, ?_, ?_, ?_⟩
  · intro i hi
    exact Nat.le_trans (Nat.le_of_lt (hlt i hi)) hle
  · intro i item hi hitem
    by_cases hik : i < k
    · exact hbehind i item hik hitem
    · have hki := Nat.le_of_not_lt hik
      rw [count_eq_zero hlt hki]
      exact ⟨fun m _ => Nat.zero_le _, fun _ => min_eq_zero_of_jumped hmv hki hi hitem⟩
  · intro t m ht _
    obtain ⟨item, _, rfl⟩ := fresh_of_arrival hmv ht
    rw [count_eq_zero hlt hle]
    exact ⟨rfl, UInt32.le_iff_toNat_le.2 (Nat.zero_le _)⟩

theorem length_eq_zero (hmv : mv ∈ Place.arrivals 0 (freshTrackers items))
    (hrest : mv.place.rest = []) : items.length = 0 := by
  obtain ⟨js, ts, hjs, hend, _, rfl⟩ := Place.mem_arrivals.1 hmv
  obtain rfl : ts = [] := hrest
  obtain rfl := hend.resolve_right (fun h => h rfl)
  rw [← length_freshTrackers, hjs]
  rfl

theorem fresh (hmv : mv ∈ Place.arrivals 0 (freshTrackers items)) : Track items mv.place [] :=
  arrive (Nat.zero_le _) (by simp) (fun i _ hi => absurd hi (Nat.not_lt_zero i)) hmv

theorem tolerates (h : Track items ⟨i, t :: ts⟩ is) (hmore : t.hasMore = true) {k : Nat}
    {item : Item α} (hk : k < i + 1) (hitem : items[k]? = some item) :
    item.Tolerates ((is ++ [i]).count k) := by
  rcases Nat.lt_succ_iff_lt_or_eq.1 hk with hk | rfl
  · have hne : (i == k) = false := by simp; omega
    rw [List.count_append, List.count_singleton, hne]
    exact h.behind k item hk hitem
  · obtain ⟨item', hitem', hentry, _⟩ := h.head
    cases hitem.symm.trans hitem'
    rw [List.count_append, List.count_singleton_self]
    refine ⟨fun m hm => ?_, fun h0 => absurd h0 (Nat.succ_ne_zero _)⟩
    have hm' : t.item.quantifier.max = some m := by rw [Tracker.item, hentry, hm]
    have hcount := (h.counted t m rfl hm').1
    simp only [Tracker.hasMore, hm', decide_eq_true_eq, UInt32.lt_iff_toNat_lt] at hmore
    simp only at hcount
    omega

theorem depart (h : Track items ⟨i, t :: ts⟩ is) (hmore : t.hasMore = true)
    (hmv : mv ∈ Place.departures ⟨i, t :: ts⟩) : Track items mv.place (is ++ [i]) := by
  obtain ⟨item, hitem, _, rfl⟩ := h.head
  refine arrive (List.getElem?_eq_some_iff.1 hitem).1 ?_ ?_ hmv
  · intro k hk
    exact Nat.lt_succ_of_le (le_of_mem_concat h.le k hk)
  · intro k item hk hitem
    exact h.tolerates hmore hk hitem

theorem stay (h : Track items ⟨i, t :: ts⟩ is) (hmore : t.hasMore = true)
    (hmv : mv ∈ Place.stays ⟨i, t :: ts⟩) : Track items mv.place (is ++ [i]) := by
  have hplace := Place.of_mem_moves h.place (List.mem_append_left _ hmv)
  obtain ⟨hmore', rfl⟩ := Place.mem_stays.1 hmv
  refine ⟨hplace, le_of_mem_concat h.le, ?_, ?_⟩
  · intro k item hk hitem
    exact h.tolerates hmore (Nat.lt_succ_of_lt hk) hitem
  · intro u m hu hm
    obtain rfl := Option.some.inj hu
    have hmt : t.item.quantifier.max = some m := hm
    obtain ⟨hcount, _⟩ := h.counted t m rfl hmt
    have hsucc := Tracker.toNat_count_matched hmt hmore
    simp only [Tracker.hasMore, hm, decide_eq_true_eq, UInt32.lt_iff_toNat_lt] at hmore'
    simp only at hcount
    rw [hsucc, List.count_append, List.count_singleton_self, hcount]
    exact ⟨rfl, UInt32.le_iff_toNat_le.2 (Nat.le_of_lt hmore')⟩

theorem move (h : Track items ⟨i, t :: ts⟩ is) (hmore : t.hasMore = true)
    (hmv : mv ∈ Place.moves ⟨i, t :: ts⟩) : Track items mv.place (is ++ [i]) := by
  rcases List.mem_append.1 hmv with hmv | hmv
  · exact h.stay hmore hmv
  · exact h.depart hmore hmv

theorem leave (h : Track items ⟨i, t :: ts⟩ is) (hskip : t.isSkippable = true) :
    Track items ⟨i + 1, ts⟩ is := by
  obtain ⟨item, hitem, hentry, rfl⟩ := h.head
  show Track items (⟨[], ⟨i + 1, (freshTrackers items).drop (i + 1)⟩⟩ : Move α).place is
  refine arrive (List.getElem?_eq_some_iff.1 hitem).1
    (fun k hk => Nat.lt_succ_of_le (h.le k hk)) ?_ List.mem_cons_self
  intro k item' hk hitem'
  rcases Nat.lt_succ_iff_lt_or_eq.1 hk with hk | rfl
  · exact h.behind k item' hk hitem'
  · cases hitem.symm.trans hitem'
    refine ⟨fun m hm => ?_, fun _ => ?_⟩
    · obtain ⟨hcount, hle⟩ := h.counted t m rfl (by rw [Tracker.item, hentry, hm])
      rw [← hcount]
      exact UInt32.le_iff_toNat_le.1 hle
    · simpa [Tracker.isSkippable, Tracker.item, hentry] using hskip

theorem final (h : Track items ⟨i, []⟩ is) : Tolerated items is := by
  intro k item hitem
  have hi := h.place.nil
  rw [length_freshTrackers] at hi
  exact h.behind k item (hi ▸ (List.getElem?_eq_some_iff.1 hitem).1) hitem

theorem last (h : Track items ⟨i, t :: ts⟩ is) (hmv : mv ∈ Place.moves ⟨i, t :: ts⟩)
    (hrest : mv.place.rest = []) : i + 1 = items.length := by
  obtain ⟨item, hitem, _, rfl⟩ := h.head
  have hi := (List.getElem?_eq_some_iff.1 hitem).1
  rcases List.mem_append.1 hmv with hmv | hmv
  · obtain ⟨_, rfl⟩ := Place.mem_stays.1 hmv
    cases hrest
  · obtain ⟨js, ts, hjs, hend, _, rfl⟩ := Place.mem_arrivals.1 hmv
    obtain rfl : ts = [] := hrest
    obtain rfl := hend.resolve_right (fun h => h rfl)
    have hdrop := List.drop_eq_nil_iff.1 hjs
    rw [length_freshTrackers] at hdrop
    omega

/-- Behind the last index that is to be visited no item has to occur. -/
theorem min_eq_zero (h : Track items ⟨i, t :: ts⟩ is) (hall : Tolerated items (is ++ [i])) {k : Nat}
    {item : Item α} (hk : i + 1 ≤ k) (hitem : items[k]? = some item) :
    item.quantifier.min = 0 := by
  refine hall.min_eq_zero hitem fun hmem => ?_
  rcases List.mem_append.1 hmem with hmem | hmem
  · have := h.le k hmem
    simp only at this
    omega
  · have := List.mem_singleton.1 hmem
    omega

/-! ## Moves that exist

A walk is to visit the indices of a list, in its order, each as often as its item tolerates. -/

variable {ls : List Nat}

theorem hasMore (h : Track items ⟨i, t :: ts⟩ is)
    (hall : Tolerated items (is ++ i :: ls)) :
    t.hasMore = true := by
  obtain ⟨item, hitem, hentry, _⟩ := h.head
  cases hm : item.quantifier.max with
  | none => simp [Tracker.hasMore, Tracker.item, hentry, hm]
  | some m =>
    have hmt : t.item.quantifier.max = some m := by rw [Tracker.item, hentry, hm]
    have hcount := (h.counted t m rfl hmt).1
    have hle := (hall i item hitem).1 m hm
    rw [List.count_append, List.count_cons_self] at hle
    simp only [Tracker.hasMore, hmt, decide_eq_true_eq, UInt32.lt_iff_toNat_lt, hcount]
    omega

theorem hasMore_matched (h : Track items ⟨i, t :: ts⟩ is)
    (hall : Tolerated items (is ++ i :: i :: ls)) :
    t.matched.hasMore = true := by
  have hmore := h.hasMore hall
  obtain ⟨item, hitem, hentry, _⟩ := h.head
  cases hm : item.quantifier.max with
  | none => simp [Tracker.hasMore, Tracker.matched, Tracker.item, hentry, hm]
  | some m =>
    have hmt : t.item.quantifier.max = some m := by rw [Tracker.item, hentry, hm]
    have hmt' : t.matched.item.quantifier.max = some m := hmt
    have hcount := (h.counted t m rfl hmt).1
    have hle := (hall i item hitem).1 m hm
    rw [List.count_append, List.count_cons_self, List.count_cons_self] at hle
    simp only [Tracker.hasMore, hmt', decide_eq_true_eq, UInt32.lt_iff_toNat_lt,
      Tracker.toNat_count_matched hmt hmore, hcount]
    omega

theorem exists_arrival {k l : Nat} (hkl : k ≤ l) (hl : l < items.length)
    (hmin : ∀ i item, k ≤ i → i < l → items[i]? = some item → item.quantifier.min = 0) :
    ∃ mv ∈ Place.arrivals k ((freshTrackers items).drop k), ∃ u us, mv.place = ⟨l, u :: us⟩ := by
  have hlength := length_freshTrackers items
  have hrest : (freshTrackers items).drop k =
      ((freshTrackers items).drop k).take (l - k) ++ (freshTrackers items).drop l := by
    have := (List.take_append_drop (l - k) ((freshTrackers items).drop k)).symm
    rwa [List.drop_drop, Nat.add_sub_cancel' hkl] at this
  obtain ⟨u, us, hcons⟩ : ∃ u us, (freshTrackers items).drop l = u :: us :=
    List.exists_cons_of_ne_nil (by rw [Ne, List.drop_eq_nil_iff]; omega)
  rw [hcons] at hrest
  refine ⟨_, Place.mem_arrivals.2 ⟨_, u :: us, hrest, .inr (List.cons_ne_nil u us), ?_, rfl⟩,
    u, us, ?_⟩
  · intro t ht
    obtain ⟨a, ha⟩ := List.mem_iff_getElem?.1 ht
    have halt := (List.getElem?_eq_some_iff.1 ha).1
    simp only [List.length_take] at halt
    rw [List.getElem?_take_of_lt (by omega), List.getElem?_drop] at ha
    exact isSkippable_of_fresh ha fun item hitem =>
      hmin (k + a) item (Nat.le_add_right k a) (by omega) hitem
  · simp only [List.length_take, List.length_drop, Place.mk.injEq, and_true]
    omega

theorem exists_entry (hls : ∀ k ∈ ls, i ≤ k) (hi : i < items.length)
    (hall : Tolerated items (i :: ls)) :
    ∃ mv ∈ Place.arrivals 0 (freshTrackers items), ∃ u us, mv.place = ⟨i, u :: us⟩ := by
  refine exists_arrival (Nat.zero_le i) hi ?_
  intro k item _ hk hitem
  refine hall.min_eq_zero hitem fun hmem => ?_
  rcases List.mem_cons.1 hmem with rfl | hmem
  · omega
  · have := hls k hmem
    omega

theorem exists_move (h : Track items ⟨i, t :: ts⟩ is) {l : Nat} (hil : i ≤ l)
    (hls : ∀ k ∈ ls, l ≤ k) (hl : l < items.length)
    (hall : Tolerated items (is ++ i :: l :: ls)) :
    ∃ mv : Move α, (∃ u us, mv.place = ⟨l, u :: us⟩) ∧
      (i = l ∧ mv ∈ Place.stays ⟨i, t :: ts⟩ ∨ i < l ∧ mv ∈ Place.departures ⟨i, t :: ts⟩) := by
  rcases Nat.eq_or_lt_of_le hil with rfl | hlt
  · exact ⟨_, ⟨_, _, rfl⟩, .inl ⟨rfl, Place.mem_stays.2 ⟨h.hasMore_matched hall, rfl⟩⟩⟩
  · obtain ⟨_, _, _, rfl⟩ := h.head
    have hmin (k : Nat) (item : Item α) (hk : i + 1 ≤ k) (hkl : k < l)
        (hitem : items[k]? = some item) : item.quantifier.min = 0 := by
      refine hall.min_eq_zero hitem fun hmem => ?_
      simp only [List.mem_append, List.mem_cons] at hmem
      rcases hmem with hmem | rfl | rfl | hmem
      · have := h.le k hmem
        simp only at this
        omega
      · omega
      · omega
      · have := hls k hmem
        omega
    obtain ⟨mv, hmv, hplace⟩ := exists_arrival hlt hl hmin
    exact ⟨mv, hplace, .inr ⟨hlt, hmv⟩⟩

end Track

theorem isSkippable_of_mem_drop {items : List (Item α)} {k : Nat} {t : Tracker α}
    (hmin : ∀ i item, k ≤ i → items[i]? = some item → item.quantifier.min = 0)
    (ht : t ∈ (freshTrackers items).drop k) : t.isSkippable = true := by
  obtain ⟨a, ha⟩ := List.mem_iff_getElem?.1 ht
  rw [List.getElem?_drop] at ha
  exact isSkippable_of_fresh ha fun item hitem => hmin (k + a) item (Nat.le_add_right k a) hitem

end SeqAlign
