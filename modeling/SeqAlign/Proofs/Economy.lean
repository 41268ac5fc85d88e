import Mathlib.Data.Fintype.Option
import Mathlib.Data.Fintype.Prod
import SeqAlign.Proofs.Courses
import SeqAlign.Proofs.Exploration
import SeqAlign.Search.Alignment

/-!
# SeqAlign.Proofs.Economy

How much a search does that remembers dead ends.

* `State.length_edges_le`: few edges leave a state.
* `Slot`: where a state can be and what it can have counted. The keys of all states that a search
  gets to are written by slots (`Reachable.exists_slot`), because at most one count is not zero and
  no count is above the index on the other side. So there are few keys (`length_le_of_slots`).
* `Ventures`: what a course explores, each key once, and the steps that this takes.
* `memoized_stats_le`: so the table stays small, and each of its keys costs few steps.
-/

namespace SeqAlign

variable {α δ σ ρ : Type}

namespace Place

theorem length_leaps_le (jumped : List (Tracker α)) (i : Nat) (rest : List (Tracker α)) :
    (leaps jumped i rest).length ≤ rest.length := by
  fun_induction leaps jumped i rest with
  | case1 jumped i t u ts _ ih =>
    simp only [List.length_cons] at ih ⊢
    omega
  | case2 => simp
  | case3 => simp

theorem length_arrivals_le (i : Nat) (rest : List (Tracker α)) :
    (arrivals i rest).length ≤ rest.length + 1 :=
  Nat.succ_le_succ (length_leaps_le [] i rest)

theorem length_stays_le (p : Place α) : p.stays.length ≤ 1 := by
  unfold stays
  split
  · simp
  · split <;> simp

theorem length_departures_le (p : Place α) : p.departures.length ≤ p.rest.length := by
  unfold departures
  split
  · simp
  · rename_i t ts hrest
    rw [hrest]
    exact length_arrivals_le _ ts

theorem Of.length_rest_le {ts : List (Tracker α)} {p : Place α} (h : p.Of ts) :
    p.rest.length ≤ ts.length := by
  cases h with
  | past => simp
  | on c ht =>
    have := (List.getElem?_eq_some_iff.1 ht).1
    simp only [List.length_cons, List.length_drop]
    omega

end Place

theorem length_pairs (xs : List (Move δ)) (ys : List (Move σ)) :
    (pairs xs ys).length = xs.length * ys.length := by
  simp [pairs]

theorem State.length_edges_le {ds : List (Tracker δ)} {ss : List (Tracker σ)} {s : State δ σ}
    (h : s.Fits ds ss) : s.edges.length ≤ (ds.length + 1) * (ss.length + 1) := by
  cases h with
  | start =>
    rw [edges_start, length_pairs]
    exact Nat.mul_le_mul (Place.length_arrivals_le 0 ds) (Place.length_arrivals_le 0 ss)
  | @on p q hp hq =>
    have hone : 1 ≤ (ds.length + 1) * (ss.length + 1) := Nat.mul_pos (by simp) (by simp)
    match p, q, hp, hq with
    | ⟨_, []⟩, ⟨_, []⟩, _, _ => simp [edges, forks]
    | ⟨_, []⟩, ⟨_, b :: _⟩, _, _ =>
      by_cases hb : b.isSkippable <;> simp [edges, forks, hb, Fork.edges, hone]
    | ⟨_, a :: _⟩, ⟨_, []⟩, _, _ =>
      by_cases ha : a.isSkippable <;> simp [edges, forks, ha, Fork.edges, hone]
    | ⟨i, a :: as⟩, ⟨j, b :: bs⟩, hp, hq =>
      have hstay := Place.length_stays_le ⟨i, a :: as⟩
      have hdest := Nat.le_trans (Place.length_departures_le ⟨i, a :: as⟩) hp.length_rest_le
      have hstay' := Place.length_stays_le ⟨j, b :: bs⟩
      have hsrc := Nat.le_trans (Place.length_departures_le ⟨j, b :: bs⟩) hq.length_rest_le
      rw [edges_inside, List.length_append, length_pairs, length_pairs, Place.moves,
        List.length_append]
      calc _ ≤ 1 * ss.length + ds.length * (1 + ss.length) :=
            Nat.add_le_add (Nat.mul_le_mul hstay hsrc)
              (Nat.mul_le_mul hdest (Nat.add_le_add hstay' hsrc))
        _ ≤ (ds.length + 1) * (ss.length + 1) := by
            rw [Nat.one_mul, Nat.add_comm 1, Nat.add_one_mul]
            omega

/-- Before both sequences, or an index in each of them with a count. -/
abbrev Slot (n m : Nat) := Option (Fin (n + 1) × Fin (m + 1) × Fin (n + m + 1))

/-- A count up to `m` is one of dest, a higher one is one of src. -/
def Slot.key {n m : Nat} (g : UInt64) : Slot n m → Key
  | none => ⟨-1, -1, 0, 0, g⟩
  | some (i, j, c) =>
    if c.val ≤ m then ⟨i, j, UInt32.ofNat c, 0, g⟩ else ⟨i, j, 0, UInt32.ofNat (c - m), g⟩

/-- One key for the start, and the others for each pair of indices with each count. -/
def keyBound (n m : Nat) : Nat := 1 + (n + 1) * (m + 1) * (n + m + 1)

theorem length_le_of_slots {n m : Nat} {g : UInt64} {keys : List Key} (hnodup : keys.Nodup)
    (h : ∀ k ∈ keys, ∃ slot : Slot n m, slot.key g = k) : keys.length ≤ keyBound n m := by
  have hsub : keys.toFinset ⊆ Finset.univ.image (Slot.key (n := n) (m := m) g) := by
    intro k hk
    obtain ⟨slot, hslot⟩ := h k (List.mem_toFinset.1 hk)
    exact Finset.mem_image.2 ⟨slot, Finset.mem_univ _, hslot⟩
  calc keys.length = keys.toFinset.card := (List.toFinset_card_of_nodup hnodup).symm
    _ ≤ (Finset.univ.image (Slot.key (n := n) (m := m) g)).card := Finset.card_le_card hsub
    _ ≤ Fintype.card (Slot n m) := Finset.card_image_le
    _ = keyBound n m := by
      simp only [Slot, Fintype.card_option, Fintype.card_prod, Fintype.card_fin]
      rw [Nat.add_comm, ← Nat.mul_assoc, keyBound]

theorem exists_slot_of_counts {n m i j : Nat} {c c' : UInt32} (hi : i ≤ n) (hj : j ≤ m)
    (hc : c.toNat ≤ j) (hc' : c'.toNat ≤ i) (hone : c = 0 ∨ c' = 0) (g : UInt64) :
    ∃ slot : Slot n m, slot.key g = ⟨i, j, c, c', g⟩ := by
  by_cases hzero : c' = 0
  · refine ⟨some (⟨i, by omega⟩, ⟨j, by omega⟩, ⟨c.toNat, by omega⟩), ?_⟩
    have hle : c.toNat ≤ m := by omega
    simp [Slot.key, hle, hzero]
  · obtain rfl := hone.resolve_right hzero
    have hpos : 0 < c'.toNat := UInt32.lt_iff_toNat_lt.1 (UInt32.pos_iff_ne_zero.2 hzero)
    refine ⟨some (⟨i, by omega⟩, ⟨j, by omega⟩, ⟨m + c'.toNat, by omega⟩), ?_⟩
    have hgt : ¬ m + c'.toNat ≤ m := by omega
    simp [Slot.key, hgt]

section Reachable

variable {dest : List (Item δ)} {src : List (Item σ)} {s : State δ σ}

theorem toNat_boundedCount_le (t : Tracker α) : t.boundedCount.toNat ≤ t.count.toNat := by
  unfold Tracker.boundedCount
  split
  · exact Nat.le_refl _
  · exact Nat.zero_le _

theorem Standing.keyCount_le {items : List (Item α)} {i j : Int} {t? : Option (Tracker α)}
    (h : Standing items i j t?) (hj : 0 ≤ j) :
    (((t?.map Tracker.boundedCount).getD 0).toNat : Int) ≤ j := by
  cases t? with
  | none => exact hj
  | some t =>
    have hcount := h.count_le t rfl
    have := toNat_boundedCount_le t
    simp only [Option.map_some, Option.getD_some]
    omega

theorem keyCount_eq_zero {t? : Option (Tracker α)} (h : ∀ t ∈ t?, t.count = 0) :
    (t?.map Tracker.boundedCount).getD 0 = 0 := by
  cases t? with
  | none => rfl
  | some t => simp [Tracker.boundedCount, h t rfl]

theorem State.Between.exists_slot (h : s.Between dest src) (g : UInt64) :
    ∃ slot : Slot dest.length src.length, slot.key g = s.key g := by
  obtain ⟨hdest, hsrc, hone⟩ := h
  have hcount := hdest.keyCount_le hsrc.nonneg
  have hcount' := hsrc.keyCount_le hdest.nonneg
  obtain ⟨i, hi⟩ := Int.eq_ofNat_of_zero_le hdest.nonneg
  obtain ⟨j, hj⟩ := Int.eq_ofNat_of_zero_le hsrc.nonneg
  have hlength := hdest.le_length
  have hlength' := hsrc.le_length
  rw [hi] at hcount' hlength
  rw [hj] at hcount hlength'
  obtain ⟨slot, hslot⟩ := exists_slot_of_counts (Int.ofNat_le.1 hlength) (Int.ofNat_le.1 hlength')
    (Int.ofNat_le.1 hcount) (Int.ofNat_le.1 hcount')
    (hone.imp keyCount_eq_zero keyCount_eq_zero) g
  exact ⟨slot, by rw [hslot, State.key, hi, hj]⟩

theorem Reachable.exists_slot {d : Nat} (h : Reachable dest src d s) (g : UInt64) :
    ∃ slot : Slot dest.length src.length, slot.key g = s.key g := by
  rcases h.between with rfl | hbetween
  · exact ⟨none, rfl⟩
  · exact hbetween.exists_slot g

end Reachable

/-! ## What a course explores -/

/-- A search of these sequences may get to what the task is about. -/
def Task.Reached (dest : List (Item δ)) (src : List (Item σ)) : Task δ σ ρ → Prop
  | .visit s _ d => Reachable dest src d s
  | .explore s _ d => Reachable dest src d s
  | .attempt _ _ d es => ∀ e ∈ es, Reachable dest src (d + 1) e.target

/-- The visits that a task makes by itself, at most. -/
def Task.ownVisits : Task δ σ ρ → Nat
  | .visit _ _ _ => 1
  | .explore s _ _ => s.edges.length
  | .attempt _ _ _ es => es.length

/-- A task that explores these keys, all of them beyond position `i`, and ends with a path of this
length. The sequences have `n` and `m` items. -/
structure Ventures (n m : Nat) (g : UInt64) (task : Task δ σ ρ) (i : Int) (l : Ledger)
    (r : Option ρ × Ledger) (keys : List Key) (length : Nat) : Prop where
  accounts : Accounts l keys r.1 r.2 task.nextDepth length
  beyond : ∀ k ∈ keys, i < k.destIndex + k.srcIndex
  slots : ∀ k ∈ keys, ∃ slot : Slot n m, slot.key g = k
  steps : r.2.steps ≤ l.steps + task.ownVisits + (n + 1) * (m + 1) * keys.length

section Ventures

variable {n m : Nat} {g : UInt64} {task : Task δ σ ρ} {i : Int} {l : Ledger}
  {r : Option ρ × Ledger} {keys : List Key} {length : Nat} {o : Options} {digest : ρ → UInt64}
  {log : Log δ σ ρ} {dest : List (Item δ)} {src : List (Item σ)}

theorem Ventures.nowhere (h : Accounts l [] r.1 r.2 task.nextDepth length)
    (hsteps : r.2.steps ≤ l.steps + task.ownVisits) : Ventures n m g task i l r [] length :=
  ⟨h, nofun, nofun, hsteps⟩

theorem Ventures.explore {s : State δ σ} {v : ρ} {d : Nat}
    (h : Ventures n m g (.explore s v d) s.position (l.enter d) r keys length)
    (hs : s.edges.length ≤ (n + 1) * (m + 1)) (hslot : ∃ slot : Slot n m, slot.key g = s.key g)
    (hkey : s.key g ∉ l.deadEnds) (hmemo : o.memoize = true) (hi : i < s.position) :
    Ventures n m g (.visit s v d) i l (Ledger.settle o (s.key g) r) (s.key g :: keys) length where
  accounts := by
    have hkeys : s.key g ∉ keys := fun hmem => Int.lt_irrefl _ (h.beyond _ hmem)
    rw [fst_settle]
    exact h.accounts.explore hkey hkeys hmemo (Prod.ext (fst_settle o _ r) rfl)
  beyond := List.forall_mem_cons.2 ⟨hi, fun k hk => Int.lt_trans hi (h.beyond k hk)⟩
  slots := List.forall_mem_cons.2 ⟨hslot, h.slots⟩
  steps := by
    have hbelow := h.steps
    have hmul := Nat.mul_add_one ((n + 1) * (m + 1)) keys.length
    simp only [Task.ownVisits, Ledger.enter] at hbelow
    simp only [steps_settle, Task.ownVisits, List.length_cons]
    omega

theorem Course.ventures (hmemo : o.memoize = true) (hdigest : ∀ v, digest v = g)
    (h : Course digest o task l log r) (htask : task.Reached dest src) (hi : task.Above i) :
    ∃ keys length, Ventures dest.length src.length g task i l r keys length := by
  induction h generalizing i with
  | abandoned _ => exact ⟨[], 0, .nowhere (.abandon _ _ _ _) (Nat.le_refl _)⟩
  | known _ _ => exact ⟨[], 0, .nowhere (.hit _ _ _ _) (Nat.le_refl _)⟩
  | @explored s v d l log r hknown _ ih =>
    obtain ⟨keys, length, hr⟩ := ih htask (Int.le_refl s.position)
    have hedges := State.length_edges_le htask.fits
    rw [length_freshTrackers, length_freshTrackers] at hedges
    have hkey : s.key g ∉ l.deadEnds := by
      intro hmem
      rw [hmemo, hdigest, Bool.true_and] at hknown
      exact absurd (Std.HashSet.mem_iff_contains.1 hmem) (Bool.eq_false_iff.1 hknown)
    rw [hdigest]
    exact ⟨_, length, hr.explore hedges (htask.exists_slot g) hkey hmemo hi⟩
  | @finished s v d l => exact ⟨[], d + 1, .nowhere (.accept l v (d + 1)) (Nat.le_add_right _ _)⟩
  | blocked => exact ⟨[], 0, .nowhere (.nothing _ _ _) (Nat.le_add_right _ _)⟩
  | refused => exact ⟨[], 0, .nowhere (.nothing _ _ _) (Nat.le_add_right _ _)⟩
  | proceeded _ ih =>
    obtain ⟨keys, length, hr⟩ := ih (fun e he => htask.target he)
      (fun e he => Int.lt_of_le_of_lt hi (position_lt_target he))
    exact ⟨keys, length, hr.accounts, hr.beyond, hr.slots, hr.steps⟩
  | noneLeft => exact ⟨[], 0, .nowhere (.nothing _ _ _) (Nat.le_add_right _ _)⟩
  | halted _ => exact ⟨[], 0, .nowhere (.nothing _ _ _) (Nat.le_add_right _ _)⟩
  | found _ _ ih =>
    obtain ⟨keys, length, hr⟩ := ih (htask _ List.mem_cons_self) (hi _ List.mem_cons_self)
    refine ⟨keys, length, hr.accounts, hr.beyond, hr.slots, ?_⟩
    have hsteps := hr.steps
    simp only [Task.ownVisits, List.length_cons] at hsteps ⊢
    omega
  | @passed here v w d l l' e es log log' r _ _ hrest ih ih' =>
    obtain ⟨keys, length, hr⟩ := ih (htask _ List.mem_cons_self) (hi _ List.mem_cons_self)
    have hfirst := hr.steps
    simp only [Task.ownVisits] at hfirst
    cases hlimit : l'.limitReached with
    | true =>
      -- the later edges are not tried
      obtain ⟨rfl, rfl⟩ := hrest.attempt_of_limit hlimit
      refine ⟨keys, length, hr.accounts, hr.beyond, hr.slots, ?_⟩
      simp only [Task.ownVisits, List.length_cons]
      omega
    | false =>
      obtain ⟨keys', length', hr'⟩ := ih' (fun e' he' => htask e' (List.mem_cons_of_mem e he'))
        (fun e' he' => hi e' (List.mem_cons_of_mem e he'))
      have hsecond := hr'.steps
      have hmul := Nat.mul_add ((dest.length + 1) * (src.length + 1)) keys.length keys'.length
      simp only [Task.ownVisits] at hsecond
      refine ⟨keys ++ keys', length', hr.accounts.append hr'.accounts hlimit,
        List.forall_mem_append.2 ⟨hr.beyond, hr'.beyond⟩,
        List.forall_mem_append.2 ⟨hr.slots, hr'.slots⟩, ?_⟩
      simp only [Task.ownVisits, List.length_cons, List.length_append]
      omega

end Ventures

theorem size_le_of_slots {n m : Nat} {g : UInt64} {ends : Std.HashSet Key}
    (h : ∀ k ∈ ends, ∃ slot : Slot n m, slot.key g = k) : ends.size ≤ keyBound n m := by
  have hnodup : ends.toList.Nodup := by
    refine Std.HashSet.distinct_toList.imp ?_
    intro k k' hne heq
    simp [heq] at hne
  rw [← Std.HashSet.length_toList]
  exact length_le_of_slots hnodup fun k hk => h k (Std.HashSet.mem_toList.1 hk)

/-- The statistics of a search that explores no key twice. The sequences have `n` and `m` items. -/
structure Stats.Economical (n m : Nat) (stats : Stats) : Prop where
  memoSize_le : stats.memoSize ≤ keyBound n m
  steps_le : stats.steps ≤ 1 + keyBound n m * (n + 1) * (m + 1)

theorem Ventures.economical {n m : Nat} {g : UInt64} {s : State δ σ} {v : ρ} {i : Int} {l : Ledger}
    {u : Option ρ} {keys : List Key} {length : Nat}
    (h : Ventures n m g (.visit s v 0) i .blank (u, l) keys length) :
    l.stats.Economical n m where
  memoSize_le := by
    refine size_le_of_slots (g := g) ?_
    intro k hk
    rcases h.accounts.only k hk with hblank | hkey
    · exact absurd hblank Std.HashSet.not_mem_empty
    · exact h.slots k hkey
  steps_le := by
    have hkeys := length_le_of_slots h.accounts.nodup h.slots
    calc l.steps ≤ 0 + 1 + (n + 1) * (m + 1) * keys.length := h.steps
      _ ≤ 0 + 1 + (n + 1) * (m + 1) * keyBound n m :=
        Nat.add_le_add_left (Nat.mul_le_mul_left _ hkeys) _
      _ = 1 + keyBound n m * (n + 1) * (m + 1) := by
        rw [Nat.zero_add, Nat.mul_comm, Nat.mul_assoc]

section Search

variable {m : Type → Type} [Monad m] [LawfulMonad m] {γ : Type} [DecidableEq γ]

theorem search_economical {S : Strategy m δ σ ρ} {g : UInt64} (hdigest : ∀ v, S.digest v = g)
    {o : Options} (hmemo : o.memoize = true) (t : Tracer m δ σ ρ) (dest : List (Item δ))
    (src : List (Item σ)) (v : ρ) :
    Yields (fun a => a.stats.Economical dest.length src.length)
      (search S o t (freshTrackers dest) (freshTrackers src) v) := by
  refine (yields_course S o t _ _ v).mono ?_
  rintro a ⟨log, l, hstats, hcourse⟩
  have habove : (Task.visit (.start (freshTrackers dest) (freshTrackers src)) v 0).Above (-3) := by
    show (-3 : Int) < -1 + -1
    decide
  obtain ⟨keys, length, hventures⟩ := hcourse.ventures hmemo hdigest .start habove
  rw [hstats]
  exact hventures.economical

/-- A search that remembers dead ends keeps few of them and takes few steps, whatever the relation
or the merge answers, also if it answers the same question in different ways. -/
theorem memoized_stats_le (relation : δ → σ → m Bool) (merge : Merge m δ σ γ) (o : Options)
    (hmemo : o.memoize = true) (dest : List (Item δ)) (src : List (Item σ)) :
    (∀ t, Yields (fun r => r.2.Economical dest.length src.length)
      (hasAlignment relation o t dest src)) ∧
    (∀ destText srcText t, Yields (fun a => a.stats.Economical dest.length src.length)
      (alignedGroups relation destText srcText o t dest src)) ∧
    ∀ text t, Yields (fun a => a.stats.Economical dest.length src.length)
      (alignedMerge merge text o t dest src) := by
  refine ⟨?_, ?_, ?_⟩
  · intro t
    refine (search_economical (fun _ => rfl) hmemo t dest src false).bind ?_
    intro a ha
    exact yields_pure ha
  · intro destText srcText t
    exact search_economical (fun _ => rfl) hmemo t dest src []
  · intro text t
    exact search_economical (fun _ => rfl) hmemo t dest src []

/-- Of three dest items and two src items. -/
theorem memoized_stats_le_three_two :
    let dest : List (Item Nat) := [⟨1, .zeroOrMore⟩, ⟨1, .zeroOrMore⟩, .single 2]
    let src : List (Item Nat) := [.single 1, .single 1]
    let r : Bool × Stats :=
      hasAlignment (m := Id) (fun a b => pure (a == b)) { memoize := true } .silent dest src
    keyBound 3 2 = 73 ∧ r.2.Economical 3 2 := by
  intro dest src r
  obtain ⟨hmatch, _⟩ := memoized_stats_le (m := Id) (fun a b => pure (a == b))
    (fun d _ => pure d) { memoize := true } rfl dest src
  have hr := yields_id.1 (hmatch .silent)
  exact ⟨rfl, hr⟩

end Search

end SeqAlign
