import Mathlib.Data.List.SplitBy
import SeqAlign.Strategy.CommonSequence

/-!
# SeqAlign.Proofs.Absorption

What absorption leaves of a sequence of common items.

* `collapse`: the items run by run. Of a run of repeated items one is left.
* `foldl_absorb_run`: one run after items that do not end with it.
* `foldl_absorb_eq`: so the runs of a sequence, one after the other. To look at the last item that
  has been kept is enough to see the runs.
* `collapsed_collapse`, `singles_collapse`: what is left has no repeated item twice in a row, and the
  other items are all there.
* `commonSequence_collapses`: so pairings fold into their common items, collapsed.
-/

namespace SeqAlign

variable {δ σ γ : Type}

/-- What is left of a run of equal items. -/
def squeeze (run : List (Item γ)) : List (Item γ) :=
  if run.any Item.isRepeated then run.take 1 else run

theorem getLast?_squeeze (item : Item γ) (n : Nat) :
    (squeeze (List.replicate (n + 1) item)).getLast? = some item := by
  cases hitem : item.isRepeated <;> simp [squeeze, hitem, List.getLast?_replicate]

variable [DecidableEq γ]

/-- The longest runs of equal items, each as what is left of it. -/
def collapse (items : List (Item γ)) : List (Item γ) :=
  (items.splitBy fun x y => decide (x = y)).flatMap squeeze

theorem absorb_last {items : List (Item γ)} {item : Item γ} (h : item.isRepeated = true)
    (hlast : items.getLast? = some item) : absorb items item = items := if_pos ⟨h, hlast⟩

theorem absorb_of_single {item : Item γ} (h : item.isRepeated = false) (items : List (Item γ)) :
    absorb items item = items ++ [item] :=
  if_neg fun hboth => Bool.false_ne_true (h.symm.trans hboth.1)

theorem absorb_of_ne {items : List (Item γ)} {item : Item γ} (h : items.getLast? ≠ some item) :
    absorb items item = items ++ [item] :=
  if_neg fun hboth => h hboth.2

theorem foldl_absorb_last {items : List (Item γ)} {item : Item γ} (h : item.isRepeated = true)
    (hlast : items.getLast? = some item) (n : Nat) :
    (List.replicate n item).foldl absorb items = items := by
  induction n with
  | zero => rfl
  | succ n ih => rw [List.replicate_succ, List.foldl_cons, absorb_last h hlast, ih]

theorem foldl_absorb_of_single {item : Item γ} (h : item.isRepeated = false) (items : List (Item γ))
    (n : Nat) : (List.replicate n item).foldl absorb items = items ++ List.replicate n item := by
  induction n generalizing items with
  | zero => rw [List.replicate_zero, List.append_nil, List.foldl_nil]
  | succ n ih =>
    rw [List.replicate_succ, List.foldl_cons, absorb_of_single h, ih, List.append_assoc,
      List.singleton_append]

theorem foldl_absorb_run {items : List (Item γ)} {item : Item γ} (h : items.getLast? ≠ some item)
    (n : Nat) :
    (List.replicate (n + 1) item).foldl absorb items =
      items ++ squeeze (List.replicate (n + 1) item) := by
  rw [List.replicate_succ, List.foldl_cons, absorb_of_ne h]
  cases hitem : item.isRepeated with
  | true =>
    rw [foldl_absorb_last hitem List.getLast?_concat]
    simp [squeeze, hitem]
  | false =>
    rw [foldl_absorb_of_single hitem, List.append_assoc, List.singleton_append]
    simp [squeeze, hitem]

theorem foldl_absorb_runs {runs : List (List (Item γ))} {items : List (Item γ)}
    (hruns : ∀ run ∈ runs, ∃ item n, run = List.replicate (n + 1) item)
    (hchange : runs.IsChain fun run run' => run.getLast? ≠ run'.head?)
    (hfirst : ∀ run ∈ runs.head?, items.getLast? ≠ run.head?) :
    runs.flatten.foldl absorb items = items ++ runs.flatMap squeeze := by
  -- no run goes on with the last item that has been kept
  induction runs generalizing items with
  | nil => exact (List.append_nil items).symm
  | cons run runs ih =>
    obtain ⟨item, n, rfl⟩ := hruns _ List.mem_cons_self
    have hlast : items.getLast? ≠ some item := hfirst _ rfl
    obtain ⟨hnext, hchange⟩ := List.isChain_cons.1 hchange
    rw [List.flatten_cons, List.foldl_append, foldl_absorb_run hlast, List.flatMap_cons,
      ← List.append_assoc]
    refine ih (fun run hrun => hruns run (List.mem_cons_of_mem _ hrun)) hchange fun run hrun => ?_
    have hne := hnext run hrun
    rw [List.getLast?_append, getLast?_squeeze, Option.some_or]
    rwa [List.getLast?_replicate, if_neg n.succ_ne_zero] at hne

theorem exists_eq_replicate {run items : List (Item γ)}
    (h : run ∈ items.splitBy fun x y => decide (x = y)) :
    ∃ item n, run = List.replicate (n + 1) item := by
  have hequal : run.Pairwise (· = ·) :=
    List.isChain_iff_pairwise.1 ((List.isChain_of_mem_splitBy h).imp fun _ _ => of_decide_eq_true)
  cases run with
  | nil => exact absurd h (List.nil_notMem_splitBy _ _)
  | cons item run =>
    refine ⟨item, run.length, List.eq_replicate_of_mem ?_⟩
    exact List.forall_mem_cons.2 ⟨rfl, fun x hx => ((List.pairwise_cons.1 hequal).1 x hx).symm⟩

/-- To look at the last item that has been kept is enough to see the runs. -/
theorem foldl_absorb_eq (items : List (Item γ)) : items.foldl absorb [] = collapse items := by
  have hchange : (items.splitBy fun x y => decide (x = y)).IsChain
      fun run run' => run.getLast? ≠ run'.head? := by
    refine (List.isChain_getLast_head_splitBy _ items).imp ?_
    rintro run run' ⟨hrun, hrun', hne⟩
    rw [List.getLast?_eq_some_getLast hrun, List.head?_eq_some_head hrun']
    exact fun heq => of_decide_eq_false hne (Option.some.inj heq)
  have hfirst : ∀ run ∈ (items.splitBy fun x y => decide (x = y)).head?,
      ([] : List (Item γ)).getLast? ≠ run.head? := by
    intro run hrun
    obtain ⟨item, n, rfl⟩ := exists_eq_replicate (List.mem_of_mem_head? hrun)
    exact Option.some_ne_none item ∘ Eq.symm
  have hfold := foldl_absorb_runs (fun _ => exists_eq_replicate) hchange hfirst
  rwa [List.flatten_splitBy] at hfold

def Collapsed (items : List (Item γ)) : Prop :=
  items.IsChain fun x y => ¬(x = y ∧ y.isRepeated = true)

theorem Collapsed.absorb {items : List (Item γ)} (h : Collapsed items) (item : Item γ) :
    Collapsed (absorb items item) := by
  unfold SeqAlign.absorb
  split
  · exact h
  · rename_i habsorbed
    refine List.isChain_append.2 ⟨h, List.isChain_singleton _, ?_⟩
    rintro x hx y hy ⟨rfl, hrepeated⟩
    obtain rfl := Option.some.inj hy
    exact habsorbed ⟨hrepeated, hx⟩

theorem collapsed_collapse (items : List (Item γ)) : Collapsed (collapse items) := by
  have hfold (kept : List (Item γ)) (hkept : Collapsed kept) :
      Collapsed (items.foldl absorb kept) := by
    induction items generalizing kept with
    | nil => exact hkept
    | cons item items ih => exact ih _ (hkept.absorb item)
  exact foldl_absorb_eq items ▸ hfold [] List.isChain_nil

theorem singles_absorb (items : List (Item γ)) (item : Item γ) :
    (absorb items item).filter (fun x => !x.isRepeated) =
      items.filter (fun x => !x.isRepeated) ++ [item].filter fun x => !x.isRepeated := by
  unfold absorb
  split
  · rename_i habsorbed
    simp [habsorbed.1]
  · exact List.filter_append _ _

theorem singles_collapse (items : List (Item γ)) :
    (collapse items).filter (fun x => !x.isRepeated) = items.filter fun x => !x.isRepeated := by
  have hfold (kept : List (Item γ)) :
      (items.foldl absorb kept).filter (fun x => !x.isRepeated) =
        kept.filter (fun x => !x.isRepeated) ++ items.filter fun x => !x.isRepeated := by
    induction items generalizing kept with
    | nil => exact (List.append_nil _).symm
    | cons item items ih =>
      rw [List.foldl_cons, ih, singles_absorb, List.append_assoc, ← List.filter_append]
      rfl
  exact foldl_absorb_eq items ▸ hfold []

variable {m : Type → Type} [Monad m] [LawfulMonad m]

theorem foldAll_commonSequence (merge : Merge m δ σ γ) (text : γ → String)
    (kept : List (Item γ)) (pairings : List (Pairing δ σ)) :
    (commonSequence merge text).foldAll kept pairings = do
      let results ← pairings.mapM merge.ofPairing
      return (results.filterMap id).foldl absorb kept := by
  induction pairings generalizing kept with
  | nil => simp [Strategy.foldAll]
  | cons pairing pairings ih =>
    rw [Strategy.foldAll, List.foldlM_cons, List.mapM_cons]
    simp only [commonSequence, bind_assoc, pure_bind]
    refine bind_congr fun result => ?_
    cases result with
    | none => exact (pure_bind _ _).trans (ih kept)
    | some item => exact (pure_bind _ _).trans (ih (absorb kept item))

/-- The common items of pairings come together run by run, whatever the pairings that have none. So
no repeated item is kept behind the same item, and the other items are all kept. -/
theorem commonSequence_collapses (merge : Merge m δ σ γ) (text : γ → String)
    (pairings : List (Pairing δ σ)) :
    ((commonSequence merge text).foldAll [] pairings = do
        let results ← pairings.mapM merge.ofPairing
        return collapse (results.filterMap id)) ∧
      ∀ items : List (Item γ),
        (collapse items).IsChain (fun x y => ¬(x = y ∧ y.isRepeated = true)) ∧
          (collapse items).filter (fun x => !x.isRepeated) =
            items.filter fun x => !x.isRepeated := by
  refine ⟨?_, fun items => ⟨collapsed_collapse items, singles_collapse items⟩⟩
  rw [foldAll_commonSequence]
  simp only [foldl_absorb_eq]

/-- Of a run with an absence in it one item is left, but single items are all left. -/
theorem commonSequence_collapses_run :
    let merge : Merge Option String String String := fun dest src => some (dest <|> src)
    let repeated : Tracker String := ⟨⟨0, ⟨"int", .optional⟩⟩, 0⟩
    let single : Tracker String := ⟨⟨1, .single "int"⟩, 0⟩
    (commonSequence merge id).foldAll []
        [.both repeated single, ⟨none, none⟩, .destOnly repeated, .srcOnly repeated,
          .both single repeated, .srcOnly single] =
      some [repeated.item, single.item, single.item] := by
  intro merge repeated single
  rw [(commonSequence_collapses merge id _).1]
  decide +kernel

end SeqAlign
