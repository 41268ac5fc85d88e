import SeqAlign.Proofs.Groups
import SeqAlign.Proofs.Matching
import SeqAlign.Proofs.Mirror

/-!
# SeqAlign.Proofs.Agreement

What the answers about two sequences have to do with each other.

* `existence_found`: only of two empty sequences does a walk fold nothing that corresponds.
* `hasAlignment_eq`: so two sequences match if and only if the search for a walk finds one.
* `isSome_found_existence_iff`: without limits it finds one if and only if there is an alignment.
* `hasAlignment_agrees_alignedGroups`: the search for groups visits the same states, so groups are
  found if and only if the sequences match.
-/

namespace SeqAlign

variable {δ σ : Type}

section Existence

variable (p : δ → σ → Bool) (o : Options) (t : Tracer Id δ σ Bool) (dest : List (Item δ))
  (src : List (Item σ))

theorem existence_found {w : Bool}
    (h : (search (existence (m := Id) fun d s => pure (p d s)) o t (freshTrackers dest)
      (freshTrackers src) false).found = some w) :
    (∃ P, IsAlignment p dest src P) ∧ (w = true ∨ dest = [] ∧ src = []) := by
  obtain ⟨ks, hd⟩ := decided_of_found h
  rw [certain_existence] at hd
  exact existence_value hd

theorem hasAlignment_eq :
    let walk : Outcome Bool := search (existence (m := Id) fun d s => pure (p d s)) o t
      (freshTrackers dest) (freshTrackers src) false
    hasAlignment (m := Id) (fun d s => pure (p d s)) o t dest src =
      (walk.found.isSome, walk.stats) := by
  intro walk
  refine Prod.ext ?_ rfl
  rw [hasAlignment_fst]
  cases hfound : walk.found with
  | none => rfl
  | some w =>
    rcases (existence_found p o t dest src hfound).2 with rfl | ⟨rfl, rfl⟩
    · rfl
    · simp

/-- Without limits, whether or not dead ends are remembered. -/
theorem isSome_found_existence_iff (b : Bool) :
    (search (existence (m := Id) fun d s => pure (p d s)) { memoize := b } t (freshTrackers dest)
      (freshTrackers src) false).found.isSome = true ↔ ∃ P, IsAlignment p dest src P := by
  constructor
  · intro hsome
    obtain ⟨w, hw⟩ := Option.isSome_iff_exists.1 hsome
    exact (existence_found p _ t dest src hw).1
  · rintro ⟨P, hP⟩
    rw [isSome_found_iff _ b t _ _ _ (certain_existence_digestsFuture p false), certain_existence]
    exact ends_start (existence_asks p) hP false

end Existence

section Groups

variable (p : δ → σ → Bool) (destText : δ → String) (srcText : σ → String)

theorem existence_mirrors_grouping :
    (existence (m := Id) fun d s => pure (p d s)).certain.Mirrors
      (grouping (m := Id) (fun d s => pure (p d s)) destText srcText).certain
      (fun _ _ _ => True) where
  digest _ _ _ _ := rfl
  opens s v w _ _ _ := by
    cases s.pairing? with
    | none => exact .done rfl
    | some q => exact .done rfl
  foldAll _ _ _ _ _ _ _ := together_of_certain fun _ _ _ _ => trivial

/-- The two searches have the same statistics, and sequences match if and only if groups are found.
A walk is found with the value false only if both sequences are empty. -/
theorem hasAlignment_agrees_alignedGroups (o : Options) (t : Tracer Id δ σ Bool)
    (t' : Tracer Id δ σ (List (Group δ σ))) (dest : List (Item δ)) (src : List (Item σ)) :
    let groups : Outcome (List (Group δ σ)) :=
      alignedGroups (m := Id) (fun d s => pure (p d s)) destText srcText o t' dest src
    hasAlignment (m := Id) (fun d s => pure (p d s)) o t dest src =
        (groups.found.isSome, groups.stats) ∧
      ((search (existence (m := Id) fun d s => pure (p d s)) o t (freshTrackers dest)
        (freshTrackers src) false).found = some false → dest = [] ∧ src = []) := by
  intro groups
  obtain ⟨hstats, hfound⟩ := search_mirrors (existence_mirrors_grouping p destText srcText) o t t'
    (freshTrackers dest) (freshTrackers src) false [] trivial
  constructor
  · rw [hasAlignment_eq, hstats]
    exact congrArg (·, groups.stats) (isSome_eq_of_rel hfound)
  · intro hfalse
    exact (existence_found p o t dest src hfalse).2.resolve_left Bool.false_ne_true

end Groups

end SeqAlign
