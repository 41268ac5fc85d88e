import SeqAlign.Proofs.Effects
import SeqAlign.Proofs.Recall

/-!
# SeqAlign.Proofs.Transparency

Searches with a memoized relation.

* `asking`: a relation that writes down what it is asked. A search with it is the plain search, with
  the questions of that search beside it.
* `KeysDecide`: labels of the two sequences that have one key have one verdict.
* `Transparent known plain asked remembering`: the three computations have the same answer, and the
  verdicts after the last one are those `known` of the questions of the second one.
* `memoized_transparent`: where keys decide, searches with a memoized relation are transparent, and
  what is known has one miss for each key and one hit for each other question.
-/

namespace SeqAlign

variable {n : Type → Type} [Monad n] {α δ σ : Type}

def asking (p : δ → σ → Bool) (d : δ) (s : σ) : StateT (List (δ × σ)) n Bool := do
  modify (· ++ [(d, s)])
  pure (p d s)

theorem run_asking [LawfulMonad n] (p : δ → σ → Bool) (d : δ) (s : σ) (asked : List (δ × σ)) :
    (asking (n := n) p d s).run asked = pure (p d s, asked ++ [(d, s)]) := by
  simp [asking]

theorem run_memoized [LawfulMonad n] (destText : δ → String) (srcText : σ → String)
    (p : δ → σ → Bool) (d : δ) (s : σ) (v : Verdicts) :
    (memoized destText srcText (fun d s => (pure (p d s) : StateT Verdicts n Bool)) d s).run v =
      pure ((v.known[Verdicts.key destText srcText d s]?).getD (p d s),
        v.ask (Verdicts.key destText srcText d s) (p d s)) := by
  rw [Verdicts.ask, Std.HashMap.contains_eq_isSome_getElem?]
  cases hk : v.known[Verdicts.key destText srcText d s]? <;> simp [memoized, hk]

section Keys

variable (destText : δ → String) (srcText : σ → String) (p : δ → σ → Bool) (dest : List (Item δ))
  (src : List (Item σ))

/-- Labels of the two sequences that have one key have one verdict. -/
def KeysDecide : Prop :=
  ∀ d ∈ dest, ∀ s ∈ src, ∀ d' ∈ dest, ∀ s' ∈ src,
    Verdicts.key destText srcText d.label s.label =
        Verdicts.key destText srcText d'.label s'.label →
      p d.label s.label = p d'.label s'.label

def verdictUnder (key : String) : Bool :=
  dest.any fun d => src.any fun s =>
    Verdicts.key destText srcText d.label s.label == key && p d.label s.label

def knownAfter (asked : List (δ × σ)) : Verdicts :=
  .after (fun q => Verdicts.key destText srcText q.1 q.2)
    (fun q => verdictUnder destText srcText p dest src (Verdicts.key destText srcText q.1 q.2))
    asked

variable {destText srcText p dest src}

theorem KeysDecide.verdictUnder_key (h : KeysDecide destText srcText p dest src) {d : Item δ}
    {s : Item σ} (hd : d ∈ dest) (hs : s ∈ src) :
    verdictUnder destText srcText p dest src (Verdicts.key destText srcText d.label s.label) =
      p d.label s.label := by
  rw [Bool.eq_iff_iff, verdictUnder]
  simp only [List.any_eq_true, Bool.and_eq_true, beq_iff_eq]
  constructor
  · rintro ⟨d', hd', s', hs', hkey, hp⟩
    exact h d' hd' s' hs' d hd s hs hkey ▸ hp
  · intro hp
    exact ⟨d, hd, s, hs, rfl, hp⟩

/-- To remember is to write down, as far as the answer goes. -/
theorem KeysDecide.rel_memoized [LawfulMonad n] (h : KeysDecide destText srcText p dest src)
    {d : Item δ} {s : Item σ} (hd : d ∈ dest) (hs : s ∈ src) :
    (Lockstep.mapState n (knownAfter destText srcText p dest src)).rel
      (asking p d.label s.label)
      (memoized destText srcText (fun d s => pure (p d s)) d.label s.label) := by
  intro asked
  have hverdict := h.verdictUnder_key hd hs
  have hknown : ((knownAfter destText srcText p dest src asked).known[
      Verdicts.key destText srcText d.label s.label]?).getD (p d.label s.label) =
        p d.label s.label := by
    rw [knownAfter, Verdicts.getElem?_after]
    cases hfind : asked.find? fun q => Verdicts.key destText srcText q.1 q.2 =
        Verdicts.key destText srcText d.label s.label with
    | none => rfl
    | some q =>
      have hkey : Verdicts.key destText srcText q.1 q.2 =
          Verdicts.key destText srcText d.label s.label := by
        simpa using List.find?_some hfind
      rw [Option.map_some, Option.getD_some, hkey, hverdict]
  have hnext : (knownAfter destText srcText p dest src asked).ask
      (Verdicts.key destText srcText d.label s.label) (p d.label s.label) =
        knownAfter destText srcText p dest src (asked ++ [(d.label, s.label)]) := by
    rw [knownAfter, knownAfter, Verdicts.after_concat, hverdict]
  rw [run_memoized, hknown, hnext, run_asking, map_pure]

end Keys

/-- The same answer three times: with the plain relation, with one that writes down what it is
asked, and with one that remembers. -/
structure Transparent (known : List (δ × σ) → Verdicts) (plain : n α)
    (asked : StateT (List (δ × σ)) n α) (remembering : StateT Verdicts n α) : Prop where
  asked_eq : Prod.fst <$> asked.run [] = plain
  remembering_eq : Prod.fst <$> remembering.run .none = plain
  verdicts_eq : remembering.run .none = (fun r => (r.1, known r.2)) <$> asked.run []

theorem transparent_of_lockstep [LawfulMonad n] {known : List (δ × σ) → Verdicts} {plain : n α}
    {asked : StateT (List (δ × σ)) n α} {remembering : StateT Verdicts n α}
    (hnone : known [] = .none) (hplain : (Lockstep.dropState n (List (δ × σ))).rel plain asked)
    (hknown : (Lockstep.mapState n known).rel asked remembering) :
    Transparent known plain asked remembering := by
  have hverdicts : remembering.run .none = (fun r => (r.1, known r.2)) <$> asked.run [] := by
    rw [← hnone]
    exact hknown []
  refine ⟨hplain [], ?_, hverdicts⟩
  rw [hverdicts, Functor.map_map]
  exact hplain []

/-- Where keys decide, to remember verdicts changes neither what a search finds nor its statistics.
Afterwards there has been one miss for each key of what it asked, and the hits and misses together
are as many as its questions. -/
theorem memoized_transparent [LawfulMonad n] (destText : δ → String) (srcText : σ → String)
    (p : δ → σ → Bool) (dest : List (Item δ)) (src : List (Item σ))
    (h : KeysDecide destText srcText p dest src) :
    ∃ known : List (δ × σ) → Verdicts,
      (∀ asked, (known asked).Tallies
        (asked.map fun q => Verdicts.key destText srcText q.1 q.2)) ∧
      (∀ (o : Options) (t : Tracer n δ σ Bool),
        Transparent known (hasAlignment (fun d s => pure (p d s)) o t dest src)
          (hasAlignment (asking p) o t.lift dest src)
          (hasAlignment (memoized destText srcText fun d s => pure (p d s)) o t.lift dest src)) ∧
      ∀ (destShow : δ → String) (srcShow : σ → String) (o : Options)
        (t : Tracer n δ σ (List (Group δ σ))),
        Transparent known (alignedGroups (fun d s => pure (p d s)) destShow srcShow o t dest src)
          (alignedGroups (asking p) destShow srcShow o t.lift dest src)
          (alignedGroups (memoized destText srcText fun d s => pure (p d s)) destShow srcShow o
            t.lift dest src) := by
  have hplain (d : δ) (s : σ) :
      (Lockstep.dropState n (List (δ × σ))).rel (pure (p d s)) (asking p d s) := by
    intro asked
    rw [run_asking, map_pure]
  have hmemoized {d : Item δ} (hd : d ∈ dest) {s : Item σ} (hs : s ∈ src) :=
    h.rel_memoized (n := n) hd hs
  refine ⟨knownAfter destText srcText p dest src, ?_, ?_, ?_⟩
  · exact fun asked => Verdicts.tallies_after _ _ asked
  · intro o t
    refine transparent_of_lockstep rfl ?_ ?_
    · exact lockstep_hasAlignment (fun d _ s _ => hplain d.label s.label) o t.lift_dropState
    · exact lockstep_hasAlignment (fun d hd s hs => hmemoized hd hs) o (t.lift_mapState _)
  · intro destShow srcShow o t
    refine transparent_of_lockstep rfl ?_ ?_
    · exact lockstep_alignedGroups (fun d _ s _ => hplain d.label s.label) destShow srcShow o
        t.lift_dropState
    · exact lockstep_alignedGroups (fun d hd s hs => hmemoized hd hs) destShow srcShow o
        (t.lift_mapState _)

/-- Of two dest items and three src items. -/
theorem memoized_transparent_two_three :
    let dest : List (Item String) := [⟨"x", .zeroOrMore⟩, .single "y"]
    let src : List (Item String) := [.single "x", ⟨"x", .upTo 3⟩, .single "z"]
    KeysDecide id id (fun a b => a == b) dest src ∧
      ∃ known : List (String × String) → Verdicts,
        (∀ asked, (known asked).misses = (known asked).size) ∧
          Transparent (n := Id) known
            (hasAlignment (fun a b => pure (a == b)) { memoize := true } .silent dest src)
            (hasAlignment (asking fun a b => a == b) { memoize := true } (Tracer.lift .silent) dest
              src)
            (hasAlignment (memoized id id fun a b => pure (a == b)) { memoize := true }
              (Tracer.lift .silent) dest src) := by
  intro dest src
  have hdecide : KeysDecide id id (fun a b => a == b) dest src := by
    unfold KeysDecide
    decide +kernel
  obtain ⟨known, htallies, hmatch, _⟩ := memoized_transparent (n := Id) id id (fun a b => a == b)
    dest src hdecide
  exact ⟨hdecide, known, fun asked => (htallies asked).misses_eq_size, hmatch _ _⟩

end SeqAlign
