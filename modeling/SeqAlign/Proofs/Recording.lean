import SeqAlign.Proofs.DeadEnds
import SeqAlign.Proofs.Mirror
import SeqAlign.Proofs.Track
import SeqAlign.Relation

/-!
# SeqAlign.Proofs.Recording

What has been folded on the walk that a search finds.

* `Strategy.recording`: a strategy that also keeps what it folds. Apart from that a search with it is
  the same search (`search_recording`).
* `Route`: the steps of a walk over two sequences, with the state that it gets to.
* `Route.omits`: what a step jumps over are items that need not occur, none of them the last one of
  its sequence.
* `recording_route`: what a search has folded is what the steps of a walk fold. What the walk stood
  on was admitted each time, also what was left over behind the end of the other sequence. Nothing
  was asked about what it jumped over.
* `alignedMerge_admits`: so a common sequence is made of pairings that have a common item, and of
  items that were jumped over.
-/

namespace SeqAlign

variable {α γ ε δ σ ρ : Type}

def Strategy.recording {m : Type → Type} [Monad m] (S : Strategy m δ σ ρ) :
    Strategy m δ σ (ρ × List (Pairing δ σ)) where
  admits v q := S.admits v.1 q
  fold v q := do
    let w ← S.fold v.1 q
    return (w, v.2 ++ [q])
  digest v := S.digest v.1
  render v := S.render v.1

theorem recording_foldAll (S : Strategy (Except ε) δ σ ρ) (v : ρ × List (Pairing δ σ))
    (qs : List (Pairing δ σ)) :
    S.recording.foldAll v qs = (S.foldAll v.1 qs).map fun w => (w, v.2 ++ qs) := by
  induction qs generalizing v with
  | nil =>
    rw [List.append_nil]
    rfl
  | cons q qs ih =>
    rw [Strategy.foldAll, Strategy.foldAll, List.foldlM_cons, List.foldlM_cons]
    simp only [Strategy.recording]
    cases S.fold v.1 q with
    | error f => rfl
    | ok w =>
      have hrest := ih (w, v.2 ++ [q])
      rw [List.append_assoc] at hrest
      exact hrest

theorem log_of_foldAll {S : Strategy (Except ε) δ σ ρ} {v w : ρ × List (Pairing δ σ)}
    {qs : List (Pairing δ σ)} (h : S.recording.foldAll v qs = .ok w) : w.2 = v.2 ++ qs := by
  rw [recording_foldAll] at h
  cases hf : S.foldAll v.1 qs with
  | error f =>
    rw [hf] at h
    cases h
  | ok u =>
    rw [hf] at h
    obtain rfl := Except.ok.inj h
    rfl

theorem mirrors_recording (S : Strategy (Except ε) δ σ ρ) :
    S.Mirrors S.recording (fun _ v w => v = w.1) where
  digest := by
    rintro s _ w rfl
    rfl
  opens := by
    rintro s _ w _ rfl _
    cases s.pairing? with
    | none => exact .done rfl
    | some q => exact .refl (fun _ => rfl) _
  foldAll := by
    rintro s _ w e rfl _ _
    rw [recording_foldAll]
    cases S.foldAll w.1 (e.folded s.pairing?) with
    | error f => exact .failed f f
    | ok u => exact .done rfl

/-- A recorded search finds the same, with what has been folded beside it. -/
theorem search_recording (S : Strategy Id δ σ ρ) (o : Options) (t : Tracer Id δ σ ρ)
    (t' : Tracer Id δ σ (ρ × List (Pairing δ σ))) (dest : List (Tracker δ))
    (src : List (Tracker σ)) (v : ρ) :
    let recorded : Outcome (ρ × List (Pairing δ σ)) :=
      search S.recording o t' dest src (v, [])
    recorded.found.map Prod.fst = (search S o t dest src v).found ∧
      recorded.stats = (search S o t dest src v).stats := by
  intro recorded
  have hmirrors : S.certain.Mirrors S.recording.certain (fun _ v w => v = w.1) :=
    mirrors_recording S.certain
  obtain ⟨hstats, hfound⟩ := search_mirrors hmirrors o t t' dest src v (v, []) rfl
  refine ⟨map_eq_of_rel ?_ hfound, hstats.symm⟩
  rintro _ w ⟨_, _, rfl⟩
  rfl

/-- Where a walk stands, and how it goes on. -/
structure Step (δ σ : Type) where
  state : State δ σ
  edge : Edge δ σ

namespace Step

def folded (x : Step δ σ) : List (Pairing δ σ) := x.edge.folded x.state.pairing?

def jumped (x : Step δ σ) : List (Pairing δ σ) :=
  x.edge.dest.skipped.map .destOnly ++ x.edge.src.skipped.map .srcOnly

theorem mem_folded {x : Step δ σ} {q : Pairing δ σ} :
    q ∈ x.folded ↔ q ∈ x.state.pairing? ∨ q ∈ x.jumped := by
  rw [folded, Edge.folded, List.append_assoc, List.mem_append, Option.mem_toList]
  rfl

end Step

/-- The steps of a walk over two sequences that has got to a state. -/
inductive Route (ds : List (Item δ)) (ss : List (Item σ)) :
    List (Step δ σ) → State δ σ → Prop where
  | start : Route ds ss [] (.start (freshTrackers ds) (freshTrackers ss))
  | step {xs : List (Step δ σ)} {s : State δ σ} {e : Edge δ σ} :
      Route ds ss xs s → e ∈ s.edges → Route ds ss (xs ++ [⟨s, e⟩]) e.target

/-- Before the end of the sequence, an item that need not occur and has not been counted. -/
structure Tracker.Omitted (items : List (Item α)) (t : Tracker α) : Prop where
  at_position : items[t.entry.position]? = some t.item
  before_last : t.entry.position + 1 < items.length
  skippable : t.isSkippable = true
  uncounted : t.count = 0

inductive Omits (ds : List (Item δ)) (ss : List (Item σ)) : Pairing δ σ → Prop where
  | dest {d : Tracker δ} : d.Omitted ds → Omits ds ss (.destOnly d)
  | src {s : Tracker σ} : s.Omitted ss → Omits ds ss (.srcOnly s)

theorem Place.omitted_of_mem_arrivals {items : List (Item α)} {k : Nat} {mv : Move α}
    {t : Tracker α} (hmv : mv ∈ Place.arrivals k ((freshTrackers items).drop k))
    (ht : t ∈ mv.skipped) : t.Omitted items := by
  obtain ⟨js, ts, hrest, hends, hall, rfl⟩ := Place.mem_arrivals.1 hmv
  rw [Move.skipped, List.reverse_reverse] at ht
  obtain ⟨n, hn⟩ := List.mem_iff_getElem?.1 ht
  have hnlt := (List.getElem?_eq_some_iff.1 hn).1
  have hts : 0 < ts.length := by
    refine List.length_pos_iff.2 (hends.resolve_left ?_)
    rintro rfl
    cases ht
  have hlength := congrArg List.length hrest
  rw [List.length_drop, length_freshTrackers, List.length_append] at hlength
  have hfresh : (freshTrackers items)[k + n]? = some t := by
    rw [← List.getElem?_drop, hrest, List.getElem?_append_left hnlt, hn]
  rw [getElem?_freshTrackers, Option.map_eq_some_iff] at hfresh
  obtain ⟨item, hitem, rfl⟩ := hfresh
  exact ⟨hitem, by simp only; omega, hall _ ht, rfl⟩

theorem Place.omitted_of_mem_moves {items : List (Item α)} {p : Place α} {mv : Move α}
    {t : Tracker α} (hp : p.Of (freshTrackers items)) (hmv : mv ∈ p.moves) (ht : t ∈ mv.skipped) :
    t.Omitted items := by
  obtain ⟨i, rest⟩ := p
  cases rest with
  | nil => cases hmv
  | cons a as =>
    rcases List.mem_append.1 hmv with hmv | hmv
    · obtain ⟨_, rfl⟩ := Place.mem_stays.1 hmv
      cases ht
    · obtain ⟨_, _, _, rfl⟩ := hp.cons
      exact Place.omitted_of_mem_arrivals hmv ht

section Route

variable {ds : List (Item δ)} {ss : List (Item σ)} {xs : List (Step δ σ)} {s : State δ σ}

theorem Route.fits (h : Route ds ss xs s) : s.Fits (freshTrackers ds) (freshTrackers ss) := by
  induction h with
  | start => exact .start
  | step _ he ih => exact State.fits_target ih he

theorem omits_of_moves {e : Edge δ σ} (hd : ∀ t ∈ e.dest.skipped, t.Omitted ds)
    (hs : ∀ t ∈ e.src.skipped, t.Omitted ss) {q : Pairing δ σ}
    (hq : q ∈ (Step.mk s e).jumped) : Omits ds ss q := by
  rcases List.mem_append.1 hq with hq | hq
  · obtain ⟨t, ht, rfl⟩ := List.mem_map.1 hq
    exact .dest (hd t ht)
  · obtain ⟨t, ht, rfl⟩ := List.mem_map.1 hq
    exact .src (hs t ht)

theorem omits_of_mem_edges (hs : s.Fits (freshTrackers ds) (freshTrackers ss)) {e : Edge δ σ}
    (he : e ∈ s.edges) {q : Pairing δ σ} (hq : q ∈ (Step.mk s e).jumped) : Omits ds ss q := by
  cases hs with
  | start =>
    obtain ⟨hx, hy⟩ := State.mem_edges_start.1 he
    exact omits_of_moves (fun _ => Place.omitted_of_mem_arrivals hx)
      (fun _ => Place.omitted_of_mem_arrivals hy) hq
  | on hp hp' =>
    cases State.passage_of_mem_edges he with
    | pastDest _ => cases hq
    | pastSrc _ => cases hq
    | inside hx hy _ =>
      exact omits_of_moves (fun _ => Place.omitted_of_mem_moves hp hx)
        (fun _ => Place.omitted_of_mem_moves hp' hy) hq

theorem Route.omits (h : Route ds ss xs s) {x : Step δ σ} (hx : x ∈ xs) {q : Pairing δ σ}
    (hq : q ∈ x.jumped) : Omits ds ss q := by
  induction h with
  | start => cases hx
  | step h he ih =>
    rcases List.mem_append.1 hx with hx | hx
    · exact ih hx
    · obtain rfl := List.mem_singleton.1 hx
      exact omits_of_mem_edges h.fits he hq

end Route

/-- The steps have folded this on the way to the state, and what they stood on was admitted, with
some value. -/
structure Walked (S : Strategy (Except ε) δ σ ρ) (ds : List (Item δ)) (ss : List (Item σ))
    (s : State δ σ) (folded : List (Pairing δ σ)) (xs : List (Step δ σ)) : Prop where
  route : Route ds ss xs s
  folded : folded = xs.flatMap Step.folded
  admitted : ∀ x ∈ xs, ∀ q ∈ x.state.pairing?, ∃ v, S.admits v q = .ok true

theorem Walked.step {S : Strategy (Except ε) δ σ ρ} {ds : List (Item δ)} {ss : List (Item σ)}
    {s : State δ σ} {folded : List (Pairing δ σ)} {xs : List (Step δ σ)} {v : ρ} {e : Edge δ σ}
    (h : Walked S ds ss s folded xs) (hv : ∀ q ∈ s.pairing?, S.admits v q = .ok true)
    (he : e ∈ s.edges) :
    Walked S ds ss e.target (folded ++ e.folded s.pairing?) (xs ++ [⟨s, e⟩]) where
  route := h.route.step he
  folded := by
    rw [List.flatMap_append, List.flatMap_singleton, h.folded]
    rfl
  admitted := by
    intro x hx q hq
    rcases List.mem_append.1 hx with hx | hx
    · exact h.admitted x hx q hq
    · obtain rfl := List.mem_singleton.1 hx
      exact ⟨v, hv q hq⟩

/-- What a search has folded is what is folded on a walk that ends. -/
theorem recording_route {S : Strategy Id δ σ ρ} {o : Options}
    {t : Tracer Id δ σ (ρ × List (Pairing δ σ))} {dest : List (Item δ)} {src : List (Item σ)}
    {v w : ρ} {folded : List (Pairing δ σ)}
    (h : (search S.recording o t (freshTrackers dest) (freshTrackers src) (v, [])).found =
      some (w, folded)) :
    ∃ s xs, s.outlook = .finished ∧ Walked S.certain dest src s folded xs := by
  obtain ⟨ks, hd⟩ := decided_of_found h
  obtain ⟨s, hend, xs, hxs⟩ := hd.invariant
    (I := fun s u => ∃ xs, Walked S.certain dest src s u.2 xs) (by
      rintro s u ls _ _ u' ⟨xs, hxs⟩ hls hy hf
      obtain ⟨_, e, _, hopens, he, rfl, rfl⟩ := Strategy.edge_of_mem_links hls hy
      have hv : ∀ q ∈ s.pairing?, S.certain.admits u.1 q = .ok true := by
        intro q hq
        rw [Option.mem_def.1 hq] at hopens
        exact hopens
      rw [log_of_foldAll (S := S.certain) hf]
      exact ⟨_, hxs.step hv he⟩)
    ⟨[], .start, rfl, by simp⟩
  exact ⟨s, xs, hend, hxs⟩

/-! ## Common sequences -/

def Pairing.hasCommon (merge : Option (Item δ) → Option (Item σ) → Option (Item γ))
    (q : Pairing δ σ) : Bool :=
  (merge (q.dest.map Tracker.item) (q.src.map Tracker.item)).isSome

/-- A common sequence is found on a walk. Whatever the walk stands on has a common item, two items as
well as one that is left over behind the end of the other sequence. Nothing is asked about what it
jumps over: all that has been folded has common items if and only if what was jumped over has. -/
theorem alignedMerge_admits [DecidableEq γ]
    (merge : Option (Item δ) → Option (Item σ) → Option (Item γ)) (text : γ → String)
    (o : Options) (t : Tracer Id δ σ (List (Item γ)))
    (t' : Tracer Id δ σ (List (Item γ) × List (Pairing δ σ))) (dest : List (Item δ))
    (src : List (Item σ)) :
    let merged : Outcome (List (Item γ)) :=
      alignedMerge (m := Id) (fun d s => pure (merge d s)) text o t dest src
    let recorded : Outcome (List (Item γ) × List (Pairing δ σ)) :=
      search (commonSequence (m := Id) (fun d s => pure (merge d s)) text).recording o t'
        (freshTrackers dest) (freshTrackers src) ([], [])
    recorded.found.map Prod.fst = merged.found ∧ recorded.stats = merged.stats ∧
      ∀ items folded, recorded.found = some (items, folded) →
        ∃ s xs, s.outlook = .finished ∧ Route dest src xs s ∧ folded = xs.flatMap Step.folded ∧
          (∀ x ∈ xs, ∀ q ∈ x.state.pairing?, q.hasCommon merge = true) ∧
          (∀ x ∈ xs, ∀ q ∈ x.jumped, Omits dest src q) ∧
          ((∀ q ∈ folded, q.hasCommon merge = true) ↔
            ∀ x ∈ xs, ∀ q ∈ x.jumped, q.hasCommon merge = true) := by
  intro merged recorded
  obtain ⟨hfound, hstats⟩ := search_recording
    (commonSequence (m := Id) (fun d s => pure (merge d s)) text) o t t' (freshTrackers dest)
    (freshTrackers src) []
  refine ⟨hfound, hstats, ?_⟩
  intro items folded h
  obtain ⟨s, xs, hend, hroute, rfl, hadmitted⟩ := recording_route h
  have hcommon : ∀ x ∈ xs, ∀ q ∈ x.state.pairing?, q.hasCommon merge = true := by
    intro x hx q hq
    obtain ⟨_, hq⟩ := hadmitted x hx q hq
    exact Except.ok.inj hq
  refine ⟨s, xs, hend, hroute, rfl, hcommon, fun x hx q => hroute.omits hx, ?_, ?_⟩
  · intro hall x hx q hq
    exact hall q (List.mem_flatMap.2 ⟨x, hx, Step.mem_folded.2 (.inr hq)⟩)
  · intro hjumped q hq
    obtain ⟨x, hx, hq⟩ := List.mem_flatMap.1 hq
    exact (Step.mem_folded.1 hq).elim (hcommon x hx q) (hjumped x hx q)

/-- An optional one is jumped over and kept. -/
theorem hasCommon_one_two :
    ∀ q ∈ ([.destOnly ⟨⟨0, ⟨1, .optional⟩⟩, 0⟩,
        .both ⟨⟨1, .single 2⟩, 0⟩ ⟨⟨0, .single 2⟩, 0⟩] : List (Pairing Nat Nat)),
      q.hasCommon Merging.keep = true := by
  obtain ⟨_, _, hadmits⟩ := alignedMerge_admits (Merging.keep (α := Nat)) toString {} .silent
    .silent [⟨1, .optional⟩, .single 2] [.single 2]
  obtain ⟨s, xs, _, _, _, _, homits, hiff⟩ := hadmits [⟨1, .optional⟩, .single 2]
    [.destOnly ⟨⟨0, ⟨1, .optional⟩⟩, 0⟩, .both ⟨⟨1, .single 2⟩, 0⟩ ⟨⟨0, .single 2⟩, 0⟩]
    (by decide +kernel)
  refine hiff.2 fun x hx q hq => ?_
  cases homits x hx q hq <;> rfl

/-- The optional one has no common item with absence. Behind the two it is refused for that, but
before the two it is jumped over. -/
theorem alignedMerge_folds_refused :
    (search (commonSequence (m := Id) (fun d s => pure (Merging.equal d s)) toString).recording {}
        .silent (freshTrackers [⟨1, .optional⟩, .single 2]) (freshTrackers [.single 2])
        ([], [])).found =
      some ([.single 2], ([.destOnly ⟨⟨0, ⟨1, .optional⟩⟩, 0⟩,
        .both ⟨⟨1, .single 2⟩, 0⟩ ⟨⟨0, .single 2⟩, 0⟩] : List (Pairing Nat Nat))) ∧
      (Pairing.destOnly (σ := Nat) ⟨⟨0, ⟨1, .optional⟩⟩, 0⟩).hasCommon Merging.equal = false ∧
      (alignedMerge (m := Id) (fun d s => pure (Merging.equal d s)) toString {} .silent
        [.single 2, ⟨1, .optional⟩] [.single 2]).found = none := by
  decide +kernel

end SeqAlign
