import Mathlib.Data.List.Chain
import SeqAlign.Proofs.Track
import SeqAlign.Proofs.Walks

/-!
# SeqAlign.Proofs.Trail

What a walk has paired on its way.

* `IsAlignment`: the pairs of indices that align two sequences.
* `Trail p dest src s P`: a walk that gets to the state `s` may have paired `P` before.
* `Trail.step`: along an edge the pair that the walk stands on is added.
* `Trail.isAlignment`: where a walk ends, its pairs align the two sequences.
* `Decided.trail`: what each edge keeps, of the pairs and of the value folded so far, holds where a
  walk ends.
-/

namespace SeqAlign

variable {ε δ σ ρ : Type}

/-- Neither index decreases, and one of them increases. -/
def Forward (x y : Nat × Nat) : Prop := x.1 ≤ y.1 ∧ x.2 ≤ y.2 ∧ (x.1 < y.1 ∨ x.2 < y.2)

instance isTransForward : IsTrans (Nat × Nat) Forward where
  trans x y z hxy hyz := by
    simp only [Forward] at hxy hyz ⊢
    omega

/-- Of two sequences with these lengths at most one has indices after the last pair. -/
def Exhausts (n m : Nat) (P : List (Nat × Nat)) : Prop :=
  match P.getLast? with
  | none => n = 0 ∨ m = 0
  | some x => x.1 + 1 = n ∨ x.2 + 1 = m

/-- The relation holds between the labels at each pair of indices. -/
def Related (p : δ → σ → Bool) (dest : List (Item δ)) (src : List (Item σ))
    (P : List (Nat × Nat)) : Prop :=
  ∀ x ∈ P, ∃ d s, dest[x.1]? = some d ∧ src[x.2]? = some s ∧ p d.label s.label = true

structure IsAlignment (p : δ → σ → Bool) (ds : List (Item δ)) (ss : List (Item σ))
    (P : List (Nat × Nat)) : Prop where
  forward : P.IsChain Forward
  related : Related p ds ss P
  dest : Tolerated ds (P.map Prod.fst)
  src : Tolerated ss (P.map Prod.snd)
  exhausts : Exhausts ds.length ss.length P

theorem IsAlignment.pairwise {p : δ → σ → Bool} {ds : List (Item δ)} {ss : List (Item σ)}
    {P : List (Nat × Nat)} (h : IsAlignment p ds ss P) : P.Pairwise Forward :=
  List.isChain_iff_pairwise.1 h.forward

/-- `Pairing.corresponds` for a relation that always answers. -/
def Pairing.accepts (p : δ → σ → Bool) : Pairing δ σ → Bool
  | ⟨none, none⟩ => true
  | ⟨some d, some s⟩ => d.hasMore && s.hasMore && p d.label s.label
  | ⟨none, some s⟩ => s.isSkippable
  | ⟨some d, none⟩ => d.isSkippable

theorem corresponds_pure {m : Type → Type} [Monad m] (p : δ → σ → Bool) (q : Pairing δ σ) :
    q.corresponds (fun d s => (pure (p d s) : m Bool)) = pure (q.accepts p) := by
  match q with
  | ⟨none, none⟩ => rfl
  | ⟨none, some s⟩ => rfl
  | ⟨some d, none⟩ => rfl
  | ⟨some d, some s⟩ =>
    simp only [Pairing.corresponds, Pairing.accepts]
    cases d.hasMore && s.hasMore <;> rfl

/-- At these places a walk may have paired `P`. -/
structure Paired (p : δ → σ → Bool) (ds : List (Item δ)) (ss : List (Item σ)) (a : Place δ)
    (b : Place σ) (P : List (Nat × Nat)) : Prop where
  dest : Track ds a (P.map Prod.fst)
  src : Track ss b (P.map Prod.snd)
  forward : P.IsChain Forward
  related : Related p ds ss P
  ahead : ∀ x ∈ P, x.1 < a.index ∨ x.2 < b.index
  exhausts : a.rest = [] ∨ b.rest = [] → Exhausts ds.length ss.length P

inductive Trail (p : δ → σ → Bool) (ds : List (Item δ)) (ss : List (Item σ)) :
    State δ σ → List (Nat × Nat) → Prop where
  | start : Trail p ds ss (.start (freshTrackers ds) (freshTrackers ss)) []
  | on {a : Place δ} {b : Place σ} {P : List (Nat × Nat)} :
      Paired p ds ss a b P → Trail p ds ss (.on a b) P

def State.met : State δ σ → List (Nat × Nat)
  | .on ⟨i, _ :: _⟩ ⟨j, _ :: _⟩ => [(i, j)]
  | _ => []

section Step

variable {p : δ → σ → Bool} {ds : List (Item δ)} {ss : List (Item σ)} {P : List (Nat × Nat)}
  {i j : Nat} {a : Tracker δ} {as : List (Tracker δ)} {b : Tracker σ} {bs : List (Tracker σ)}

theorem paired_start {x : Move δ} {y : Move σ} (hx : x ∈ Place.arrivals 0 (freshTrackers ds))
    (hy : y ∈ Place.arrivals 0 (freshTrackers ss)) :
    Paired p ds ss x.place y.place [] where
  dest := Track.fresh hx
  src := Track.fresh hy
  forward := .nil
  related := by
    intro z hz
    cases hz
  ahead := by
    intro z hz
    cases hz
  exhausts h := h.imp (Track.length_eq_zero hx) (Track.length_eq_zero hy)

theorem Paired.cross (h : Paired p ds ss ⟨i, a :: as⟩ ⟨j, b :: bs⟩ P)
    (hab : (Pairing.both a b).accepts p = true) {x : Move δ} {y : Move σ}
    (hx : x ∈ Place.moves ⟨i, a :: as⟩) (hy : y ∈ Place.moves ⟨j, b :: bs⟩)
    (hxy : i < x.place.index ∨ j < y.place.index) :
    Paired p ds ss x.place y.place (P ++ [(i, j)]) := by
  simp only [Pairing.accepts, Pairing.both, Bool.and_eq_true] at hab
  obtain ⟨⟨ha, hb⟩, hrel⟩ := hab
  have hle (z : Nat × Nat) (hz : z ∈ P) : z.1 ≤ i ∧ z.2 ≤ j :=
    ⟨h.dest.le _ (List.mem_map_of_mem hz), h.src.le _ (List.mem_map_of_mem hz)⟩
  refine ⟨?_, ?_, ?_, ?_, ?_, ?_⟩
  · rw [List.map_append]
    exact h.dest.move ha hx
  · rw [List.map_append]
    exact h.src.move hb hy
  · refine List.isChain_append.2 ⟨h.forward, .singleton _, ?_⟩
    intro z hz w hw
    obtain rfl := Option.some.inj hw
    have hmem := List.mem_of_mem_getLast? hz
    exact ⟨(hle z hmem).1, (hle z hmem).2, h.ahead z hmem⟩
  · intro z hz
    rcases List.mem_append.1 hz with hz | hz
    · exact h.related z hz
    · obtain rfl := List.mem_singleton.1 hz
      obtain ⟨d, hd, hda, _⟩ := h.dest.head
      obtain ⟨s, hs, hsb, _⟩ := h.src.head
      refine ⟨d, s, hd, hs, ?_⟩
      simpa [Tracker.label, Tracker.item, hda, hsb] using hrel
  · intro z hz
    rcases List.mem_append.1 hz with hz | hz
    · have := hle z hz
      omega
    · obtain rfl := List.mem_singleton.1 hz
      exact hxy
  · intro hend
    simp only [Exhausts, List.getLast?_concat]
    exact hend.imp (h.dest.last hx) (h.src.last hy)

theorem Paired.leave_dest (h : Paired p ds ss ⟨i, a :: as⟩ ⟨j, []⟩ P)
    (ha : a.isSkippable = true) : Paired p ds ss ⟨i + 1, as⟩ ⟨j, []⟩ P where
  dest := h.dest.leave ha
  src := h.src
  forward := h.forward
  related := h.related
  ahead z hz := (h.ahead z hz).imp_left Nat.lt_succ_of_lt
  exhausts _ := h.exhausts (.inr rfl)

theorem Paired.leave_src (h : Paired p ds ss ⟨i, []⟩ ⟨j, b :: bs⟩ P)
    (hb : b.isSkippable = true) : Paired p ds ss ⟨i, []⟩ ⟨j + 1, bs⟩ P where
  dest := h.dest
  src := h.src.leave hb
  forward := h.forward
  related := h.related
  ahead z hz := (h.ahead z hz).imp_right Nat.lt_succ_of_lt
  exhausts _ := h.exhausts (.inl rfl)

theorem Trail.step {s : State δ σ} {e : Edge δ σ} (h : Trail p ds ss s P)
    (hs : ∀ q ∈ s.pairing?, q.accepts p = true) (he : e ∈ s.edges) :
    Trail p ds ss e.target (P ++ s.met) := by
  cases h with
  | start =>
    obtain ⟨hx, hy⟩ := State.mem_edges_start.1 he
    exact .on (paired_start hx hy)
  | on h =>
    cases State.passage_of_mem_edges he with
    | @pastDest i j b bs hb =>
      have hmet : P ++ (State.on (⟨i, []⟩ : Place δ) ⟨j, b :: bs⟩).met = P := List.append_nil P
      rw [hmet]
      exact .on (h.leave_src hb)
    | @pastSrc i j a as ha =>
      have hmet : P ++ (State.on ⟨i, a :: as⟩ (⟨j, []⟩ : Place σ)).met = P := List.append_nil P
      rw [hmet]
      exact .on (h.leave_dest ha)
    | inside hx hy hxy => exact .on (h.cross (hs _ rfl) hx hy hxy)

theorem Trail.isAlignment {s : State δ σ} (h : Trail p ds ss s P)
    (hs : s.outlook = .finished) : IsAlignment p ds ss P := by
  obtain ⟨i, j, rfl⟩ := State.eq_on_of_finished hs
  cases h with
  | on h => exact ⟨h.forward, h.related, h.dest.final, h.src.final, h.exhausts (.inl rfl)⟩

end Step

/-- The strategy asks the relation, and nothing else. -/
def Strategy.Asks (S : Strategy (Except ε) δ σ ρ) (p : δ → σ → Bool) : Prop :=
  ∀ v q, S.admits v q = .ok (q.accepts p)

theorem Strategy.Asks.opens {S : Strategy (Except ε) δ σ ρ} {p : δ → σ → Bool} (hS : S.Asks p)
    (v : ρ) (here : Option (Pairing δ σ)) :
    S.opens v here = .ok true ↔ ∀ q ∈ here, q.accepts p = true := by
  cases here with
  | none =>
    simp only [Option.not_mem_none, false_implies, implies_true, iff_true]
    rfl
  | some q => simp [Strategy.opens, hS v q]

/-- What each edge keeps, of the state, the pairs and the value, holds where a walk ends. -/
theorem Decided.trail {S : Strategy (Except ε) δ σ ρ} {p : δ → σ → Bool} (hS : S.Asks p)
    {ds : List (Item δ)} {ss : List (Item σ)} {V : State δ σ → List (Nat × Nat) → ρ → Prop}
    (hstep : ∀ s P e v w, Trail p ds ss s P → (∀ q ∈ s.pairing?, q.accepts p = true) →
      e ∈ s.edges → V s P v → S.foldAll v (e.folded s.pairing?) = .ok w →
      V e.target (P ++ s.met) w)
    {v w : ρ} {ks : List Nat}
    (h : Decided S S.graph (.start (freshTrackers ds) (freshTrackers ss)) v ks (.ok w))
    (hstart : V (.start (freshTrackers ds) (freshTrackers ss)) [] v) :
    ∃ s P, s.outlook = .finished ∧ Trail p ds ss s P ∧ V s P w := by
  refine (h.invariant (I := fun s v => ∃ P, Trail p ds ss s P ∧ V s P v) ?_
    ⟨[], .start, hstart⟩).imp fun s hs => ?_
  · intro s v ls t ps w hI hls ht hf
    obtain ⟨P, hP, hV⟩ := hI
    obtain ⟨_, e, _, hopen, he, rfl, rfl⟩ := Strategy.edge_of_mem_links hls ht
    have hq := (hS.opens v s.pairing?).1 hopen
    exact ⟨_, hP.step hq he, hstep s P e v w hP hq he hV hf⟩
  · obtain ⟨hend, P, hP, hV⟩ := hs
    exact ⟨P, hend, hP, hV⟩

end SeqAlign
