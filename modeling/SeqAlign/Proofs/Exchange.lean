import SeqAlign.Proofs.Agreement
import SeqAlign.Proofs.Recording

/-!
# SeqAlign.Proofs.Exchange

The two sequences change places.

* `State.swap`: the same state, seen from the other side. So are its outlook, what the walk stands
  on, and its edges, although dest and src are not treated alike in the order of the edges.
* `Strategy.Judges`: a strategy that decides about each pairing by itself.
* `ends_swap`: where a walk ends for one such strategy, one ends for the other strategy on the
  other side, if the two decide alike.
* `isSome_found_swap`: so a search without limits finds something if and only if the one with the
  sequences exchanged does.
* `alignments_swap`: this is so of matches and of common sequences.
-/

namespace SeqAlign

variable {α δ σ ρ ρ' γ : Type}

namespace Pairing

def swap (q : Pairing δ σ) : Pairing σ δ := ⟨q.src, q.dest⟩

theorem accepts_swap (p : δ → σ → Bool) (q : Pairing δ σ) :
    q.swap.accepts (fun s d => p d s) = q.accepts p := by
  obtain ⟨d, s⟩ := q
  cases d <;> cases s <;> simp [swap, accepts, Bool.and_comm]

end Pairing

def Side.swap : Side → Side
  | .dest => .src
  | .src => .dest

def Phase.swap : Phase → Phase
  | .inside => .inside
  | .past ended => .past ended.swap

def Outlook.swap : Outlook → Outlook
  | .finished => .finished
  | .blocked ended => .blocked ended.swap
  | .onward phase => .onward phase.swap

def Edge.swap (e : Edge δ σ) : Edge σ δ := ⟨e.src, e.dest⟩

namespace State

def swap : State δ σ → State σ δ
  | .start ds ss => .start ss ds
  | .on p q => .on q p

theorem pairing_swap (s : State δ σ) : s.swap.pairing? = s.pairing?.map Pairing.swap := by
  match s with
  | .start _ _ => rfl
  | .on ⟨_, []⟩ ⟨_, []⟩ => rfl
  | .on ⟨_, []⟩ ⟨_, _ :: _⟩ => rfl
  | .on ⟨_, _ :: _⟩ ⟨_, []⟩ => rfl
  | .on ⟨_, _ :: _⟩ ⟨_, _ :: _⟩ => rfl

theorem outlook_swap (s : State δ σ) : s.swap.outlook = s.outlook.swap := by
  match s with
  | .start _ _ => rfl
  | .on ⟨_, []⟩ ⟨_, []⟩ => rfl
  | .on ⟨_, []⟩ ⟨_, b :: _⟩ => by_cases hb : b.isSkippable <;> simp [swap, outlook, hb] <;> rfl
  | .on ⟨_, a :: _⟩ ⟨_, []⟩ => by_cases ha : a.isSkippable <;> simp [swap, outlook, ha] <;> rfl
  | .on ⟨_, _ :: _⟩ ⟨_, _ :: _⟩ => rfl

/-- Inside the sequences, dest stays and src leaves on the edges that are tried first; seen from the
other side, they are among the later ones. -/
theorem swap_mem_edges {s : State δ σ} {e : Edge δ σ} (he : e ∈ s.edges) :
    e.swap ∈ s.swap.edges := by
  match s, he with
  | .start _ _, he =>
    obtain ⟨hx, hy⟩ := mem_edges_start.1 he
    exact mem_edges_start.2 ⟨hy, hx⟩
  | .on ⟨_, []⟩ ⟨_, []⟩, he => cases he
  | .on ⟨_, []⟩ ⟨_, _ :: _⟩, he =>
    obtain ⟨hb, rfl⟩ := mem_edges_past_dest.1 he
    exact mem_edges_past_src.2 ⟨hb, rfl⟩
  | .on ⟨_, _ :: _⟩ ⟨_, []⟩, he =>
    obtain ⟨ha, rfl⟩ := mem_edges_past_src.1 he
    exact mem_edges_past_dest.2 ⟨ha, rfl⟩
  | .on ⟨_, _ :: _⟩ ⟨_, _ :: _⟩, he =>
    rcases mem_edges_inside.1 he with ⟨hstay, hleave⟩ | ⟨hleave, hmove⟩
    · exact mem_edges_inside.2 (.inr ⟨hleave, List.mem_append_left _ hstay⟩)
    · rcases List.mem_append.1 hmove with hstay | hleave'
      · exact mem_edges_inside.2 (.inl ⟨hstay, hleave⟩)
      · exact mem_edges_inside.2 (.inr ⟨hleave', List.mem_append_right _ hleave⟩)

end State

/-- What has been folded plays no part in what the strategy admits. -/
def Strategy.Judges {ε : Type} (S : Strategy (Except ε) δ σ ρ) (P : Pairing δ σ → Bool) : Prop :=
  ∀ v q, S.admits v q = .ok (P q)

theorem certain_existence_judges (p : δ → σ → Bool) :
    (existence (m := Id) fun d s => pure (p d s)).certain.Judges fun q => q.accepts p := by
  rw [certain_existence]
  exact existence_asks p

section CommonSequence

variable [DecidableEq γ] (merge : Option (Item δ) → Option (Item σ) → Option (Item γ))
  (text : γ → String)

theorem certain_commonSequence :
    (commonSequence (m := Id) (fun d s => pure (merge d s)) text).certain =
      commonSequence (m := Except Empty) (fun d s => pure (merge d s)) text := by
  rw [Strategy.certain, Strategy.mk.injEq]
  refine ⟨rfl, ?_, rfl, rfl⟩
  funext items q
  simp only [commonSequence, Merge.ofPairing, pure_bind]
  cases merge (q.dest.map Tracker.item) (q.src.map Tracker.item) <;> rfl

theorem certain_commonSequence_judges :
    (commonSequence (m := Id) (fun d s => pure (merge d s)) text).certain.Judges fun q =>
      q.hasCommon merge :=
  fun _ _ => rfl

theorem certain_commonSequence_digestsFuture (items : List (Item γ)) :
    (commonSequence (m := Id) (fun d s => pure (merge d s)) text).certain.DigestsFuture items := by
  rw [certain_commonSequence]
  exact commonSequence_digestsFuture _ text items

end CommonSequence

section Swap

variable {S : Strategy (Except Empty) δ σ ρ} {S' : Strategy (Except Empty) σ δ ρ'}
  {P : Pairing δ σ → Bool} {P' : Pairing σ δ → Bool}

theorem opens_swap (hS : S.Judges P) (hS' : S'.Judges P') (hP : ∀ q, P' q.swap = P q)
    {here : Option (Pairing δ σ)} {v : ρ} (h : S.opens v here = .ok true) (w : ρ') :
    S'.opens w (here.map Pairing.swap) = .ok true := by
  cases here with
  | none => rfl
  | some q =>
    have hq : P q = true := Except.ok.inj ((hS v q).symm.trans h)
    exact (hS' w q.swap).trans (congrArg Except.ok ((hP q).trans hq))

theorem ends_swap (hS : S.Judges P) (hS' : S'.Judges P') (hP : ∀ q, P' q.swap = P q)
    {s : State δ σ} {v w : ρ} {ks : List Nat} (h : Decided S S.graph s v ks (.ok w)) :
    S'.Ends s.swap := by
  -- the walk is taken link by link on the other side
  generalize hr : (.ok w : Except Empty ρ) = r at h
  induction h with
  | @ended s v hend =>
    intro v'
    refine ⟨[], v', .ended ?_⟩
    show s.swap.outlook = .finished
    rw [State.outlook_swap, show s.outlook = .finished from hend]
    rfl
  | unanswered _ => cases hr
  | unfolded _ _ _ => cases hr
  | @link s y v _ _ _ _ _ _ hls hk _ _ ih =>
    obtain ⟨ph, e, ho, hopens, he, rfl, _⟩ := Strategy.edge_of_mem_links hls (List.mem_of_getElem? hk)
    have ho' : s.swap.outlook = .onward ph.swap := by
      rw [State.outlook_swap, ho]
      rfl
    refine ends_of_opens ho' ?_ (State.swap_mem_edges he) (ih hr)
    intro v'
    rw [State.pairing_swap]
    exact opens_swap hS hS' hP hopens v'

end Swap

section Search

variable {S : Strategy Id δ σ ρ} {S' : Strategy Id σ δ ρ'} {P : Pairing δ σ → Bool}
  {P' : Pairing σ δ → Bool}

theorem isSome_found_of_swap (hS : S.certain.Judges P) (hS' : S'.certain.Judges P')
    (hP : ∀ q, P' q.swap = P q) {v : ρ} {v' : ρ'} (hfuture : S.certain.DigestsFuture v)
    (hfuture' : S'.certain.DigestsFuture v') (b b' : Bool) (t : Tracer Id δ σ ρ)
    (t' : Tracer Id σ δ ρ') (dest : List (Tracker δ)) (src : List (Tracker σ))
    (h : (search S { memoize := b } t dest src v).found.isSome = true) :
    (search S' { memoize := b' } t' src dest v').found.isSome = true := by
  obtain ⟨ks, w, hd⟩ := (isSome_found_iff S b t dest src v hfuture).1 h
  exact (isSome_found_iff S' b' t' src dest v' hfuture').2 (ends_swap hS hS' hP hd v')

theorem isSome_found_swap (hS : S.certain.Judges P) (hS' : S'.certain.Judges P')
    (hP : ∀ q, P' q.swap = P q) {v : ρ} {v' : ρ'} (hfuture : S.certain.DigestsFuture v)
    (hfuture' : S'.certain.DigestsFuture v') (b b' : Bool) (t : Tracer Id δ σ ρ)
    (t' : Tracer Id σ δ ρ') (dest : List (Tracker δ)) (src : List (Tracker σ)) :
    (search S { memoize := b } t dest src v).found.isSome =
      (search S' { memoize := b' } t' src dest v').found.isSome := by
  rw [Bool.eq_iff_iff]
  constructor
  · exact isSome_found_of_swap hS hS' hP hfuture hfuture' b b' t t' dest src
  · have hP' (q : Pairing σ δ) : P q.swap = P' q := (hP q.swap).symm
    exact isSome_found_of_swap hS' hS hP' hfuture' hfuture b' b t' t src dest

/-- Two sequences match, or have a common sequence, if and only if they do with the two sides
exchanged. -/
theorem alignments_swap [DecidableEq γ] (p : δ → σ → Bool)
    (merge : Option (Item δ) → Option (Item σ) → Option (Item γ)) (b b' : Bool)
    (dest : List (Item δ)) (src : List (Item σ)) :
    (∀ t t',
      (hasAlignment (m := Id) (fun d s => pure (p d s)) { memoize := b } t dest src).1 =
        (hasAlignment (m := Id) (fun s d => pure (p d s)) { memoize := b' } t' src dest).1) ∧
    ∀ text t t',
      (alignedMerge (m := Id) (fun d s => pure (merge d s)) text { memoize := b } t dest
          src).found.isSome =
        (alignedMerge (m := Id) (fun s d => pure (merge d s)) text { memoize := b' } t' src
          dest).found.isSome := by
  constructor
  · intro t t'
    rw [hasAlignment_eq, hasAlignment_eq (fun s d => p d s)]
    exact isSome_found_swap (certain_existence_judges p)
      (certain_existence_judges fun s d => p d s) (Pairing.accepts_swap p)
      (certain_existence_digestsFuture p false)
      (certain_existence_digestsFuture (fun s d => p d s) false) b b' t t' _ _
  · intro text t t'
    exact isSome_found_swap (certain_commonSequence_judges merge text)
      (certain_commonSequence_judges (fun s d => merge d s) text) (fun _ => rfl)
      (certain_commonSequence_digestsFuture merge text [])
      (certain_commonSequence_digestsFuture (fun s d => merge d s) text []) b b' t t' _ _

end Search

end SeqAlign
