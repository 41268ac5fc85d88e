import Mathlib.Data.List.Forall2
import SeqAlign.Proofs.Places
import SeqAlign.Proofs.Walks
import SeqAlign.Search.Ledger

/-!
# SeqAlign.Proofs.Alike

States with the same future.

* `Tracker.seen`: what a strategy may look at in a tracker.
* `Strategy.DigestsFuture`: a strategy looks at nothing else, and two values with one digest have
  one future, as far as failing, admitting and digests go.
* `Tracker.Alike`, `State.Alike`: the same item, and the same count where a count matters.
* `alike_of_key_eq`: in one search two states with one key are alike.
* `exists_decided`: from alike states and values with one digest start walks along the same links.
-/

namespace SeqAlign

/-- Both computations fail, or both succeed and their values are related. -/
inductive Together {ε α β : Type} (R : α → β → Prop) : Except ε α → Except ε β → Prop where
  | failed (f g : ε) : Together R (.error f) (.error g)
  | done {a : α} {b : β} : R a b → Together R (.ok a) (.ok b)

theorem Together.of_error {ε α β : Type} {R : α → β → Prop} {f : ε} {y : Except ε β}
    (h : Together R (.error f) y) : ∃ g, y = .error g := by
  cases h with
  | failed f g => exact ⟨g, rfl⟩

theorem Together.of_ok {ε α β : Type} {R : α → β → Prop} {a : α} {y : Except ε β}
    (h : Together R (.ok a) y) : ∃ b, y = .ok b ∧ R a b := by
  cases h with
  | done hab => exact ⟨_, rfl, hab⟩

theorem Together.bind {ε α β γ η : Type} {R : α → β → Prop} {Q : γ → η → Prop}
    {x : Except ε α} {y : Except ε β} {f : α → Except ε γ} {g : β → Except ε η}
    (h : Together R x y) (hfg : ∀ a b, R a b → Together Q (f a) (g b)) :
    Together Q (x >>= f) (y >>= g) := by
  cases h with
  | failed f g => exact .failed f g
  | done hab => exact hfg _ _ hab

variable {α ε δ σ ρ : Type}

/-- The item at its position, and whether it has more matches. Whether it is skippable is up to
the item. -/
def Tracker.seen (t : Tracker α) : Entry α × Bool := (t.entry, t.hasMore)

def Pairing.seen (p : Pairing δ σ) : Option (Entry δ × Bool) × Option (Entry σ × Bool) :=
  (p.dest.map Tracker.seen, p.src.map Tracker.seen)

/-- The values that folding can lead to. -/
inductive Strategy.Derives (S : Strategy (Except ε) δ σ ρ) (initial : ρ) : ρ → Prop where
  | initial : Derives S initial initial
  | fold {v w : ρ} {p : Pairing δ σ} :
      Derives S initial v → S.fold v p = .ok w → Derives S initial w

structure Strategy.DigestsFuture (S : Strategy (Except ε) δ σ ρ) (initial : ρ) : Prop where
  admits_seen : ∀ v p q, S.Derives initial v → p.seen = q.seen → S.admits v p = S.admits v q
  fold_seen : ∀ v p q, S.Derives initial v → p.seen = q.seen → S.fold v p = S.fold v q
  admits_digest : ∀ v w p, S.Derives initial v → S.Derives initial w → S.digest v = S.digest w →
    Together (· = ·) (S.admits v p) (S.admits w p)
  fold_digest : ∀ v w p, S.Derives initial v → S.Derives initial w → S.digest v = S.digest w →
    Together (fun v' w' => S.digest v' = S.digest w') (S.fold v p) (S.fold w p)

namespace Strategy

variable {S : Strategy (Except ε) δ σ ρ} {initial : ρ}

/-- Two derived values with one digest. -/
structure SameDigest (S : Strategy (Except ε) δ σ ρ) (initial v w : ρ) : Prop where
  left : S.Derives initial v
  right : S.Derives initial w
  digest : S.digest v = S.digest w

theorem Derives.foldAll {v w : ρ} {ps : List (Pairing δ σ)} (h : S.Derives initial v)
    (hf : S.foldAll v ps = .ok w) : S.Derives initial w := by
  induction ps generalizing v with
  | nil =>
    cases hf
    exact h
  | cons p ps ih =>
    cases hp : S.fold v p with
    | error f =>
      simp only [Strategy.foldAll, List.foldlM_cons, hp] at hf
      cases hf
    | ok u =>
      simp only [Strategy.foldAll, List.foldlM_cons, hp] at hf
      exact ih (.fold h hp) hf

theorem DigestsFuture.opens (hS : S.DigestsFuture initial) {v w : ρ}
    (h : S.SameDigest initial v w) {here here' : Option (Pairing δ σ)}
    (hh : here.map Pairing.seen = here'.map Pairing.seen) :
    Together (· = ·) (S.opens v here) (S.opens w here') := by
  match here, here', hh with
  | none, none, _ => exact .done rfl
  | some p, some q, hh =>
    have hpq : S.admits v p = S.admits v q := hS.admits_seen v p q h.left (Option.some.inj hh)
    simp only [Strategy.opens, hpq]
    exact hS.admits_digest v w q h.left h.right h.digest

theorem DigestsFuture.foldAll (hS : S.DigestsFuture initial) {ps qs : List (Pairing δ σ)}
    (hpq : ps.map Pairing.seen = qs.map Pairing.seen) {v w : ρ} (h : S.SameDigest initial v w) :
    Together (S.SameDigest initial) (S.foldAll v ps) (S.foldAll w qs) := by
  induction ps generalizing qs v w with
  | nil =>
    obtain rfl := List.map_eq_nil_iff.1 hpq.symm
    exact .done h
  | cons p ps ih =>
    obtain ⟨q, qs, rfl, hq, htail⟩ := List.map_eq_cons_iff.1 hpq.symm
    simp only [Strategy.foldAll, List.foldlM_cons] at ih ⊢
    rw [hS.fold_seen v p q h.left hq.symm]
    have hfold := hS.fold_digest v w q h.left h.right h.digest
    cases hv : S.fold v q with
    | error f =>
      rw [hv] at hfold
      obtain ⟨g, hw⟩ := hfold.of_error
      rw [hw]
      exact .failed f g
    | ok v' =>
      rw [hv] at hfold
      obtain ⟨w', hw, hdigest⟩ := hfold.of_ok
      rw [hw]
      exact ih htail.symm ⟨.fold h.left hv, .fold h.right hw, hdigest⟩

end Strategy

/-! ## Alike states -/

/-- The same item, with the same count unless it is unbounded. -/
structure Tracker.Alike (t u : Tracker α) : Prop where
  entry : t.entry = u.entry
  boundedCount : t.boundedCount = u.boundedCount

theorem Tracker.Alike.refl (t : Tracker α) : t.Alike t := ⟨rfl, rfl⟩

theorem Tracker.Alike.hasMore {t u : Tracker α} (h : t.Alike u) : t.hasMore = u.hasMore := by
  obtain ⟨e, c⟩ := t
  obtain ⟨e', c'⟩ := u
  obtain ⟨rfl, hcount⟩ := h
  cases hmax : e.item.quantifier.max with
  | none =>
    -- the counts may differ, but neither of them matters
    simp [Tracker.hasMore, Tracker.item, hmax]
  | some m =>
    simp only [Tracker.boundedCount, Tracker.item, Quantifier.isBounded, hmax, Option.isSome_some,
      if_true] at hcount
    rw [hcount]

theorem Tracker.Alike.seen {t u : Tracker α} (h : t.Alike u) : t.seen = u.seen := by
  rw [Tracker.seen, Tracker.seen, h.entry, h.hasMore]

theorem Tracker.Alike.isSkippable {t u : Tracker α} (h : t.Alike u) :
    t.isSkippable = u.isSkippable := by
  simp only [Tracker.isSkippable, Tracker.item, h.entry]

theorem Tracker.Alike.matched {t u : Tracker α} (h : t.Alike u) : t.matched.Alike u.matched := by
  obtain ⟨e, c⟩ := t
  obtain ⟨e', c'⟩ := u
  obtain ⟨rfl, hcount⟩ := h
  refine ⟨rfl, ?_⟩
  simp only [Tracker.boundedCount, Tracker.matched, Tracker.item] at hcount ⊢
  by_cases hb : e.item.quantifier.isBounded
  · simp only [hb, if_true] at hcount ⊢
    rw [hcount]
  · simp only [hb, Bool.false_eq_true, if_false]

/-- The trackers ahead are the same; those that the walk stands on are alike. -/
inductive Place.Alike : Place α → Place α → Prop where
  | past (i : Nat) : Alike ⟨i, []⟩ ⟨i, []⟩
  | on {i : Nat} {t u : Tracker α} {ts : List (Tracker α)} :
      t.Alike u → Alike ⟨i, t :: ts⟩ ⟨i, u :: ts⟩

theorem Place.Alike.refl (p : Place α) : p.Alike p := by
  match p with
  | ⟨i, []⟩ => exact .past i
  | ⟨i, t :: ts⟩ => exact .on (.refl t)

structure Move.Alike (m n : Move α) : Prop where
  jumped : m.jumped = n.jumped
  place : m.place.Alike n.place

theorem Move.Alike.refl (m : Move α) : m.Alike m := ⟨rfl, .refl _⟩

inductive State.Alike : State δ σ → State δ σ → Prop where
  | start (ds : List (Tracker δ)) (ss : List (Tracker σ)) : Alike (.start ds ss) (.start ds ss)
  | on {p p' : Place δ} {q q' : Place σ} : p.Alike p' → q.Alike q' → Alike (.on p q) (.on p' q')

structure Edge.Alike (e f : Edge δ σ) : Prop where
  dest : e.dest.Alike f.dest
  src : e.src.Alike f.src

theorem Edge.Alike.refl (e : Edge δ σ) : e.Alike e := ⟨.refl _, .refl _⟩

theorem Edge.Alike.target {e f : Edge δ σ} (h : e.Alike f) : e.target.Alike f.target :=
  .on h.dest.place h.src.place

theorem Edge.Alike.folded {e f : Edge δ σ} (h : e.Alike f) {here here' : Option (Pairing δ σ)}
    (hh : here.map Pairing.seen = here'.map Pairing.seen) :
    (e.folded here).map Pairing.seen = (f.folded here').map Pairing.seen := by
  have hhere : here.toList.map Pairing.seen = here'.toList.map Pairing.seen := by
    cases here <;> cases here' <;> simp_all
  simp only [Edge.folded, Move.skipped, h.dest.jumped, h.src.jumped, List.map_append, hhere]

theorem Place.Alike.stays {p q : Place α} (h : p.Alike q) :
    List.Forall₂ Move.Alike p.stays q.stays := by
  cases h with
  | past i => exact .nil
  | on h =>
    simp only [Place.stays, h.matched.hasMore]
    split
    · exact .cons ⟨rfl, .on h.matched⟩ .nil
    · exact .nil

theorem Place.Alike.departures {p q : Place α} (h : p.Alike q) :
    List.Forall₂ Move.Alike p.departures q.departures := by
  cases h with
  | past i => exact .nil
  | on h => exact List.forall₂_same.2 fun m _ => .refl m

theorem Place.Alike.moves {p q : Place α} (h : p.Alike q) :
    List.Forall₂ Move.Alike p.moves q.moves :=
  List.rel_append h.stays h.departures

theorem alike_pairs {xs xs' : List (Move δ)} {ys ys' : List (Move σ)}
    (hx : List.Forall₂ Move.Alike xs xs') (hy : List.Forall₂ Move.Alike ys ys') :
    List.Forall₂ Edge.Alike (pairs xs ys) (pairs xs' ys') :=
  List.rel_flatMap hx fun _ _ hm => List.rel_map (fun _ _ hn => ⟨hm, hn⟩) hy

namespace State.Alike

variable {s t : State δ σ}

theorem outlook (h : s.Alike t) : s.outlook = t.outlook := by
  cases h with
  | start ds ss => rfl
  | on hp hq =>
    cases hp with
    | past i =>
      cases hq with
      | past j => rfl
      | on hb => simp only [State.outlook, hb.isSkippable]
    | on ha =>
      cases hq with
      | past j => simp only [State.outlook, ha.isSkippable]
      | on hb => rfl

theorem pairing (h : s.Alike t) : s.pairing?.map Pairing.seen = t.pairing?.map Pairing.seen := by
  cases h with
  | start ds ss => rfl
  | on hp hq =>
    cases hp with
    | past i =>
      cases hq with
      | past j => rfl
      | on hb => simp [State.pairing?, Pairing.seen, Pairing.srcOnly, hb.seen]
    | on ha =>
      cases hq with
      | past j => simp [State.pairing?, Pairing.seen, Pairing.destOnly, ha.seen]
      | on hb => simp [State.pairing?, Pairing.seen, Pairing.both, ha.seen, hb.seen]

theorem edges (h : s.Alike t) : List.Forall₂ Edge.Alike s.edges t.edges := by
  cases h with
  | start ds ss => exact List.forall₂_same.2 fun e _ => .refl e
  | on hp hq =>
    cases hp with
    | past i =>
      cases hq with
      | past j => exact .nil
      | on hb =>
        simp only [State.edges, State.forks, hb.isSkippable]
        exact List.forall₂_same.2 fun e _ => .refl e
    | on ha =>
      cases hq with
      | past j =>
        simp only [State.edges, State.forks, ha.isSkippable]
        exact List.forall₂_same.2 fun e _ => .refl e
      | on hb =>
        rw [State.edges_inside, State.edges_inside]
        exact List.rel_append (alike_pairs (Place.Alike.on ha).stays (Place.Alike.on hb).departures)
          (alike_pairs (Place.Alike.on ha).departures (Place.Alike.on hb).moves)

end State.Alike

/-- The count that a key keeps of a place. -/
theorem Place.Of.alike {ts : List (Tracker α)} {p q : Place α} (hp : p.Of ts) (hq : q.Of ts)
    (hindex : p.index = q.index)
    (hcount : (p.tracker?.map Tracker.boundedCount).getD 0 =
      (q.tracker?.map Tracker.boundedCount).getD 0) : p.Alike q := by
  cases hp with
  | past =>
    cases hq with
    | past => exact .past _
    | on c ht =>
      have := (List.getElem?_eq_some_iff.1 ht).1
      simp only at hindex
      omega
  | on c ht =>
    cases hq with
    | past =>
      have := (List.getElem?_eq_some_iff.1 ht).1
      simp only at hindex
      omega
    | on c' ht' =>
      simp only at hindex
      subst hindex
      cases ht.symm.trans ht'
      exact .on ⟨rfl, hcount⟩

theorem alike_of_key_eq {ds : List (Tracker δ)} {ss : List (Tracker σ)} {s t : State δ σ}
    (hs : s.Fits ds ss) (ht : t.Fits ds ss) {a b : UInt64} (h : s.key a = t.key b) :
    s.Alike t ∧ a = b := by
  simp only [State.key, Key.mk.injEq] at h
  obtain ⟨hdest, hsrc, hdestCount, hsrcCount, hdigest⟩ := h
  refine ⟨?_, hdigest⟩
  cases hs with
  | start =>
    cases ht with
    | start => exact .start ds ss
    | on hp hq =>
      simp only [State.destIndex] at hdest
      omega
  | on hp hq =>
    cases ht with
    | start =>
      simp only [State.destIndex] at hdest
      omega
    | on hp' hq' =>
      exact .on (hp.alike hp' (Int.ofNat.inj hdest) hdestCount)
        (hq.alike hq' (Int.ofNat.inj hsrc) hsrcCount)

section Walks

variable {S : Strategy (Except ε) δ σ ρ} {initial v w : ρ} {s t : State δ σ}

theorem alike_links (hS : S.DigestsFuture initial) (hv : S.SameDigest initial v w)
    (h : s.Alike t) :
    Together
      (List.Forall₂ fun l l' => l.1.Alike l'.1 ∧ l.2.map Pairing.seen = l'.2.map Pairing.seen)
      (S.graph.links v s) (S.graph.links w t) := by
  have hedges : List.Forall₂
      (fun l l' : State δ σ × List (Pairing δ σ) =>
        l.1.Alike l'.1 ∧ l.2.map Pairing.seen = l'.2.map Pairing.seen)
      (s.edges.map fun e => (e.target, e.folded s.pairing?))
      (t.edges.map fun e => (e.target, e.folded t.pairing?)) :=
    List.rel_map (fun _ _ he => ⟨he.target, he.folded h.pairing⟩) h.edges
  simp only [Strategy.graph, h.outlook]
  split
  · refine (hS.opens hv h.pairing).bind ?_
    rintro b _ rfl
    split
    · exact .done hedges
    · exact .done .nil
  · exact .done .nil

theorem getElem?_of_forall₂ {β : Type} {R : α → β → Prop} {xs : List α} {ys : List β} {a : α}
    {k : Nat} (h : List.Forall₂ R xs ys) (ha : xs[k]? = some a) : ∃ b, ys[k]? = some b ∧ R a b := by
  obtain ⟨hlen, hget⟩ := List.forall₂_iff_get.1 h
  obtain ⟨hk, rfl⟩ := List.getElem?_eq_some_iff.1 ha
  exact ⟨ys[k], List.getElem?_eq_getElem (hlen ▸ hk), hget k hk (hlen ▸ hk)⟩

theorem exists_decided (hS : S.DigestsFuture initial) {ks : List Nat} {r : Except ε ρ}
    (hd : Decided S S.graph s v ks r) (hv : S.SameDigest initial v w) (h : s.Alike t) :
    ∃ r', Decided S S.graph t w ks r' := by
  induction hd generalizing t w with
  | ended he => exact ⟨_, .ended (h.outlook.symm.trans he)⟩
  | unanswered hls =>
    have hlinks := alike_links hS hv h
    rw [hls] at hlinks
    obtain ⟨g, hls'⟩ := hlinks.of_error
    exact ⟨_, .unanswered hls'⟩
  | unfolded hls hk hf =>
    have hlinks := alike_links hS hv h
    rw [hls] at hlinks
    obtain ⟨ls', hls', hall⟩ := hlinks.of_ok
    obtain ⟨l', hk', _, hps⟩ := getElem?_of_forall₂ hall hk
    have hfold := hS.foldAll hps hv
    rw [hf] at hfold
    obtain ⟨g, hf'⟩ := hfold.of_error
    exact ⟨_, .unfolded hls' hk' hf'⟩
  | link hls hk hf _ ih =>
    have hlinks := alike_links hS hv h
    rw [hls] at hlinks
    obtain ⟨ls', hls', hall⟩ := hlinks.of_ok
    obtain ⟨l', hk', htarget, hps⟩ := getElem?_of_forall₂ hall hk
    have hfold := hS.foldAll hps hv
    rw [hf] at hfold
    obtain ⟨w', hf', hw'⟩ := hfold.of_ok
    obtain ⟨r', hr'⟩ := ih hw' htarget
    exact ⟨r', .link hls' hk' hf' hr'⟩

end Walks

end SeqAlign
