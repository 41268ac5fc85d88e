import SeqAlign.Proofs.Track
import SeqAlign.Search.Alignment

/-!
# SeqAlign.Proofs.Effects

Searches in two monads, with operations that do the same but for their effects.

* `Lockstep m n`: a relation between the computations of two monads that goes through `pure` and
  `bind`. A program that is written once for all monads goes in lockstep with itself.
* `Strategy.InStep`: the operations of two strategies go in lockstep on the pairings of two
  sequences. Then so does a visit (`lockstep_visit`), and with it a whole search
  (`lockstep_search`).
* `lockstep_hasAlignment`, `lockstep_alignedGroups`: so it is enough to look at the relation, and
  only at the labels of the two sequences.
* `Lockstep.dropState`, `Lockstep.mapState`: a computation with a state that nothing depends on, and
  computations whose states are images of each other.
-/

namespace SeqAlign

/-- Relates computations that take the same steps, but for the effects. -/
structure Lockstep (m n : Type → Type) [Monad m] [Monad n] where
  rel : {α : Type} → m α → n α → Prop
  rel_pure : ∀ {α : Type} (a : α), rel (pure a : m α) (pure a)
  rel_bind : ∀ {α β : Type} {x : m α} {y : n α} {f : α → m β} {g : α → n β},
    rel x y → (∀ a, rel (f a) (g a)) → rel (x >>= f) (y >>= g)

variable {m n : Type → Type} [Monad m] [Monad n] {δ σ ρ : Type}

/-- The operations of the two strategies are related, on pairings of the two sequences. -/
structure Strategy.InStep (R : Lockstep m n) (ds : List (Tracker δ)) (ss : List (Tracker σ))
    (S : Strategy m δ σ ρ) (T : Strategy n δ σ ρ) : Prop where
  digest : ∀ v, S.digest v = T.digest v
  admits : ∀ v q, q.Of ds ss → R.rel (S.admits v q) (T.admits v q)
  fold : ∀ v q, q.Of ds ss → R.rel (S.fold v q) (T.fold v q)

section Search

variable {R : Lockstep m n} {ds : List (Tracker δ)} {ss : List (Tracker σ)}
  {S : Strategy m δ σ ρ} {T : Strategy n δ σ ρ}

theorem lockstep_firstOf {β : Type} {f : β → Ledger → m (Option ρ × Ledger)}
    {g : β → Ledger → n (Option ρ × Ledger)} {es : List β}
    (h : ∀ e ∈ es, ∀ l, R.rel (f e l) (g e l)) (l : Ledger) :
    R.rel (firstOf f es l) (firstOf g es l) := by
  induction es generalizing l with
  | nil => exact R.rel_pure _
  | cons e es ih =>
    rw [firstOf, firstOf]
    split
    · exact R.rel_pure _
    · refine R.rel_bind (h e List.mem_cons_self l) fun r => ?_
      split
      · exact R.rel_pure _
      · exact ih (fun e' he' => h e' (List.mem_cons_of_mem e he')) r.2

theorem Strategy.InStep.foldAll (h : S.InStep R ds ss T) {qs : List (Pairing δ σ)}
    (hqs : ∀ q ∈ qs, q.Of ds ss) (v : ρ) : R.rel (S.foldAll v qs) (T.foldAll v qs) := by
  induction qs generalizing v with
  | nil => exact R.rel_pure v
  | cons q qs ih =>
    rw [Strategy.foldAll, Strategy.foldAll, List.foldlM_cons, List.foldlM_cons]
    exact R.rel_bind (h.fold v q (hqs q List.mem_cons_self))
      fun w => ih (fun q' hq' => hqs q' (List.mem_cons_of_mem q hq')) w

theorem Strategy.InStep.opens (h : S.InStep R ds ss T) {here : Option (Pairing δ σ)}
    (hhere : ∀ q ∈ here, q.Of ds ss) (v : ρ) : R.rel (S.opens v here) (T.opens v here) := by
  cases here with
  | none => exact R.rel_pure true
  | some q => exact h.admits v q (hhere q rfl)

variable [LawfulMonad m] [LawfulMonad n] {o : Options} {t : Tracer m δ σ ρ} {u : Tracer n δ σ ρ}

theorem lockstep_expand (h : S.InStep R ds ss T) (ht : ∀ d e, R.rel (t d e) (u d e))
    {s : State δ σ} (hs : s.Fits ds ss) {f : Edge δ σ → ρ → Ledger → m (Option ρ × Ledger)}
    {g : Edge δ σ → ρ → Ledger → n (Option ρ × Ledger)}
    (hfollow : ∀ e ∈ s.edges, ∀ v l, R.rel (f e v l) (g e v l)) (d : Nat) (v : ρ) (l : Ledger) :
    R.rel (expand S t d v l s fun e _ => f e) (expand T u d v l s fun e _ => g e) := by
  cases ho : s.outlook with
  | finished =>
    simp only [expand, ho]
    exact R.rel_bind (ht d _) fun _ => R.rel_pure _
  | blocked ended =>
    simp only [expand, ho]
    exact R.rel_bind (ht d _) fun _ => R.rel_pure _
  | onward phase =>
    rw [expand_onward S t d v l s ho, expand_onward T u d v l s ho]
    refine R.rel_bind (h.opens (fun q => hs.pairing) v) fun b => ?_
    split
    · refine R.rel_bind (ht d _) fun _ => R.rel_bind (lockstep_firstOf ?_ l) fun r => ?_
      · intro e he l
        exact R.rel_bind (h.foldAll (fun q => hs.folded he) v) fun w => hfollow e he w l
      · split
        · exact R.rel_bind (ht d _) fun _ => R.rel_pure r
        · exact R.rel_pure r
    · exact R.rel_bind (ht d _) fun _ => R.rel_pure _

theorem lockstep_visit (h : S.InStep R ds ss T) (ht : ∀ d e, R.rel (t d e) (u d e))
    {s : State δ σ} (hs : s.Fits ds ss) (v : ρ) (d : Nat) (l : Ledger) :
    R.rel (visit S o t s v d l) (visit T o u s v d l) := by
  -- by induction on the rank of the state
  induction hn : s.rank using Nat.strongRecOn generalizing s v d l with
  | ind n ih =>
    rw [visit_eq, visit_eq, h.digest]
    split
    · exact R.rel_bind (ht d _) fun _ => R.rel_pure _
    · refine R.rel_bind (ht d _) fun _ => ?_
      split
      · exact R.rel_bind (ht d _) fun _ => R.rel_pure _
      · refine R.rel_bind (lockstep_expand h ht hs ?_ d v _) fun r => R.rel_pure _
        intro e he w l
        exact ih e.target.rank (hn ▸ State.rank_target_lt he) (State.fits_target hs he) w (d + 1) l
          rfl

theorem lockstep_search (h : S.InStep R ds ss T) (ht : ∀ d e, R.rel (t d e) (u d e)) (v : ρ) :
    R.rel (search S o t ds ss v) (search T o u ds ss v) :=
  R.rel_bind (ht 0 _) fun _ => R.rel_bind (lockstep_visit h ht .start v 0 .blank) fun _ =>
    R.rel_bind (ht 0 _) fun _ => R.rel_pure _

end Search

section Relation

variable {R : Lockstep m n} {dest : List (Item δ)} {src : List (Item σ)} {f : δ → σ → m Bool}
  {g : δ → σ → n Bool}

theorem lockstep_corresponds
    (h : ∀ d ∈ dest, ∀ s ∈ src, R.rel (f d.label s.label) (g d.label s.label)) {q : Pairing δ σ}
    (hq : q.Of (freshTrackers dest) (freshTrackers src)) :
    R.rel (q.corresponds f) (q.corresponds g) := by
  match q, hq with
  | ⟨none, none⟩, _ => exact R.rel_pure true
  | ⟨none, some s⟩, _ => exact R.rel_pure _
  | ⟨some d, none⟩, _ => exact R.rel_pure _
  | ⟨some d, some s⟩, hq =>
    rw [Pairing.corresponds, Pairing.corresponds]
    split
    · exact h _ (item_mem_of_entry (hq.dest d rfl)) _ (item_mem_of_entry (hq.src s rfl))
    · exact R.rel_pure false

variable [LawfulMonad m] [LawfulMonad n]

theorem lockstep_hasAlignment
    (h : ∀ d ∈ dest, ∀ s ∈ src, R.rel (f d.label s.label) (g d.label s.label)) (o : Options)
    {t : Tracer m δ σ Bool} {u : Tracer n δ σ Bool} (ht : ∀ d e, R.rel (t d e) (u d e)) :
    R.rel (hasAlignment f o t dest src) (hasAlignment g o u dest src) := by
  have hexistence :
      (existence f).InStep R (freshTrackers dest) (freshTrackers src) (existence g) := by
    refine ⟨fun _ => rfl, fun _ _ => lockstep_corresponds h, fun v q hq => ?_⟩
    refine R.rel_bind (lockstep_corresponds h hq) fun b => ?_
    cases b with
    | false => exact R.rel_pure v
    | true => exact R.rel_pure true
  exact R.rel_bind (lockstep_search hexistence ht false) fun _ => R.rel_pure _

theorem lockstep_alignedGroups
    (h : ∀ d ∈ dest, ∀ s ∈ src, R.rel (f d.label s.label) (g d.label s.label))
    (destText : δ → String) (srcText : σ → String) (o : Options)
    {t : Tracer m δ σ (List (Group δ σ))} {u : Tracer n δ σ (List (Group δ σ))}
    (ht : ∀ d e, R.rel (t d e) (u d e)) :
    R.rel (alignedGroups f destText srcText o t dest src)
      (alignedGroups g destText srcText o u dest src) := by
  have hgrouping : (grouping f destText srcText).InStep R (freshTrackers dest) (freshTrackers src)
      (grouping g destText srcText) :=
    ⟨fun _ => rfl, fun _ _ => lockstep_corresponds h, fun _ _ _ => R.rel_pure _⟩
  exact lockstep_search hgrouping ht []

end Relation

section State

variable {τ υ : Type}

/-- Without its state, the second computation is the first one. -/
def Lockstep.dropState (n : Type → Type) [Monad n] [LawfulMonad n] (τ : Type) :
    Lockstep n (StateT τ n) where
  rel x y := ∀ s, Prod.fst <$> y.run s = x
  rel_pure a s := by simp
  rel_bind hx hf s := by
    simp only [StateT.run_bind, map_bind, hf, ← hx s, bind_map_left]

/-- Each state of the second computation is the image of that of the first one. -/
def Lockstep.mapState (n : Type → Type) [Monad n] [LawfulMonad n] (image : τ → υ) :
    Lockstep (StateT τ n) (StateT υ n) where
  rel x y := ∀ s, y.run (image s) = (fun r => (r.1, image r.2)) <$> x.run s
  rel_pure a s := by simp
  rel_bind hx hf s := by
    simp only [StateT.run_bind, map_bind, hx s, bind_map_left, hf]

/-- Reports to a listener that does not know of the state. -/
def Tracer.lift (t : Tracer n δ σ ρ) : Tracer (StateT τ n) δ σ ρ := fun d e => liftM (t d e)

variable [LawfulMonad n]

theorem Tracer.lift_dropState (t : Tracer n δ σ ρ) (d : Nat) (e : Event δ σ ρ) :
    (Lockstep.dropState n τ).rel (t d e) (t.lift d e) := by
  intro s
  simp [Tracer.lift]

theorem Tracer.lift_mapState (t : Tracer n δ σ ρ) (image : τ → υ) (d : Nat) (e : Event δ σ ρ) :
    (Lockstep.mapState n image).rel (t.lift d e) (t.lift d e) := by
  intro s
  simp [Tracer.lift]

end State

end SeqAlign
