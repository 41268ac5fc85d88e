import SeqAlign.Proofs.Alike
import SeqAlign.Proofs.Books
import SeqAlign.Search.Alignment
import SeqAlign.Strategy.Budget

/-!
# SeqAlign.Proofs.DeadEnds

To remember dead ends changes nothing but the effort.

* `Known`: no walk starts at a state whose key is in the table.
* `Ledger.Within`: books of a search that remembers, beside those of one that does not.
* `Run.exists_memoized`: beside every run that does not remember dead ends, and that no limit cuts
  short, there is one that remembers them and ends in the same way.
* `sameEnd_memoized`: so the search ends in the same way, if the digest decides about the future.
* `existence_digestsFuture` and its like: the digests of these strategies do.
* `search_memoize`: both together.
-/

namespace SeqAlign

variable {ε δ σ ρ : Type}

def Known (S : Strategy (Except ε) δ σ ρ) (ds : List (Tracker δ)) (ss : List (Tracker σ))
    (initial : ρ) (l : Ledger) : Prop :=
  ∀ s v, s.Fits ds ss → S.Derives initial v →
    l.deadEnds.contains (s.key (S.digest v)) = true → ∀ ks r, ¬ Decided S S.graph s v ks r

section Known

variable {S : Strategy (Except ε) δ σ ρ} {ds : List (Tracker δ)} {ss : List (Tracker σ)}
  {initial v : ρ} {l : Ledger} {s : State δ σ}

theorem known_blank : Known S ds ss initial .blank := by
  intro s v _ _ h
  simp [Ledger.blank] at h

/-- A state without walks may be remembered, since all states with its key have none. -/
theorem Known.remember (hS : S.DigestsFuture initial) (hl : Known S ds ss initial l)
    (hs : s.Fits ds ss) (hv : S.Derives initial v) (hdead : ∀ ks r, ¬ Decided S S.graph s v ks r) :
    Known S ds ss initial (l.remember (s.key (S.digest v))) := by
  intro t w ht hw hmem ks r hd
  simp only [Ledger.remember, Std.HashSet.contains_insert, Bool.or_eq_true, beq_iff_eq] at hmem
  rcases hmem with hkey | hmem
  · -- a walk from there would be one from `s`, which has none
    obtain ⟨halike, hdigest⟩ := alike_of_key_eq ht hs hkey.symm
    obtain ⟨r', hr'⟩ := exists_decided hS hd ⟨hw, hv, hdigest⟩ halike
    exact hdead ks r' hr'
  · exact hl t w ht hw hmem ks r hd

end Known

/-! ## A run beside a run -/

/-- No more steps and no deeper walks, and no limit reached. -/
structure Ledger.Within (m l : Ledger) : Prop where
  steps : m.steps ≤ l.steps
  maxDepth : m.maxDepth ≤ l.maxDepth
  limitReached : m.limitReached = false

theorem Ledger.Within.enter {m l : Ledger} (h : m.Within l) (d : Nat) :
    (m.enter d).Within (l.enter d) where
  steps := Nat.succ_le_succ h.steps
  maxDepth := by
    have := h.maxDepth
    simp only [Ledger.enter]
    omega
  limitReached := h.limitReached

theorem Ledger.Within.isExceeded {m l : Ledger} (h : m.Within l) {o : Options} {d : Nat}
    (hx : o.isExceeded l d = false) : o.isExceeded m d = false := by
  have := h.steps
  simp only [Options.isExceeded, decide_eq_false_iff_not] at hx ⊢
  omega

/-- The states of a task lie between the two sequences, and its value is derived. -/
def Task.Fits (S : Strategy (Except ε) δ σ ρ) (ds : List (Tracker δ)) (ss : List (Tracker σ))
    (initial : ρ) : Task δ σ ρ → Prop
  | .visit s v _ => s.Fits ds ss ∧ S.Derives initial v
  | .explore s v _ => s.Fits ds ss ∧ S.Derives initial v
  | .attempt _ v _ es => (∀ e ∈ es, e.target.Fits ds ss) ∧ S.Derives initial v

/-- The same answer or the same failure; the books after it are within those of the other run, and
their table is right. -/
inductive Agree (S : Strategy (Except ε) δ σ ρ) (ds : List (Tracker δ)) (ss : List (Tracker σ))
    (initial : ρ) : Answer ε ρ → Answer ε ρ → Prop where
  | failed (f : ε) : Agree S ds ss initial (.error f) (.error f)
  | answered (u : Option ρ) {m l : Ledger} :
      m.Within l → Known S ds ss initial m → Agree S ds ss initial (.ok (u, l)) (.ok (u, m))

def Answer.Unlimited : Answer ε ρ → Prop
  | .error _ => True
  | .ok (_, l) => l.limitReached = false

theorem map_settle_plain (o : Options) (key : Key) (r : Answer ε ρ) :
    r.map (Ledger.settle { o with memoize := false } key) = r := by
  cases r <;> simp [Except.map, Ledger.settle]

section Beside

variable {S : Strategy (Except ε) δ σ ρ} {ds : List (Tracker δ)} {ss : List (Tracker σ)}
  {initial : ρ} {o : Options}

theorem Run.agree_known {s : State δ σ} {v : ρ} {d : Nat} {l m : Ledger} {log : Log δ σ ρ}
    {r : Answer ε ρ} (h : Run S { o with memoize := false } (.explore s v d) l log r)
    (hm : m.Within l) (hknown : Known S ds ss initial m)
    (hdead : ∀ ks r, ¬ Decided S S.graph s v ks r) :
    Agree S ds ss initial r (.ok (none, m.hit)) := by
  have hfinds := h.decided
  match r, h, hfinds with
  | .error f, _, ⟨ks, hks⟩ => exact absurd hks (hdead ks _)
  | .ok (some w, l'), _, ⟨ks, hks⟩ => exact absurd hks (hdead ks _)
  | .ok (none, l'), h, _ =>
    have hgrows := h.grows
    exact .answered none
      ⟨Nat.le_trans hm.steps hgrows.steps, Nat.le_trans hm.maxDepth hgrows.maxDepth,
        hm.limitReached⟩
      hknown

theorem Run.agree_settle (hS : S.DigestsFuture initial) {s : State δ σ} {v : ρ} {d : Nat}
    {l : Ledger} {log : Log δ σ ρ} {r r' : Answer ε ρ}
    (h : Run S { o with memoize := false } (.explore s v d) l log r) (hs : s.Fits ds ss)
    (hv : S.Derives initial v) (hr : r.Unlimited) (hagree : Agree S ds ss initial r r') :
    Agree S ds ss initial r
      (r'.map (Ledger.settle { o with memoize := true } (s.key (S.digest v)))) := by
  have hfirst := h.isFirst rfl
  cases hagree with
  | failed f => exact .failed f
  | @answered u m l' hm hknown =>
    cases u with
    | some w => exact .answered _ hm hknown
    | none =>
      simp only [Except.map, Ledger.settle, Option.isNone_none, hm.limitReached,
        Bool.false_eq_true, not_false_eq_true, and_self, if_true]
      exact .answered none ⟨hm.steps, hm.maxDepth, hm.limitReached⟩
        (hknown.remember hS hs hv (hfirst hr))

theorem Run.exists_memoized (hS : S.DigestsFuture initial) {task : Task δ σ ρ} {l : Ledger}
    {log : Log δ σ ρ} {r : Answer ε ρ} (h : Run S { o with memoize := false } task l log r)
    (hfits : task.Fits S ds ss initial) (hr : r.Unlimited) {m : Ledger} (hm : m.Within l)
    (hknown : Known S ds ss initial m) :
    ∃ log' r', Run S { o with memoize := true } task m log' r' ∧ Agree S ds ss initial r r' := by
  -- the run that remembers follows the other one step by step, except where it meets a key of the
  -- table
  induction h generalizing m with
  | abandoned => cases hr
  | known _ hmemo => cases hmemo
  | @explored s v d l log r hx _ hrun ih =>
    rw [map_settle_plain] at hr ⊢
    have hx' := (hm.enter d).isExceeded hx
    cases hkey : (m.enter d).deadEnds.contains (s.key (S.digest v)) with
    | true =>
      exact ⟨_, _, .known hx' rfl hkey,
        hrun.agree_known (hm.enter d) hknown (hknown s v hfits.1 hfits.2 hkey)⟩
    | false =>
      obtain ⟨log', r', hrun', hagree⟩ := ih hfits hr (hm.enter d) hknown
      exact ⟨_, _, .explored hx' (by simp [hkey]) hrun',
        hrun.agree_settle hS hfits.1 hfits.2 hr hagree⟩
  | finished ho => exact ⟨_, _, .finished ho, .answered _ hm hknown⟩
  | blocked ho => exact ⟨_, _, .blocked ho, .answered _ hm hknown⟩
  | unanswered ho hp => exact ⟨_, _, .unanswered ho hp, .failed _⟩
  | refused ho hp => exact ⟨_, _, .refused ho hp, .answered _ hm hknown⟩
  | proceeded ho hp _ ih =>
    obtain ⟨log', r', hrun', hagree⟩ :=
      ih ⟨fun e he => State.fits_target hfits.1 he, hfits.2⟩ hr hm hknown
    exact ⟨_, _, .proceeded ho hp hrun', hagree⟩
  | noneLeft => exact ⟨_, _, .noneLeft, .answered _ hm hknown⟩
  | halted hl => cases hl.symm.trans hr
  | unfolded _ hf => exact ⟨_, _, .unfolded hm.limitReached hf, .failed _⟩
  | failed _ hf _ ih =>
    obtain ⟨log', r', hrun', hagree⟩ :=
      ih ⟨hfits.1 _ List.mem_cons_self, hfits.2.foldAll hf⟩ hr hm hknown
    cases hagree
    exact ⟨_, _, .failed hm.limitReached hf hrun', .failed _⟩
  | found _ hf _ ih =>
    obtain ⟨log', r', hrun', hagree⟩ :=
      ih ⟨hfits.1 _ List.mem_cons_self, hfits.2.foldAll hf⟩ hr hm hknown
    cases hagree with
    | answered _ hm' hknown' =>
      exact ⟨_, _, .found hm.limitReached hf hrun', .answered _ hm' hknown'⟩
  | @passed here v w d l l' e es log log' r _ hf _ hrest ih ih' =>
    -- had a limit been reached on the first edge, the run would have ended there
    have hl' : l'.limitReached = false := by
      cases hl' : l'.limitReached with
      | false => rfl
      | true =>
        rw [(hrest.attempt_of_limitReached hl').2] at hr
        exact hl'.symm.trans hr
    obtain ⟨log₁, r₁, hrun₁, hagree⟩ :=
      ih ⟨hfits.1 _ List.mem_cons_self, hfits.2.foldAll hf⟩ hl' hm hknown
    cases hagree with
    | answered _ hm' hknown' =>
      obtain ⟨log₂, r₂, hrun₂, hagree₂⟩ :=
        ih' ⟨fun e' he' => hfits.1 e' (List.mem_cons_of_mem _ he'), hfits.2⟩ hr hm' hknown'
      exact ⟨_, _, .passed hm.limitReached hf hrun₁ hrun₂, hagree₂⟩

end Beside

/-- The second search ends as the first one does, and takes no more effort. -/
inductive SameEnd : Except ε (Outcome ρ) → Except ε (Outcome ρ) → Prop where
  | failed (f : ε) : SameEnd (.error f) (.error f)
  | answered {a b : Outcome ρ} :
      b.found = a.found → b.stats.limitReached = false → b.stats.steps ≤ a.stats.steps →
      b.stats.maxDepth ≤ a.stats.maxDepth → SameEnd (.ok a) (.ok b)

theorem sameEnd_memoized {S : Strategy (Except ε) δ σ ρ} {initial : ρ}
    (hS : S.DigestsFuture initial) (o : Options) (dest : List (Tracker δ)) (src : List (Tracker σ))
    (hplain : ∀ a, search S { o with memoize := false } .silent dest src initial = .ok a →
      a.stats.limitReached = false) :
    SameEnd (search S { o with memoize := false } .silent dest src initial)
      (search S { o with memoize := true } .silent dest src initial) := by
  obtain ⟨log, r, h⟩ := exists_run (S := S) (o := { o with memoize := false })
    (.start dest src) initial 0 .blank
  rw [search_silent h] at hplain ⊢
  have hr : r.Unlimited := by
    cases r with
    | error f => trivial
    | ok a => exact hplain _ rfl
  obtain ⟨log', r', h', hagree⟩ := h.exists_memoized hS ⟨.start, .initial⟩ hr
    (m := .blank) ⟨Nat.le_refl _, Nat.le_refl _, rfl⟩ known_blank
  rw [search_silent h']
  cases hagree with
  | failed f => exact .failed f
  | answered u hm _ => exact .answered rfl hm.limitReached hm.steps hm.maxDepth

theorem Together.refl {α : Type} {R : α → α → Prop} (hR : ∀ a, R a a) (x : Except ε α) :
    Together R x x := by
  cases x with
  | error f => exact .failed f f
  | ok a => exact .done (hR a)

theorem corresponds_congr (relation : δ → σ → Except ε Bool) {p q : Pairing δ σ}
    (h : p.seen = q.seen) : p.corresponds relation = q.corresponds relation := by
  obtain ⟨d, s⟩ := p
  obtain ⟨d', s'⟩ := q
  simp only [Pairing.seen, Prod.mk.injEq] at h
  cases d <;> cases d' <;> cases s <;> cases s' <;>
    simp_all [Pairing.corresponds, Tracker.seen, Tracker.isSkippable, Tracker.label, Tracker.item]

theorem extend_congr (groups : List (Group δ σ)) {p q : Pairing δ σ} (h : p.seen = q.seen) :
    Group.extend groups p = Group.extend groups q := by
  obtain ⟨d, s⟩ := p
  obtain ⟨d', s'⟩ := q
  simp only [Pairing.seen, Prod.mk.injEq] at h
  cases d <;> cases d' <;> cases s <;> cases s' <;> simp_all [Group.extend, Tracker.seen]

theorem ofPairing_congr {γ : Type} (merge : Merge (Except ε) δ σ γ) {p q : Pairing δ σ}
    (h : p.seen = q.seen) : merge.ofPairing p = merge.ofPairing q := by
  obtain ⟨d, s⟩ := p
  obtain ⟨d', s'⟩ := q
  simp only [Pairing.seen, Prod.mk.injEq] at h
  cases d <;> cases d' <;> cases s <;> cases s' <;>
    simp_all [Merge.ofPairing, Tracker.seen, Tracker.item]

theorem isBoth_congr {p q : Pairing δ σ} (h : p.seen = q.seen) : p.isBoth = q.isBoth := by
  have hd := congrArg Option.isSome (congrArg Prod.fst h)
  have hs := congrArg Option.isSome (congrArg Prod.snd h)
  simp only [Pairing.seen, Option.isSome_map] at hd hs
  rw [Pairing.isBoth, Pairing.isBoth, hd, hs]

theorem existence_digestsFuture (relation : δ → σ → Except ε Bool) (initial : Bool) :
    (existence relation).DigestsFuture initial where
  admits_seen _ _ _ _ h := corresponds_congr relation h
  fold_seen v p q _ h := by simp only [existence, corresponds_congr relation h]
  admits_digest _ _ _ _ _ _ := .refl (fun _ => rfl) _
  fold_digest v w p _ _ _ := by
    refine (Together.refl (fun _ => rfl) (p.corresponds relation)).bind ?_
    rintro b _ rfl
    cases b <;> exact .done rfl

theorem grouping_digestsFuture (relation : δ → σ → Except ε Bool) (destText : δ → String)
    (srcText : σ → String) (initial : List (Group δ σ)) :
    (grouping relation destText srcText).DigestsFuture initial where
  admits_seen _ _ _ _ h := corresponds_congr relation h
  fold_seen v _ _ _ h := congrArg pure (extend_congr v h)
  admits_digest _ _ _ _ _ _ := .refl (fun _ => rfl) _
  fold_digest _ _ _ _ _ _ := .done rfl

theorem commonSequence_digestsFuture {γ : Type} [DecidableEq γ] (merge : Merge (Except ε) δ σ γ)
    (text : γ → String) (initial : List (Item γ)) :
    (commonSequence merge text).DigestsFuture initial where
  admits_seen _ _ _ _ h := by simp only [commonSequence, ofPairing_congr merge h]
  fold_seen _ _ _ _ h := by simp only [commonSequence, ofPairing_congr merge h]
  admits_digest _ _ _ _ _ _ := .refl (fun _ => rfl) _
  fold_digest v w p _ _ _ := by
    refine (Together.refl (fun _ => rfl) (merge.ofPairing p)).bind ?_
    rintro item _ rfl
    cases item <;> exact .done rfl

/-- With the number of pairings spent as its digest, a budget may be remembered. -/
theorem budget_digestsFuture (relation : δ → σ → Except ε Bool) (limit initial : UInt64) :
    (budget relation limit true).DigestsFuture initial where
  admits_seen _ _ _ _ h := by simp only [budget, corresponds_congr relation h, isBoth_congr h]
  fold_seen _ _ _ _ h := by simp only [budget, isBoth_congr h]
  admits_digest v w _ _ _ h := by
    obtain rfl : v = w := h
    exact .refl (fun _ => rfl) _
  fold_digest v w _ _ _ h := by
    obtain rfl : v = w := h
    exact .refl (fun _ => rfl) _

/-- To remember dead ends never changes how a search ends, as long as the digest decides about the
future; and it does so in the strategies for existence, groups and common sequences. -/
theorem search_memoize {ε δ σ : Type} :
    (∀ {ρ : Type} (S : Strategy (Except ε) δ σ ρ) (initial : ρ) (o : Options)
        (dest : List (Tracker δ)) (src : List (Tracker σ)), S.DigestsFuture initial →
      (∀ a, search S { o with memoize := false } .silent dest src initial = .ok a →
        a.stats.limitReached = false) →
      SameEnd (search S { o with memoize := false } .silent dest src initial)
        (search S { o with memoize := true } .silent dest src initial)) ∧
    (∀ (relation : δ → σ → Except ε Bool) (initial : Bool),
      (existence relation).DigestsFuture initial) ∧
    (∀ (relation : δ → σ → Except ε Bool) (destText : δ → String) (srcText : σ → String)
        (initial : List (Group δ σ)),
      (grouping relation destText srcText).DigestsFuture initial) ∧
    ∀ {γ : Type} [DecidableEq γ] (merge : Merge (Except ε) δ σ γ) (text : γ → String)
        (initial : List (Item γ)),
      (commonSequence merge text).DigestsFuture initial := by
  refine ⟨?_, existence_digestsFuture, grouping_digestsFuture, commonSequence_digestsFuture⟩
  intro ρ S initial o dest src hS hplain
  exact sameEnd_memoized hS o dest src hplain

/-- Trackers of items with these labels, each any number of times, and of one that occurs once. -/
def looseTrackers (labels : List Nat) (last : Nat) : List (Tracker Nat) :=
  freshTrackers (labels.map (fun n => ⟨n, .zeroOrMore⟩) ++ [.single last])

def fourEqual : Strategy (Except Empty) Nat Nat UInt64 :=
  budget (fun a b => pure (a == b)) 4 true

/-- Two sequences without an alignment, within a limit on the steps. -/
theorem search_memoize_fourEqual :
    SameEnd
      (search fourEqual { stepLimit := 100 } .silent (looseTrackers [1, 1] 2)
        (looseTrackers [1, 1] 3) 0)
      (search fourEqual { stepLimit := 100, memoize := true } .silent (looseTrackers [1, 1] 2)
        (looseTrackers [1, 1] 3) 0) := by
  have hlimit : (search fourEqual { stepLimit := 100 } .silent (looseTrackers [1, 1] 2)
      (looseTrackers [1, 1] 3) 0).map (fun a => a.stats.limitReached) = .ok false := by
    decide +kernel
  refine search_memoize.1 fourEqual 0 { stepLimit := 100 } _ _ (budget_digestsFuture _ 4 0) ?_
  intro a ha
  rw [ha] at hlimit
  exact Except.ok.inj hlimit

end SeqAlign
