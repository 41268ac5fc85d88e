import SeqAlign.Proofs.DeadEnds
import SeqAlign.Proofs.Trail

/-!
# SeqAlign.Proofs.Matching

When do two sequences match?

* `ends_start`: along every alignment of two sequences there is a walk that comes to an end, for
  every strategy that asks a relation which always answers.
* `found_memoize`: without limits a search finds the same whether or not it remembers dead ends.
* `isSome_found_iff`: a search without limits finds something if and only if some walk ends,
  whether or not it remembers dead ends.
* `hasAlignment_iff`: two sequences match if and only if there is an alignment of them.
-/

namespace SeqAlign

variable {ε δ σ ρ : Type}

/-- Whatever has been folded so far, some walk from here comes to an end. -/
def Strategy.Ends (S : Strategy (Except ε) δ σ ρ) (s : State δ σ) : Prop :=
  ∀ v, ∃ ks w, Decided S S.graph s v ks (.ok w)

section Ends

variable {S : Strategy (Except Empty) δ σ ρ} {p : δ → σ → Bool}

theorem ends_of_opens {s : State δ σ} {ph : Phase} (ho : s.outlook = .onward ph)
    (hopens : ∀ v, S.opens v s.pairing? = .ok true) {e : Edge δ σ} (he : e ∈ s.edges)
    (h : S.Ends e.target) : S.Ends s := by
  intro v
  obtain ⟨k, hk⟩ := List.mem_iff_getElem?.1 he
  cases hf : S.foldAll v (e.folded s.pairing?) with
  | error f => exact f.elim
  | ok w =>
    obtain ⟨ks, u, hd⟩ := h w
    exact ⟨k :: ks, u,
      (Strategy.decided_iff_branches ho (hopens v) _ _).2 ⟨e, hk, .inr ⟨w, hf, hd⟩⟩⟩

theorem ends_of_edge (hS : S.Asks p) {s : State δ σ} {ph : Phase} (ho : s.outlook = .onward ph)
    (hopen : ∀ q ∈ s.pairing?, q.accepts p = true) {e : Edge δ σ} (he : e ∈ s.edges)
    (h : S.Ends e.target) : S.Ends s :=
  ends_of_opens ho (fun v => (hS.opens v s.pairing?).2 hopen) he h

theorem ends_past_dest (hS : S.Asks p) {i j : Nat} {bs : List (Tracker σ)}
    (hbs : ∀ b ∈ bs, b.isSkippable = true) : S.Ends (.on ⟨i, []⟩ ⟨j, bs⟩) := by
  induction bs generalizing j with
  | nil => exact fun v => ⟨[], v, .ended rfl⟩
  | cons b bs ih =>
    have hb := hbs b List.mem_cons_self
    refine ends_of_edge hS (if_pos hb) ?_
      (State.mem_edges_past_dest.2 ⟨hb, rfl⟩) (ih fun b' hb' => hbs b' (List.mem_cons_of_mem b hb'))
    rintro q ⟨⟩
    exact hb

theorem ends_past_src (hS : S.Asks p) {i j : Nat} {as : List (Tracker δ)}
    (has : ∀ a ∈ as, a.isSkippable = true) : S.Ends (.on ⟨i, as⟩ ⟨j, []⟩) := by
  induction as generalizing i with
  | nil => exact fun v => ⟨[], v, .ended rfl⟩
  | cons a as ih =>
    have ha := has a List.mem_cons_self
    refine ends_of_edge hS (if_pos ha) ?_
      (State.mem_edges_past_src.2 ⟨ha, rfl⟩) (ih fun a' ha' => has a' (List.mem_cons_of_mem a ha'))
    rintro q ⟨⟩
    exact ha

variable {ds : List (Item δ)} {ss : List (Item σ)}

/-- Behind the last pair of an alignment one sequence has ended, and the rest of the other one can
be left over. -/
theorem ends_leftover (hS : S.Asks p) {k l : Nat} (hkl : ds.length ≤ k ∨ ss.length ≤ l)
    (hd : ∀ i item, k ≤ i → ds[i]? = some item → item.quantifier.min = 0)
    (hs : ∀ j item, l ≤ j → ss[j]? = some item → item.quantifier.min = 0) :
    S.Ends (.on ⟨k, (freshTrackers ds).drop k⟩ ⟨l, (freshTrackers ss).drop l⟩) := by
  rcases hkl with hk | hl
  · rw [drop_freshTrackers_eq_nil hk]
    exact ends_past_dest hS fun b hb => isSkippable_of_mem_drop hs hb
  · rw [drop_freshTrackers_eq_nil hl]
    exact ends_past_src hS fun a ha => isSkippable_of_mem_drop hd ha

variable {P Q : List (Nat × Nat)} {i j : Nat} {a : Tracker δ} {as : List (Tracker δ)}
  {b : Tracker σ} {bs : List (Tracker σ)}

theorem Paired.accepts (h : Paired p ds ss ⟨i, a :: as⟩ ⟨j, b :: bs⟩ P)
    (hP : IsAlignment p ds ss (P ++ (i, j) :: Q)) : (Pairing.both a b).accepts p = true := by
  have hdest := hP.dest
  have hsrc := hP.src
  rw [List.map_append, List.map_cons] at hdest hsrc
  obtain ⟨d, s, hd, hs, hrel⟩ := hP.related (i, j) (by simp)
  obtain ⟨d', hd', hda, _⟩ := h.dest.head
  obtain ⟨s', hs', hsb, _⟩ := h.src.head
  cases hd.symm.trans hd'
  cases hs.symm.trans hs'
  simp only [Pairing.accepts, Pairing.both, h.dest.hasMore hdest, h.src.hasMore hsrc, Bool.true_and]
  simpa [Tracker.label, Tracker.item, hda, hsb] using hrel

theorem ends_last (hS : S.Asks p) (h : Paired p ds ss ⟨i, a :: as⟩ ⟨j, b :: bs⟩ P)
    (hP : IsAlignment p ds ss (P ++ [(i, j)])) : S.Ends (.on ⟨i, a :: as⟩ ⟨j, b :: bs⟩) := by
  have hab := h.accepts hP
  have hdest := hP.dest
  have hsrc := hP.src
  have hend := hP.exhausts
  rw [List.map_append] at hdest hsrc
  simp only [Exhausts, List.getLast?_concat] at hend
  obtain ⟨_, _, _, rfl⟩ := h.dest.head
  obtain ⟨_, _, _, rfl⟩ := h.src.head
  refine ends_of_edge hS rfl (by rintro q ⟨⟩; exact hab)
    (e := ⟨⟨[], ⟨i + 1, _⟩⟩, ⟨[], ⟨j + 1, _⟩⟩⟩)
    (State.mem_edges_inside.2
      (.inr ⟨List.mem_cons_self, List.mem_append_right _ List.mem_cons_self⟩))
    (ends_leftover hS ?_ ?_ ?_)
  · omega
  · intro k item hk hitem
    exact h.dest.min_eq_zero hdest hk hitem
  · intro k item hk hitem
    exact h.src.min_eq_zero hsrc hk hitem

theorem Paired.exists_edge (h : Paired p ds ss ⟨i, a :: as⟩ ⟨j, b :: bs⟩ P) {k l : Nat}
    (hP : IsAlignment p ds ss (P ++ (i, j) :: (k, l) :: Q)) :
    ∃ e ∈ (State.on ⟨i, a :: as⟩ ⟨j, b :: bs⟩).edges, ∃ a' as' b' bs',
      e.target = .on ⟨k, a' :: as'⟩ ⟨l, b' :: bs'⟩ ∧
        Paired p ds ss ⟨k, a' :: as'⟩ ⟨l, b' :: bs'⟩ (P ++ [(i, j)]) := by
  have hab := h.accepts hP
  have hdest := hP.dest
  have hsrc := hP.src
  rw [List.map_append, List.map_cons, List.map_cons] at hdest hsrc
  have hforward := (List.pairwise_append.1 hP.pairwise).2.1
  obtain ⟨hij, hkl⟩ := List.pairwise_cons.1 hforward
  obtain ⟨hlater, _⟩ := List.pairwise_cons.1 hkl
  obtain ⟨hik, hjl, hne⟩ := hij (k, l) List.mem_cons_self
  obtain ⟨d, s, hd, hs, _⟩ := hP.related (k, l) (by simp)
  obtain ⟨x, ⟨a', as', hxk⟩, hx⟩ := h.dest.exists_move hik
    (List.forall_mem_map.2 fun z hz => (hlater z hz).1) (List.getElem?_eq_some_iff.1 hd).1 hdest
  obtain ⟨y, ⟨b', bs', hyl⟩, hy⟩ := h.src.exists_move hjl
    (List.forall_mem_map.2 fun z hz => (hlater z hz).2.1) (List.getElem?_eq_some_iff.1 hs).1 hsrc
  have hnext := h.cross hab (List.mem_append.2 (hx.imp And.right And.right))
    (List.mem_append.2 (hy.imp And.right And.right)) (by rw [hxk, hyl]; exact hne)
  refine ⟨⟨x, y⟩, State.mem_edges_inside.2 ?_, a', as', b', bs', ?_, ?_⟩
  · -- one side has to leave, since the pairs differ
    rcases hx with ⟨rfl, hx⟩ | ⟨_, hx⟩
    · rcases hy with ⟨rfl, _⟩ | ⟨_, hy⟩
      · simp at hne
      · exact .inl ⟨hx, hy⟩
    · exact .inr ⟨hx, List.mem_append.2 (hy.imp And.right And.right)⟩
  · rw [Edge.target, hxk, hyl]
  · rw [← hxk, ← hyl]
    exact hnext

theorem ends_paired (hS : S.Asks p) (h : Paired p ds ss ⟨i, a :: as⟩ ⟨j, b :: bs⟩ P)
    (hP : IsAlignment p ds ss (P ++ (i, j) :: Q)) : S.Ends (.on ⟨i, a :: as⟩ ⟨j, b :: bs⟩) := by
  induction Q generalizing P i j a as b bs with
  | nil => exact ends_last hS h hP
  | cons z Q ih =>
    have hab := h.accepts hP
    obtain ⟨e, he, a', as', b', bs', htarget, hnext⟩ := h.exists_edge hP
    refine ends_of_edge hS rfl (by rintro q ⟨⟩; exact hab) he ?_
    rw [htarget]
    refine ih hnext ?_
    rw [List.append_assoc]
    exact hP

theorem exists_edge_start (hP : IsAlignment p ds ss ((i, j) :: P)) :
    ∃ e ∈ (State.start (freshTrackers ds) (freshTrackers ss)).edges, ∃ a as b bs,
      e.target = .on ⟨i, a :: as⟩ ⟨j, b :: bs⟩ ∧
        Paired p ds ss ⟨i, a :: as⟩ ⟨j, b :: bs⟩ [] := by
  have hdest := hP.dest
  have hsrc := hP.src
  rw [List.map_cons] at hdest hsrc
  obtain ⟨hlater, _⟩ := List.pairwise_cons.1 hP.pairwise
  obtain ⟨d, s, hd, hs, _⟩ := hP.related (i, j) List.mem_cons_self
  obtain ⟨x, hx, a, as, hxi⟩ := Track.exists_entry
    (List.forall_mem_map.2 fun z hz => (hlater z hz).1) (List.getElem?_eq_some_iff.1 hd).1 hdest
  obtain ⟨y, hy, b, bs, hyj⟩ := Track.exists_entry
    (List.forall_mem_map.2 fun z hz => (hlater z hz).2.1) (List.getElem?_eq_some_iff.1 hs).1 hsrc
  refine ⟨⟨x, y⟩, State.mem_edges_start.2 ⟨hx, hy⟩, a, as, b, bs, ?_, ?_⟩
  · rw [Edge.target, hxi, hyj]
  · rw [← hxi, ← hyj]
    exact paired_start hx hy

theorem ends_start (hS : S.Asks p) (hP : IsAlignment p ds ss P) :
    S.Ends (.start (freshTrackers ds) (freshTrackers ss)) := by
  cases P with
  | nil =>
    refine ends_of_edge hS rfl (by rintro q ⟨⟩) (e := ⟨⟨[], ⟨0, _⟩⟩, ⟨[], ⟨0, _⟩⟩⟩)
      (State.mem_edges_start.2 ⟨List.mem_cons_self, List.mem_cons_self⟩)
      (ends_leftover hS ?_ ?_ ?_)
    · exact hP.exhausts.imp Nat.le_of_eq Nat.le_of_eq
    · intro i item _ hitem
      exact hP.dest.min_eq_zero hitem List.not_mem_nil
    · intro i item _ hitem
      exact hP.src.min_eq_zero hitem List.not_mem_nil
  | cons z P =>
    obtain ⟨e, he, a, as, b, bs, htarget, hnext⟩ := exists_edge_start hP
    refine ends_of_edge hS rfl (by rintro q ⟨⟩) he ?_
    rw [htarget]
    exact ends_paired hS hnext hP

end Ends

/-! ## Searches that never fail -/

theorem isSome_found_plain_iff (S : Strategy Id δ σ ρ) (t : Tracer Id δ σ ρ)
    (dest : List (Tracker δ)) (src : List (Tracker σ)) (v : ρ) :
    (search S {} t dest src v).found.isSome = true ↔
      ∃ ks w, Decided S.certain S.certain.graph (.start dest src) v ks (.ok w) := by
  obtain ⟨log, u, l, h, hsearch⟩ := exists_run_certain S {} t dest src v
  rw [hsearch]
  cases u with
  | none =>
    have hnone := h.isFirst rfl (h.not_limitReached rfl rfl rfl)
    constructor
    · intro hsome
      cases hsome
    · rintro ⟨ks, w, hd⟩
      exact absurd hd (hnone ks _)
  | some w =>
    obtain ⟨ks, hd⟩ := h.decided
    exact ⟨fun _ => ⟨ks, w, hd⟩, fun _ => rfl⟩

theorem found_memoize (S : Strategy Id δ σ ρ) (b : Bool) (t : Tracer Id δ σ ρ)
    (dest : List (Tracker δ)) (src : List (Tracker σ)) (v : ρ) (hS : S.certain.DigestsFuture v) :
    (search S { memoize := b } t dest src v).found = (search S {} t dest src v).found := by
  cases b with
  | false => rfl
  | true =>
    have hplain (a : Outcome ρ) (ha : search S.certain {} .silent dest src v = .ok a) :
        a.stats.limitReached = false := by
      obtain ⟨log, u, l, h, hsearch⟩ := exists_run_certain S {} t dest src v
      rw [search_certain S {} t, hsearch] at ha
      obtain rfl := Except.ok.inj ha
      exact h.not_limitReached rfl rfl rfl
    have hsame := sameEnd_memoized hS {} dest src hplain
    rw [search_certain S _ t, search_certain S _ t] at hsame
    cases hsame with
    | answered hfound _ _ _ => exact hfound

/-- Without limits, with or without memory of dead ends, a search finds something if and only if
there is something to find. -/
theorem isSome_found_iff (S : Strategy Id δ σ ρ) (b : Bool) (t : Tracer Id δ σ ρ)
    (dest : List (Tracker δ)) (src : List (Tracker σ)) (v : ρ) (hS : S.certain.DigestsFuture v) :
    (search S { memoize := b } t dest src v).found.isSome = true ↔
      ∃ ks w, Decided S.certain S.certain.graph (.start dest src) v ks (.ok w) := by
  rw [found_memoize S b t dest src v hS, isSome_found_plain_iff S t]

section Existence

variable (p : δ → σ → Bool)

theorem existence_fold {m : Type → Type} [Monad m] [LawfulMonad m] (v : Bool) (q : Pairing δ σ) :
    (existence fun d s => (pure (p d s) : m Bool)).fold v q = pure (v || q.accepts p) := by
  simp only [existence, corresponds_pure, pure_bind]
  cases v <;> cases q.accepts p <;> rfl

theorem certain_existence :
    (existence (m := Id) fun d s => pure (p d s)).certain =
      existence (m := Except Empty) fun d s => pure (p d s) := by
  rw [Strategy.certain, Strategy.mk.injEq]
  refine ⟨?_, ?_, rfl, rfl⟩
  · funext v q
    exact (congrArg Except.ok (corresponds_pure (m := Id) p q)).trans
      (corresponds_pure (m := Except Empty) p q).symm
  · funext v q
    exact (congrArg Except.ok (existence_fold (m := Id) p v q)).trans
      (existence_fold (m := Except Empty) p v q).symm

theorem certain_existence_digestsFuture (v : Bool) :
    (existence (m := Id) fun d s => pure (p d s)).certain.DigestsFuture v := by
  rw [certain_existence]
  exact existence_digestsFuture _ v

theorem existence_asks :
    (existence fun d s => (pure (p d s) : Except ε Bool)).Asks p :=
  fun _ q => corresponds_pure p q

theorem existence_foldAll (v : Bool) (qs : List (Pairing δ σ)) :
    (existence fun d s => (pure (p d s) : Except ε Bool)).foldAll v qs =
      .ok (v || qs.any fun q => q.accepts p) := by
  induction qs generalizing v with
  | nil => simp [Strategy.foldAll]; rfl
  | cons q qs ih =>
    rw [Strategy.foldAll, List.foldlM_cons, existence_fold, pure_bind, List.any_cons,
      ← Bool.or_assoc]
    exact ih _

/-- Nothing has been left behind. -/
def State.Unmoved : State δ σ → Prop
  | .start _ _ => True
  | .on a b => a.index = 0 ∧ b.index = 0

theorem any_folded_of_moved {s : State δ σ} {e : Edge δ σ}
    (hq : ∀ q ∈ s.pairing?, q.accepts p = true) (he : e ∈ s.edges) (hmoved : ¬ e.target.Unmoved) :
    (e.folded s.pairing?).any (fun q => q.accepts p) = true := by
  match s, hq, he with
  | .start ds ss, _, he =>
    obtain ⟨hx, hy⟩ := State.mem_edges_start.1 he
    obtain ⟨x, y⟩ := e
    obtain ⟨js, ts, _, _, hjs, rfl⟩ := Place.mem_arrivals.1 hx
    obtain ⟨ks, us, _, _, hks, rfl⟩ := Place.mem_arrivals.1 hy
    cases js with
    | cons t js =>
      have ht := hjs t List.mem_cons_self
      simp [Edge.folded, Move.skipped, Pairing.accepts, Pairing.destOnly, ht]
    | nil =>
      cases ks with
      | cons u ks =>
        have hu := hks u List.mem_cons_self
        simp [Edge.folded, Move.skipped, Pairing.accepts, Pairing.srcOnly, hu]
      | nil => exact absurd ⟨rfl, rfl⟩ hmoved
  | .on ⟨_, []⟩ ⟨_, []⟩, _, he => cases he
  | .on ⟨_, []⟩ ⟨_, b :: _⟩, hq, _ =>
    simp [Edge.folded, State.pairing?, hq (.srcOnly b) rfl]
  | .on ⟨_, a :: _⟩ ⟨_, []⟩, hq, _ =>
    simp [Edge.folded, State.pairing?, hq (.destOnly a) rfl]
  | .on ⟨_, a :: _⟩ ⟨_, b :: _⟩, hq, _ =>
    simp [Edge.folded, State.pairing?, hq (.both a b) rfl]

end Existence

/-- A walk that ends leaves an alignment, and the value true unless both sequences are empty. -/
theorem existence_value {p : δ → σ → Bool} {ds : List (Item δ)} {ss : List (Item σ)}
    {ks : List Nat} {w : Bool}
    (h : Decided (existence fun d s => (pure (p d s) : Except ε Bool))
      (existence fun d s => (pure (p d s) : Except ε Bool)).graph
      (.start (freshTrackers ds) (freshTrackers ss)) false ks (.ok w)) :
    (∃ P, IsAlignment p ds ss P) ∧ (w = true ∨ ds = [] ∧ ss = []) := by
  obtain ⟨s, P, hend, hP, hw⟩ := h.trail (existence_asks p)
    (V := fun s _ v => v = true ∨ s.Unmoved) (by
      intro s P e v w _ hq he hv hf
      rw [existence_foldAll] at hf
      obtain rfl := Except.ok.inj hf
      by_cases hmoved : e.target.Unmoved
      · exact .inr hmoved
      · rw [any_folded_of_moved p hq he hmoved, Bool.or_true]
        exact .inl rfl)
    (.inr trivial)
  refine ⟨⟨P, hP.isAlignment hend⟩, hw.imp_right fun hmoved => ?_⟩
  obtain ⟨i, j, rfl⟩ := State.eq_on_of_finished hend
  cases hP with
  | on h =>
    have hi := h.dest.place.nil
    have hj := h.src.place.nil
    rw [length_freshTrackers] at hi hj
    exact ⟨List.length_eq_zero_iff.1 (hi.symm.trans hmoved.1),
      List.length_eq_zero_iff.1 (hj.symm.trans hmoved.2)⟩

theorem hasAlignment_fst (p : δ → σ → Bool) (o : Options) (t : Tracer Id δ σ Bool)
    (dest : List (Item δ)) (src : List (Item σ)) :
    (hasAlignment (m := Id) (fun d s => pure (p d s)) o t dest src).1 =
      match (search (existence (m := Id) fun d s => pure (p d s)) o t (freshTrackers dest)
        (freshTrackers src) false).found with
      | none => false
      | some w => w || (dest.isEmpty && src.isEmpty) :=
  rfl

/-- Two sequences match if and only if there is an alignment of them, whether or not the search
remembers dead ends. -/
theorem hasAlignment_iff (p : δ → σ → Bool) (b : Bool) (t : Tracer Id δ σ Bool)
    (dest : List (Item δ)) (src : List (Item σ)) :
    (hasAlignment (m := Id) (fun d s => pure (p d s)) { memoize := b } t dest src).1 = true ↔
      ∃ P, IsAlignment p dest src P := by
  have hdigest := existence_digestsFuture (fun d s => (pure (p d s) : Except Empty Bool)) false
  have hsome := isSome_found_iff (existence (m := Id) fun d s => pure (p d s)) b t
    (freshTrackers dest) (freshTrackers src) false
  rw [certain_existence] at hsome
  rw [hasAlignment_fst]
  cases hfound : (search (existence (m := Id) fun d s => pure (p d s)) { memoize := b } t
      (freshTrackers dest) (freshTrackers src) false).found with
  | none =>
    simp only [Bool.false_eq_true, false_iff]
    rintro ⟨P, hP⟩
    have := (hsome hdigest).2 (ends_start (existence_asks p) hP false)
    rw [hfound] at this
    cases this
  | some w =>
    obtain ⟨ks, hd⟩ := decided_of_found hfound
    rw [certain_existence] at hd
    obtain ⟨hP, hw⟩ := existence_value hd
    refine iff_of_true ?_ hP
    rcases hw with rfl | ⟨rfl, rfl⟩
    · rfl
    · simp

end SeqAlign
