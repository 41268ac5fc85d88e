import SeqAlign.Proofs.Run

/-!
# SeqAlign.Proofs.Walks

The walks that a search looks for, and the walk that it finds.

* `Graph`: where a walk can end, and the links it can take from a node, in order.
* `Decided S G x v ks r`: the walk that starts at `x` with the value `v` and takes the links
  numbered `ks` ends with `r`. It either comes to an end of `G` with a value, or an operation of
  `S` fails on it; it folds along each link what belongs to that link, into the value it has.
* `IsFirst`: the result of the walk that comes first in the lexicographic order of link numbers.
* `Strategy.isFirst_invariant`: what holds along the first walk, because no walk goes along the edges
  before its own.
* `Run.decided`: whatever the options, what a search finds is the result of a walk.
* `Run.isFirst`: without memory of dead ends it is the first one, and a search that finds nothing
  within its limits has no walk to find.
-/

namespace SeqAlign

structure Graph (ε δ σ ρ τ : Type) where
  ended : τ → Prop
  /-- The nodes that follow, each with what is folded on the way there. -/
  links : ρ → τ → Except ε (List (τ × List (Pairing δ σ)))

inductive Decided {ε δ σ ρ τ : Type} (S : Strategy (Except ε) δ σ ρ) (G : Graph ε δ σ ρ τ) :
    τ → ρ → List Nat → Except ε ρ → Prop where
  | ended {x : τ} {v : ρ} : G.ended x → Decided S G x v [] (.ok v)
  | unanswered {x : τ} {v : ρ} {f : ε} :
      G.links v x = .error f → Decided S G x v [] (.error f)
  | unfolded {x y : τ} {v : ρ} {f : ε} {k : Nat} {ls : List (τ × List (Pairing δ σ))}
      {ps : List (Pairing δ σ)} :
      G.links v x = .ok ls → ls[k]? = some (y, ps) → S.foldAll v ps = .error f →
      Decided S G x v [k] (.error f)
  | link {x y : τ} {v w : ρ} {k : Nat} {ks : List Nat} {r : Except ε ρ}
      {ls : List (τ × List (Pairing δ σ))} {ps : List (Pairing δ σ)} :
      G.links v x = .ok ls → ls[k]? = some (y, ps) → S.foldAll v ps = .ok w →
      Decided S G y w ks r → Decided S G x v (k :: ks) r

/-- Of the numbered results, `r` has the least number. -/
def IsFirst {ε ρ : Type} (P : List Nat → Except ε ρ → Prop) (r : Except ε ρ) : Prop :=
  ∃ ks, P ks r ∧ ∀ ks' r', P ks' r' → ks = ks' ∨ List.Lex (· < ·) ks ks'

/-- A property of nodes and values that every link keeps holds at the end of every walk. -/
theorem Decided.invariant {ε δ σ ρ τ : Type} {S : Strategy (Except ε) δ σ ρ}
    {G : Graph ε δ σ ρ τ} {I : τ → ρ → Prop}
    (hlink : ∀ x v ls y ps w, I x v → G.links v x = .ok ls → (y, ps) ∈ ls →
      S.foldAll v ps = .ok w → I y w)
    {x : τ} {v w : ρ} {ks : List Nat} (h : Decided S G x v ks (.ok w)) (hI : I x v) :
    ∃ y, G.ended y ∧ I y w := by
  generalize hr : (.ok w : Except ε ρ) = r at h
  induction h with
  | ended he =>
    cases hr
    exact ⟨_, he, hI⟩
  | unanswered _ => cases hr
  | unfolded _ _ _ => cases hr
  | link hls hk hf _ ih => exact ih (hlink _ _ _ _ _ _ hI hls (List.mem_of_getElem? hk) hf) hr

/-- Two graphs with the same links, under different names of the nodes, have the same walks. -/
theorem decided_map {ε δ σ ρ τ υ : Type} {S : Strategy (Except ε) δ σ ρ} {G : Graph ε δ σ ρ τ}
    {H : Graph ε δ σ ρ υ} (name : τ → υ) {I : τ → Prop}
    (hended : ∀ x, I x → (G.ended x ↔ H.ended (name x)))
    (hlinks : ∀ x v, I x →
      H.links v (name x) = (G.links v x).map (List.map fun l => (name l.1, l.2)))
    (hI : ∀ x v ls y ps, I x → G.links v x = .ok ls → (y, ps) ∈ ls → I y)
    {x : τ} {v : ρ} {ks : List Nat} {r : Except ε ρ} (hx : I x) :
    Decided S G x v ks r ↔ Decided S H (name x) v ks r := by
  constructor
  · intro h
    induction h with
    | ended he => exact .ended ((hended _ hx).1 he)
    | unanswered h => exact .unanswered (by rw [hlinks _ _ hx, h]; rfl)
    | unfolded h hk hf =>
      exact .unfolded (by rw [hlinks _ _ hx, h]; rfl) (by rw [List.getElem?_map, hk]; rfl) hf
    | link h hk hf _ ih =>
      exact .link (by rw [hlinks _ _ hx, h]; rfl) (by rw [List.getElem?_map, hk]; rfl) hf
        (ih (hI _ _ _ _ _ hx h (List.mem_of_getElem? hk)))
  · intro h
    generalize hy : name x = y at h
    induction h generalizing x with
    | ended he => exact .ended ((hended _ hx).2 (hy ▸ he))
    | @unanswered y v f h =>
      subst hy
      rw [hlinks _ _ hx] at h
      cases hg : G.links v x with
      | error f' =>
        rw [hg] at h
        cases h
        exact .unanswered hg
      | ok ls =>
        rw [hg] at h
        cases h
    | @unfolded y z v f k ls ps h hk hf =>
      subst hy
      rw [hlinks _ _ hx] at h
      cases hg : G.links v x with
      | error f' =>
        rw [hg] at h
        cases h
      | ok ls' =>
        rw [hg] at h
        cases h
        rw [List.getElem?_map, Option.map_eq_some_iff] at hk
        obtain ⟨l, hl, heq⟩ := hk
        cases heq
        exact .unfolded hg hl hf
    | @link y z v w k ks r ls ps h hk hf _ ih =>
      subst hy
      rw [hlinks _ _ hx] at h
      cases hg : G.links v x with
      | error f' =>
        rw [hg] at h
        cases h
      | ok ls' =>
        rw [hg] at h
        cases h
        rw [List.getElem?_map, Option.map_eq_some_iff] at hk
        obtain ⟨l, hl, heq⟩ := hk
        cases heq
        exact .link hg hl hf (ih (hI _ _ _ _ _ hx hg (List.mem_of_getElem? hl)) rfl)

namespace Strategy

variable {ε δ σ ρ : Type}

/-- The graph that the search moves in. -/
def graph (S : Strategy (Except ε) δ σ ρ) : Graph ε δ σ ρ (State δ σ) where
  ended s := s.outlook = .finished
  links v s :=
    match s.outlook with
    | .onward _ => do
      if ← S.opens v s.pairing? then
        pure (s.edges.map fun e => (e.target, e.folded s.pairing?))
      else pure []
    | _ => pure []

variable {S : Strategy (Except ε) δ σ ρ} {s : State δ σ} {v : ρ}

theorem links_of_opens {ph : Phase} (ho : s.outlook = .onward ph)
    (hp : S.opens v s.pairing? = .ok true) :
    S.graph.links v s = .ok (s.edges.map fun e => (e.target, e.folded s.pairing?)) := by
  simp only [graph, ho, hp]
  rfl

theorem links_of_refused {ph : Phase} (ho : s.outlook = .onward ph)
    (hp : S.opens v s.pairing? = .ok false) : S.graph.links v s = .ok [] := by
  simp only [graph, ho, hp]
  rfl

theorem links_of_error {ph : Phase} {f : ε} (ho : s.outlook = .onward ph)
    (hp : S.opens v s.pairing? = .error f) : S.graph.links v s = .error f := by
  simp only [graph, ho, hp]
  rfl

theorem links_of_stuck (ho : ∀ ph, s.outlook ≠ .onward ph) : S.graph.links v s = .ok [] := by
  cases h : s.outlook with
  | onward ph => exact absurd h (ho ph)
  | finished => simp only [graph, h]; rfl
  | blocked ended => simp only [graph, h]; rfl

theorem edge_of_mem_links {ls : List (State δ σ × List (Pairing δ σ))} {y : State δ σ}
    {ps : List (Pairing δ σ)} (h : S.graph.links v s = .ok ls) (hy : (y, ps) ∈ ls) :
    ∃ ph e, s.outlook = .onward ph ∧ S.opens v s.pairing? = .ok true ∧ e ∈ s.edges ∧
      y = e.target ∧ ps = e.folded s.pairing? := by
  cases ho : s.outlook with
  | finished =>
    rw [links_of_stuck (by simp [ho])] at h
    cases h
    cases hy
  | blocked ended =>
    rw [links_of_stuck (by simp [ho])] at h
    cases h
    cases hy
  | onward ph =>
    match hp : S.opens v s.pairing? with
    | .error f =>
      rw [links_of_error ho hp] at h
      cases h
    | .ok false =>
      rw [links_of_refused ho hp] at h
      cases h
      cases hy
    | .ok true =>
      rw [links_of_opens ho hp] at h
      cases h
      obtain ⟨e, he, heq⟩ := List.mem_map.1 hy
      cases heq
      exact ⟨ph, e, rfl, rfl, he, rfl, rfl⟩

/-- The walks that begin with one of these edges. -/
def Branches (S : Strategy (Except ε) δ σ ρ) (here : Option (Pairing δ σ)) (v : ρ)
    (es : List (Edge δ σ)) : List Nat → Except ε ρ → Prop
  | [], _ => False
  | k :: ks, r => ∃ e, es[k]? = some e ∧
      ((∃ f, S.foldAll v (e.folded here) = .error f ∧ ks = [] ∧ r = .error f) ∨
        ∃ w, S.foldAll v (e.folded here) = .ok w ∧ Decided S S.graph e.target w ks r)

theorem decided_iff_branches {ph : Phase} (ho : s.outlook = .onward ph)
    (hp : S.opens v s.pairing? = .ok true) (ks : List Nat) (r : Except ε ρ) :
    Decided S S.graph s v ks r ↔ S.Branches s.pairing? v s.edges ks r := by
  have hls := links_of_opens ho hp
  constructor
  · intro h
    cases h with
    | ended he => cases ho.symm.trans he
    | unanswered h => cases hls.symm.trans h
    | unfolded h hk hf =>
      cases hls.symm.trans h
      rw [List.getElem?_map, Option.map_eq_some_iff] at hk
      obtain ⟨e, he, heq⟩ := hk
      cases heq
      exact ⟨e, he, .inl ⟨_, hf, rfl, rfl⟩⟩
    | link h hk hf hd =>
      cases hls.symm.trans h
      rw [List.getElem?_map, Option.map_eq_some_iff] at hk
      obtain ⟨e, he, heq⟩ := hk
      cases heq
      exact ⟨e, he, .inr ⟨_, hf, hd⟩⟩
  · intro h
    cases ks with
    | nil => exact h.elim
    | cons k ks =>
      obtain ⟨e, he, ⟨f, hf, rfl, rfl⟩ | ⟨w, hf, hd⟩⟩ := h
      · exact .unfolded hls (by rw [List.getElem?_map, he]; rfl) hf
      · exact .link hls (by rw [List.getElem?_map, he]; rfl) hf hd

theorem branches_succ {here : Option (Pairing δ σ)} {e : Edge δ σ} {es : List (Edge δ σ)}
    {k : Nat} {ks : List Nat} {r : Except ε ρ} :
    S.Branches here v (e :: es) ((k + 1) :: ks) r ↔ S.Branches here v es (k :: ks) r := by
  simp only [Branches, List.getElem?_cons_succ]

theorem branches_zero {here : Option (Pairing δ σ)} {e : Edge δ σ} {es : List (Edge δ σ)}
    {w : ρ} (hf : S.foldAll v (e.folded here) = .ok w) {ks : List Nat} {r : Except ε ρ} :
    S.Branches here v (e :: es) (0 :: ks) r ↔ Decided S S.graph e.target w ks r := by
  simp [Branches, hf]

theorem branches_zero_of_error {here : Option (Pairing δ σ)} {e : Edge δ σ}
    {es : List (Edge δ σ)} {f : ε} (hf : S.foldAll v (e.folded here) = .error f) {ks : List Nat}
    {r : Except ε ρ} :
    S.Branches here v (e :: es) (0 :: ks) r ↔ ks = [] ∧ r = .error f := by
  simp only [Branches, List.getElem?_cons_zero, Option.some.injEq, exists_eq_left', hf,
    Except.error.injEq, reduceCtorEq, false_and, exists_false, or_false]

theorem isFirst_branches_zero {here : Option (Pairing δ σ)} {e : Edge δ σ}
    {es : List (Edge δ σ)} {w : ρ} {r : Except ε ρ}
    (hf : S.foldAll v (e.folded here) = .ok w)
    (h : IsFirst (Decided S S.graph e.target w) r) :
    IsFirst (S.Branches here v (e :: es)) r := by
  obtain ⟨ks, hks, hleast⟩ := h
  refine ⟨0 :: ks, (branches_zero hf).2 hks, ?_⟩
  intro ks' r' h'
  match ks', h' with
  | 0 :: ks', h' =>
    rcases hleast ks' r' ((branches_zero hf).1 h') with rfl | hlt
    · exact .inl rfl
    · exact .inr (.cons hlt)
  | (k + 1) :: ks', _ => exact .inr (.rel (Nat.succ_pos k))

theorem isFirst_branches_succ {here : Option (Pairing δ σ)} {e : Edge δ σ}
    {es : List (Edge δ σ)} {w : ρ} {r : Except ε ρ}
    (hf : S.foldAll v (e.folded here) = .ok w)
    (hnone : ∀ ks r, ¬ Decided S S.graph e.target w ks r)
    (h : IsFirst (S.Branches here v es) r) : IsFirst (S.Branches here v (e :: es)) r := by
  obtain ⟨ks, hks, hleast⟩ := h
  cases ks with
  | nil => exact hks.elim
  | cons k ks =>
    refine ⟨(k + 1) :: ks, branches_succ.2 hks, ?_⟩
    intro ks' r' h'
    match ks', h' with
    | 0 :: ks', h' => exact absurd ((branches_zero hf).1 h') (hnone ks' r')
    | (k' + 1) :: ks', h' =>
      rcases hleast (k' :: ks') r' (branches_succ.1 h') with heq | hlt
      · cases heq
        exact .inl rfl
      · cases hlt with
        | cons hlt => exact .inr (.cons hlt)
        | rel hlt => exact .inr (.rel (Nat.succ_lt_succ hlt))

/-- A property of states and values that holds at the end of the first walk, because it is kept along
every edge such that no walk goes along the edges before it. -/
theorem isFirst_invariant {I : State δ σ → ρ → Prop}
    (hstep : ∀ s v before e after w, I s v → S.opens v s.pairing? = .ok true →
      s.edges = before ++ e :: after → (∀ ks r, ¬ S.Branches s.pairing? v before ks r) →
      S.foldAll v (e.folded s.pairing?) = .ok w → I e.target w)
    {w : ρ} (h : IsFirst (Decided S S.graph s v) (.ok w)) (hI : I s v) :
    ∃ s', s'.outlook = .finished ∧ I s' w := by
  obtain ⟨ks, hd, hleast⟩ := h
  induction ks generalizing s v with
  | nil =>
    cases hd with
    | ended he => exact ⟨s, he, hI⟩
  | cons k ks ih =>
    obtain ⟨ph, ho, hp⟩ : ∃ ph, s.outlook = .onward ph ∧ S.opens v s.pairing? = .ok true := by
      cases hd with
      | link hls hk _ _ =>
        obtain ⟨ph, _, ho, hp, _⟩ := edge_of_mem_links hls (List.mem_of_getElem? hk)
        exact ⟨ph, ho, hp⟩
    have hbranches := decided_iff_branches (S := S) ho hp
    obtain ⟨e, he, ⟨f, _, _, hr⟩ | ⟨u, hf, hd'⟩⟩ := (hbranches _ _).1 hd
    · cases hr
    obtain ⟨hk, rfl⟩ := List.getElem?_eq_some_iff.1 he
    have hsplit : s.edges = s.edges.take k ++ s.edges[k] :: s.edges.drop (k + 1) := by
      rw [← List.drop_eq_getElem_cons hk, List.take_append_drop]
    refine ih (hstep s v _ _ _ u hI hp hsplit ?_ hf) hd' ?_
    · -- a walk along an earlier edge would come before the first one
      intro ks' r' hks'
      match ks', hks' with
      | k' :: ks', ⟨e', he', hrest⟩ =>
        have hlt : k' < k := by
          have := (List.getElem?_eq_some_iff.1 he').1
          rw [List.length_take] at this
          omega
        rw [List.getElem?_take_of_lt hlt] at he'
        rcases hleast (k' :: ks') r' ((hbranches _ _).2 ⟨e', he', hrest⟩) with heq | hlex
        · obtain ⟨rfl, _⟩ := List.cons.inj heq
          exact Nat.lt_irrefl k hlt
        · cases hlex with
          | cons _ => exact Nat.lt_irrefl k hlt
          | rel hlt' => exact Nat.lt_asymm hlt hlt'
    · intro ks' r' hks'
      rcases hleast (k :: ks') r' ((hbranches _ _).2 ⟨_, he, .inr ⟨u, hf, hks'⟩⟩) with heq | hlt
      · exact .inl (List.cons.inj heq).2
      · cases hlt with
        | cons hlt => exact .inr hlt
        | rel hlt => exact absurd hlt (Nat.lt_irrefl k)

end Strategy

/-! ## What a run finds -/

section Run

variable {ε δ σ ρ : Type} {S : Strategy (Except ε) δ σ ρ} {o : Options}

/-- The walks among which a task looks for the first. -/
def Task.walks (S : Strategy (Except ε) δ σ ρ) : Task δ σ ρ → List Nat → Except ε ρ → Prop
  | .visit s v _ => Decided S S.graph s v
  | .explore s v _ => Decided S S.graph s v
  | .attempt here v _ es => S.Branches here v es

/-- What is found is the result of a walk. -/
def Finds (P : List Nat → Except ε ρ → Prop) : Answer ε ρ → Prop
  | .error f => ∃ ks, P ks (.error f)
  | .ok (some w, _) => ∃ ks, P ks (.ok w)
  | .ok (none, _) => True

/-- What is found is the result of the first walk, and nothing is found within the limits only if
there is no walk. -/
def FindsFirst (P : List Nat → Except ε ρ → Prop) : Answer ε ρ → Prop
  | .error f => IsFirst P (.error f)
  | .ok (some w, _) => IsFirst P (.ok w)
  | .ok (none, l) => l.limitReached = false → ∀ ks r, ¬ P ks r

theorem finds_settle {P : List Nat → Except ε ρ → Prop} {r : Answer ε ρ} (key : Key)
    (h : Finds P r) : Finds P (r.map (Ledger.settle o key)) := by
  match r, h with
  | .error f, h => exact h
  | .ok (some w, l), h => exact h
  | .ok (none, l), h =>
    simp only [Except.map, Ledger.settle]
    split <;> trivial

theorem Run.decided {task : Task δ σ ρ} {l : Ledger} {log : Log δ σ ρ} {r : Answer ε ρ}
    (h : Run S o task l log r) : Finds (task.walks S) r := by
  induction h with
  | abandoned => trivial
  | known => trivial
  | explored _ _ _ ih => exact finds_settle _ ih
  | finished ho => exact ⟨[], .ended ho⟩
  | blocked => trivial
  | unanswered ho hp => exact ⟨[], .unanswered (Strategy.links_of_error ho hp)⟩
  | refused => trivial
  | @proceeded s v d l ph log r ho hp _ ih =>
    match r, ih with
    | .error f, ⟨ks, hks⟩ => exact ⟨ks, (Strategy.decided_iff_branches ho hp ks _).2 hks⟩
    | .ok (some w, l'), ⟨ks, hks⟩ => exact ⟨ks, (Strategy.decided_iff_branches ho hp ks _).2 hks⟩
    | .ok (none, l'), _ => trivial
  | noneLeft => trivial
  | halted => trivial
  | unfolded _ hf => exact ⟨[0], (Strategy.branches_zero_of_error hf).2 ⟨rfl, rfl⟩⟩
  | failed _ hf _ ih =>
    obtain ⟨ks, hks⟩ := ih
    exact ⟨0 :: ks, (Strategy.branches_zero hf).2 hks⟩
  | found _ hf _ ih =>
    obtain ⟨ks, hks⟩ := ih
    exact ⟨0 :: ks, (Strategy.branches_zero hf).2 hks⟩
  | @passed here v w d l l' e es log log' r _ _ _ _ _ ih =>
    have hshift {r' : Except ε ρ} (h : ∃ ks, S.Branches here v es ks r') :
        ∃ ks, S.Branches here v (e :: es) ks r' := by
      obtain ⟨ks, hks⟩ := h
      cases ks with
      | nil => exact hks.elim
      | cons k ks => exact ⟨(k + 1) :: ks, Strategy.branches_succ.2 hks⟩
    match r, ih with
    | .error f, ih => exact hshift ih
    | .ok (some u, l''), ih => exact hshift ih
    | .ok (none, l''), _ => trivial

theorem Run.attempt_of_limitReached {here : Option (Pairing δ σ)} {v : ρ} {d : Nat}
    {es : List (Edge δ σ)} {l : Ledger} {log : Log δ σ ρ} {r : Answer ε ρ}
    (h : Run S o (.attempt here v d es) l log r) (hl : l.limitReached = true) :
    log = [] ∧ r = .ok (none, l) := by
  cases h with
  | noneLeft => exact ⟨rfl, rfl⟩
  | halted _ => exact ⟨rfl, rfl⟩
  | unfolded h _ => cases hl.symm.trans h
  | failed h _ _ => cases hl.symm.trans h
  | found h _ _ => cases hl.symm.trans h
  | passed h _ _ _ => cases hl.symm.trans h

theorem not_decided_of_links_nil {s : State δ σ} {v : ρ} (hs : s.outlook ≠ .finished)
    (hls : S.graph.links v s = .ok []) (ks : List Nat) (r : Except ε ρ) :
    ¬ Decided S S.graph s v ks r := by
  intro h
  cases h with
  | ended he => exact hs he
  | unanswered h => cases hls.symm.trans h
  | unfolded h hk _ =>
    cases hls.symm.trans h
    cases hk
  | link h hk _ _ =>
    cases hls.symm.trans h
    cases hk

theorem isFirst_nil {P : List Nat → Except ε ρ → Prop} {r : Except ε ρ} (h : P [] r) :
    IsFirst P r := by
  refine ⟨[], h, ?_⟩
  intro ks' r' _
  cases ks' with
  | nil => exact .inl rfl
  | cons k ks' => exact .inr .nil

theorem findsFirst_congr {P Q : List Nat → Except ε ρ → Prop} (h : ∀ ks r, P ks r ↔ Q ks r)
    {r : Answer ε ρ} (hP : FindsFirst P r) : FindsFirst Q r := by
  have : P = Q := funext fun ks => funext fun r => propext (h ks r)
  exact this ▸ hP

theorem Run.isFirst {task : Task δ σ ρ} {l : Ledger} {log : Log δ σ ρ} {r : Answer ε ρ}
    (h : Run S o task l log r) (hm : o.memoize = false) : FindsFirst (task.walks S) r := by
  induction h with
  | abandoned => intro hl; cases hl
  | known _ hm' => cases hm.symm.trans hm'
  | @explored s v d l log r _ _ _ ih =>
    have hsettle : r.map (Ledger.settle o (s.key (S.digest v))) = r := by
      cases r <;> simp [Except.map, Ledger.settle, hm]
    rw [hsettle]
    exact ih
  | finished ho => exact isFirst_nil (.ended ho)
  | blocked ho =>
    intro _
    exact not_decided_of_links_nil (by simp [ho]) (Strategy.links_of_stuck (by simp [ho]))
  | unanswered ho hp => exact isFirst_nil (.unanswered (Strategy.links_of_error ho hp))
  | refused ho hp =>
    intro _
    exact not_decided_of_links_nil (by simp [ho]) (Strategy.links_of_refused ho hp)
  | proceeded ho hp _ ih =>
    exact findsFirst_congr (fun ks r => (Strategy.decided_iff_branches ho hp ks r).symm) ih
  | noneLeft =>
    intro _ ks r h
    cases ks with
    | nil => exact h
    | cons k ks =>
      obtain ⟨e, he, _⟩ := h
      cases he
  | halted hl => intro hl'; cases hl.symm.trans hl'
  | @unfolded here v d l e es f _ hf =>
    refine ⟨[0], (Strategy.branches_zero_of_error hf).2 ⟨rfl, rfl⟩, ?_⟩
    intro ks' r' h'
    match ks', h' with
    | 0 :: ks', h' =>
      obtain ⟨rfl, _⟩ := (Strategy.branches_zero_of_error hf).1 h'
      exact .inl rfl
    | (k + 1) :: ks', _ => exact .inr (.rel (Nat.succ_pos k))
  | failed _ hf _ ih => exact Strategy.isFirst_branches_zero hf ih
  | found _ hf _ ih => exact Strategy.isFirst_branches_zero hf ih
  | @passed here v w d l l' e es log log' r _ hf _ hrest ih ih' =>
    cases hl' : l'.limitReached with
    | true =>
      -- the later edges are not tried, so nothing is claimed about walks
      rw [(hrest.attempt_of_limitReached hl').2]
      intro h
      cases hl'.symm.trans h
    | false =>
      have hnone := ih hl'
      match r, ih' with
      | .error f, ih' => exact Strategy.isFirst_branches_succ hf hnone ih'
      | .ok (some u, l''), ih' => exact Strategy.isFirst_branches_succ hf hnone ih'
      | .ok (none, l''), ih' =>
        intro hl'' ks r hks
        match ks, hks with
        | 0 :: ks, hks => exact hnone ks r ((Strategy.branches_zero hf).1 hks)
        | (k + 1) :: ks, hks => exact ih' hl'' (k :: ks) r (Strategy.branches_succ.1 hks)

end Run

theorem decided_of_found {δ σ ρ : Type} {S : Strategy Id δ σ ρ} {o : Options} {t : Tracer Id δ σ ρ}
    {dest : List (Tracker δ)} {src : List (Tracker σ)} {v w : ρ}
    (h : (search S o t dest src v).found = some w) :
    ∃ ks, Decided S.certain S.certain.graph (.start dest src) v ks (.ok w) := by
  obtain ⟨log, u, l, hrun, hsearch⟩ := exists_run_certain S o t dest src v
  rw [hsearch] at h
  obtain rfl : u = some w := h
  exact hrun.decided

end SeqAlign
