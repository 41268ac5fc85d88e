import SeqAlign.Proofs.Recall

/-!
# SeqAlign.Proofs.Accounting

The counters of a memoized relation that may fail.

* `Call`: a question with its answer, and with what the relation itself was asked meanwhile. This is
  observed on a relation that writes down what it is asked (`observe`, `Handles.perform_ask`).
* `Asked`: what a call does to the verdicts. It is answered from memory, or its answer is learned, or
  it fails.
* `Balanced`: the counters fit the calls since the verdicts were last cleared. Every call keeps this
  (`Balanced.concat`).
* `Handles.watch`: handles after some requests, beside the calls since the last time that all was
  cleared.
* `Handles.watch_balanced`: whatever is asked, copied and cleared through whichever handles, the
  counters that are seen through any handle fit the calls, and a call that fails changes nothing but
  the count of misses.
-/

namespace SeqAlign

variable {δ σ ε : Type}

namespace Verdicts

structure Call (δ σ ε : Type) where
  question : δ × σ
  answer : Except ε Bool
  /-- What the relation itself was asked before the answer was known. -/
  evaluated : List (δ × σ)

def Call.returned (call : Call δ σ ε) : Bool := call.answer.isOk

section Observe

variable (destText : δ → String) (srcText : σ → String) (relation : δ → σ → Except ε Bool)

/-- Writes the question down before it is answered. -/
def noting (d : δ) (s : σ) : ExceptT ε (StateT Verdicts (StateM (List (δ × σ)))) Bool := do
  modifyThe (List (δ × σ)) (· ++ [(d, s)])
  ExceptT.mk (pure (relation d s))

/-- A call of the memoized relation, and the verdicts after it. -/
def observe (v : Verdicts) (d : δ) (s : σ) : Call δ σ ε × Verdicts :=
  let ((answer, after), evaluated) :=
    ((memoized destText srcText (noting relation) d s).run.run v).run []
  (⟨(d, s), answer, evaluated⟩, after)

/-- What becomes of a question. -/
inductive Asked (v : Verdicts) (d : δ) (s : σ) : Call δ σ ε × Verdicts → Prop where
  | recalled {verdict : Bool} : v.known[key destText srcText d s]? = some verdict →
      Asked v d s (⟨(d, s), .ok verdict, []⟩, v.hit)
  | learned {verdict : Bool} : v.known[key destText srcText d s]? = Option.none →
      relation d s = .ok verdict →
      Asked v d s
        (⟨(d, s), .ok verdict, [(d, s)]⟩, v.miss.record (key destText srcText d s) verdict)
  | failed {failure : ε} : v.known[key destText srcText d s]? = Option.none →
      relation d s = .error failure →
      Asked v d s (⟨(d, s), .error failure, [(d, s)]⟩, v.miss)

theorem asked_observe (v : Verdicts) (d : δ) (s : σ) :
    Asked destText srcText relation v d s (observe destText srcText relation v d s) := by
  simp only [observe, noting, memoized, run_getThe_bind]
  cases hknown : v.known[key destText srcText d s]? with
  | some verdict => exact .recalled hknown
  | none => cases hrelation : relation d s with
    | ok verdict => exact .learned hknown hrelation
    | error failure => exact .failed hknown hrelation

variable {destText srcText relation}

theorem Asked.question_eq {v : Verdicts} {d : δ} {s : σ} {r : Call δ σ ε × Verdicts}
    (h : Asked destText srcText relation v d s r) : r.1.question = (d, s) := by
  cases h with
  | recalled | learned | failed => rfl

theorem Asked.eq_miss {v : Verdicts} {d : δ} {s : σ} {r : Call δ σ ε × Verdicts}
    (h : Asked destText srcText relation v d s r) (hfailed : r.1.returned = false) :
    r.2 = v.miss := by
  cases h with
  | recalled | learned => cases hfailed
  | failed => rfl

variable (destText srcText relation)

def returnedKeys (calls : List (Call δ σ ε)) : List String :=
  (calls.filter Call.returned).map fun call =>
    key destText srcText call.question.1 call.question.2

/-- The keys that the relation itself was asked about with success, one for each time. -/
def learnedKeys (calls : List (Call δ σ ε)) : List String :=
  ((calls.flatMap Call.evaluated).filter fun q => (relation q.1 q.2).isOk).map fun q =>
    key destText srcText q.1 q.2

def failures (calls : List (Call δ σ ε)) : Nat := calls.countP fun call => !call.returned

/-- The verdicts fit these calls. -/
structure Balanced (v : Verdicts) (calls : List (Call δ σ ε)) : Prop where
  total : v.hits + v.misses = calls.length
  known_returned : ∀ k, v.known.contains k = true ↔ k ∈ returnedKeys destText srcText calls
  known_learned : ∀ k, v.known.contains k = true ↔ k ∈ learnedKeys destText srcText relation calls
  size_eq : v.size = (returnedKeys destText srcText calls).toFinset.card
  misses_eq : v.misses = v.size + failures calls
  /-- No key is evaluated with success twice. -/
  learned_once : (learnedKeys destText srcText relation calls).Nodup

variable {destText srcText relation}

theorem balanced_none : Balanced destText srcText relation none [] where
  total := rfl
  known_returned k := by simp [none, returnedKeys]
  known_learned k := by simp [none, learnedKeys]
  size_eq := by simp [none, size, returnedKeys]
  misses_eq := by simp [none, size, failures]
  learned_once := by simp [learnedKeys]

section Concat

variable {v : Verdicts} {calls : List (Call δ σ ε)} {d : δ} {s : σ} {verdict : Bool} {failure : ε}
  {asked : List (δ × σ)}

theorem returnedKeys_concat_ok :
    returnedKeys destText srcText (calls ++ [⟨(d, s), .ok verdict, asked⟩]) =
      returnedKeys destText srcText calls ++ [key destText srcText d s] := by
  rw [returnedKeys, List.filter_append, List.map_append]
  rfl

theorem returnedKeys_concat_error :
    returnedKeys destText srcText (calls ++ [⟨(d, s), .error failure, asked⟩]) =
      returnedKeys destText srcText calls := by
  rw [returnedKeys, List.filter_append, List.map_append]
  exact List.append_nil _

theorem learnedKeys_concat (call : Call δ σ ε) :
    learnedKeys destText srcText relation (calls ++ [call]) =
      learnedKeys destText srcText relation calls ++
        (call.evaluated.filter fun q => (relation q.1 q.2).isOk).map fun q =>
          key destText srcText q.1 q.2 := by
  simp [learnedKeys]

theorem failures_concat (call : Call δ σ ε) :
    failures (calls ++ [call]) = failures calls + if call.returned then 0 else 1 := by
  cases hreturned : call.returned <;> simp [failures, hreturned]

theorem contains_record (v : Verdicts) (k l : String) (verdict : Bool) :
    (v.record k verdict).known.contains l = true ↔ v.known.contains l = true ∨ l = k := by
  simp only [record, Std.HashMap.contains_insertIfNew, Bool.or_eq_true, beq_iff_eq]
  rw [or_comm, @eq_comm _ k l]

theorem Balanced.recalled (h : Balanced destText srcText relation v calls)
    (hknown : v.known[key destText srcText d s]? = some verdict) :
    Balanced destText srcText relation v.hit (calls ++ [⟨(d, s), .ok verdict, []⟩]) := by
  have hcontains : v.known.contains (key destText srcText d s) = true := by
    rw [Std.HashMap.contains_eq_isSome_getElem?, hknown]
    rfl
  have hold := (h.known_returned _).1 hcontains
  have hlearned : learnedKeys destText srcText relation (calls ++ [⟨(d, s), .ok verdict, []⟩]) =
      learnedKeys destText srcText relation calls := by
    rw [learnedKeys_concat]
    exact List.append_nil _
  refine ⟨?total, ?known_returned, ?known_learned, ?size_eq, ?misses_eq, ?learned_once⟩
  case total =>
    rw [List.length_append, ← h.total]
    exact Nat.succ_add_eq_add_succ _ _
  case known_returned =>
    intro k
    rw [returnedKeys_concat_ok, List.mem_append, List.mem_singleton, ← h.known_returned]
    refine ⟨.inl, ?_⟩
    rintro (hk | rfl)
    · exact hk
    · exact hcontains
  case known_learned =>
    rw [hlearned]
    exact h.known_learned
  case size_eq =>
    rw [returnedKeys_concat_ok, List.toFinset_append, List.toFinset_cons, List.toFinset_nil,
      Finset.union_eq_left.2 (by simpa using hold)]
    exact h.size_eq
  case misses_eq =>
    rw [failures_concat]
    exact h.misses_eq
  case learned_once =>
    rw [hlearned]
    exact h.learned_once

theorem Balanced.learned (h : Balanced destText srcText relation v calls)
    (hknown : v.known[key destText srcText d s]? = Option.none)
    (hrelation : relation d s = .ok verdict) :
    Balanced destText srcText relation (v.miss.record (key destText srcText d s) verdict)
      (calls ++ [⟨(d, s), .ok verdict, [(d, s)]⟩]) := by
  have hnew : ¬ v.known.contains (key destText srcText d s) = true := by simpa using hknown
  have hlearned :
      learnedKeys destText srcText relation (calls ++ [⟨(d, s), .ok verdict, [(d, s)]⟩]) =
        learnedKeys destText srcText relation calls ++ [key destText srcText d s] := by
    rw [learnedKeys_concat, List.filter_singleton, hrelation]
    rfl
  have hsize : (v.miss.record (key destText srcText d s) verdict).size = v.size + 1 :=
    size_record hknown verdict
  have hcontains (k : String) {keys : List String} (hk : v.known.contains k = true ↔ k ∈ keys) :
      (v.miss.record (key destText srcText d s) verdict).known.contains k = true ↔
        k ∈ keys ++ [key destText srcText d s] := by
    rw [contains_record, List.mem_append, List.mem_singleton, ← hk]
    rfl
  refine ⟨?total, ?known_returned, ?known_learned, ?size_eq, ?misses_eq, ?learned_once⟩
  case total =>
    rw [List.length_append, ← h.total]
    rfl
  case known_returned =>
    intro k
    rw [returnedKeys_concat_ok]
    exact hcontains k (h.known_returned k)
  case known_learned =>
    intro k
    rw [hlearned]
    exact hcontains k (h.known_learned k)
  case size_eq =>
    have hdisjoint : key destText srcText d s ∉ (returnedKeys destText srcText calls).toFinset :=
      fun hk => hnew ((h.known_returned _).2 (List.mem_toFinset.1 hk))
    rw [returnedKeys_concat_ok, hsize, h.size_eq, List.toFinset_append, List.toFinset_cons,
      List.toFinset_nil, insert_empty_eq, Finset.union_singleton,
      Finset.card_insert_of_notMem hdisjoint]
  case misses_eq =>
    rw [failures_concat, hsize]
    have hmisses := h.misses_eq
    simp only [record, miss, Call.returned, Except.isOk, Except.toBool, if_true]
    omega
  case learned_once =>
    -- what is known has been learned before, and this key is not known
    rw [hlearned, List.nodup_append]
    refine ⟨h.learned_once, List.nodup_singleton _, ?_⟩
    rintro k hk l hl rfl
    rw [List.mem_singleton.1 hl] at hk
    exact hnew ((h.known_learned _).2 hk)

theorem Balanced.failed (h : Balanced destText srcText relation v calls)
    (hrelation : relation d s = .error failure) :
    Balanced destText srcText relation v.miss
      (calls ++ [⟨(d, s), .error failure, [(d, s)]⟩]) := by
  have hlearned :
      learnedKeys destText srcText relation (calls ++ [⟨(d, s), .error failure, [(d, s)]⟩]) =
        learnedKeys destText srcText relation calls := by
    rw [learnedKeys_concat, List.filter_singleton, hrelation]
    exact List.append_nil _
  refine ⟨?total, ?known_returned, ?known_learned, ?size_eq, ?misses_eq, ?learned_once⟩
  case total =>
    rw [List.length_append, ← h.total]
    rfl
  case known_returned =>
    rw [returnedKeys_concat_error]
    exact h.known_returned
  case known_learned =>
    rw [hlearned]
    exact h.known_learned
  case size_eq =>
    rw [returnedKeys_concat_error]
    exact h.size_eq
  case misses_eq =>
    rw [failures_concat]
    exact congrArg (· + 1) h.misses_eq
  case learned_once =>
    rw [hlearned]
    exact h.learned_once

/-- Every call keeps the balance. -/
theorem Balanced.concat (h : Balanced destText srcText relation v calls)
    {r : Call δ σ ε × Verdicts} (hasked : Asked destText srcText relation v d s r) :
    Balanced destText srcText relation r.2 (calls ++ [r.1]) := by
  cases hasked with
  | recalled hknown => exact h.recalled hknown
  | learned hknown hrelation => exact h.learned hknown hrelation
  | failed _ hrelation => exact h.failed hrelation

end Concat

end Observe

end Verdicts

/-! ## Handles -/

namespace Handles

section Watch

variable (destText : δ → String) (srcText : σ → String) (relation : δ → σ → Except ε Bool)

/-- Handles, and the calls since the last time that all was cleared. -/
structure Watched (δ σ ε : Type) where
  handles : Handles
  calls : List (Verdicts.Call δ σ ε)

/-- The handles are those after the request, and a call that is made is added. -/
def Watched.extend (w : Watched δ σ ε) (request : Request δ σ) : Watched δ σ ε where
  handles := (w.handles.perform destText srcText relation request).2
  calls :=
    match request with
    | .ask handle d s =>
      if handle < w.handles.count then
        w.calls ++ [(Verdicts.observe destText srcText relation w.handles.verdicts d s).1]
      else w.calls
    | .copy _ => w.calls
    | .clear handle => if handle < w.handles.count then [] else w.calls

def watch (requests : List (Request δ σ)) : Watched δ σ ε :=
  requests.foldl (Watched.extend destText srcText relation) ⟨fresh, []⟩

variable {destText srcText relation}

theorem perform_ask {hs : Handles} {handle : Nat} (h : handle < hs.count) (d : δ) (s : σ) :
    hs.perform destText srcText relation (.ask handle d s) =
      (some (Verdicts.observe destText srcText relation hs.verdicts d s).1.answer,
        { hs with verdicts := (Verdicts.observe destText srcText relation hs.verdicts d s).2 }) := by
  -- the notes are written next to the verdicts, so no way through a call depends on them
  simp only [perform, h, if_true, Verdicts.observe, Verdicts.noting, memoized,
    Verdicts.run_getThe_bind]
  cases hs.verdicts.known[Verdicts.key destText srcText d s]? with
  | some verdict => rfl
  | none => cases relation d s with
    | ok verdict => rfl
    | error failure => rfl

theorem watch_concat (requests : List (Request δ σ)) (request : Request δ σ) :
    watch destText srcText relation (requests ++ [request]) =
      (watch destText srcText relation requests).extend destText srcText relation request := by
  simp [watch]

theorem Watched.extend_history {w : Watched δ σ ε} {history : History δ σ}
    (h : history = ⟨w.handles.count, w.calls.map Verdicts.Call.question⟩)
    (request : Request δ σ) :
    history.extend request =
      ⟨(w.extend destText srcText relation request).handles.count,
        (w.extend destText srcText relation request).calls.map Verdicts.Call.question⟩ := by
  subst h
  cases request with
  | ask handle d s =>
    by_cases hmade : handle < w.handles.count
    · simp only [History.extend, extend, perform_ask hmade, hmade, if_true, List.map_append]
      rfl
    · simp [History.extend, extend, perform, hmade]
  | copy handle =>
    by_cases hmade : handle < w.handles.count <;> simp [History.extend, extend, perform, hmade]
  | clear handle =>
    by_cases hmade : handle < w.handles.count <;> simp [History.extend, extend, perform, hmade]

theorem Watched.balanced_extend {w : Watched δ σ ε}
    (h : w.handles.verdicts.Balanced destText srcText relation w.calls) (request : Request δ σ) :
    (w.extend destText srcText relation request).handles.verdicts.Balanced destText srcText relation
      (w.extend destText srcText relation request).calls := by
  cases request with
  | ask handle d s =>
    by_cases hmade : handle < w.handles.count
    · simp only [extend, perform_ask hmade, hmade, if_true]
      exact h.concat (Verdicts.asked_observe destText srcText relation _ d s)
    · simpa [extend, perform, hmade] using h
  | copy handle =>
    by_cases hmade : handle < w.handles.count <;> simpa [extend, perform, hmade] using h
  | clear handle =>
    by_cases hmade : handle < w.handles.count
    · simpa [extend, perform, hmade] using Verdicts.balanced_none
    · simpa [extend, perform, hmade] using h

theorem watch_ask {requests : List (Request δ σ)} {handle : Nat}
    (h : handle < (watch destText srcText relation requests).handles.count) (d : δ) (s : σ) :
    watch destText srcText relation (requests ++ [.ask handle d s]) =
      let w := watch destText srcText relation requests
      ⟨(w.handles.perform destText srcText relation (.ask handle d s)).2,
        w.calls ++ [(Verdicts.observe destText srcText relation w.handles.verdicts d s).1]⟩ := by
  simp only [watch_concat, Watched.extend, h, if_true]

variable (destText srcText relation)

theorem watch_history (requests : List (Request δ σ)) :
    History.of requests =
      ⟨(watch destText srcText relation requests).handles.count,
        (watch destText srcText relation requests).calls.map Verdicts.Call.question⟩ := by
  induction requests using List.reverseRecOn with
  | nil => rfl
  | append_singleton requests request ih =>
    rw [watch_concat, History.of, List.foldl_append]
    exact Watched.extend_history ih request

theorem balanced_watch (requests : List (Request δ σ)) :
    (watch destText srcText relation requests).handles.verdicts.Balanced destText srcText relation
      (watch destText srcText relation requests).calls := by
  induction requests using List.reverseRecOn with
  | nil => exact Verdicts.balanced_none
  | append_singleton requests request ih =>
    rw [watch_concat]
    exact Watched.balanced_extend ih request

/-- Whatever is asked, copied and cleared through whichever handles, what is seen through any handle
fits the calls since the last time that all was cleared. One more call is answered as it is observed,
and if it fails then there is one more miss and all else is as before. -/
theorem watch_balanced (requests : List (Request δ σ)) (handle : Nat)
    (h : handle < (History.of requests).handles) :
    let w := watch destText srcText relation requests
    (∃ v, w.handles.see handle = some v ∧ v.Balanced destText srcText relation w.calls) ∧
      w.calls.map Verdicts.Call.question = (History.of requests).asked ∧
      ∀ d s, ∃ call : Verdicts.Call δ σ ε,
        let next := w.handles.perform destText srcText relation (.ask handle d s)
        watch destText srcText relation (requests ++ [.ask handle d s]) =
            ⟨next.2, w.calls ++ [call]⟩ ∧
          call.question = (d, s) ∧ next.1 = some call.answer ∧
          (call.returned = false →
            next.2 = { w.handles with verdicts := w.handles.verdicts.miss }) := by
  intro w
  have hhistory := watch_history destText srcText relation requests
  have hmade : handle < w.handles.count := by
    rw [hhistory] at h
    exact h
  have hbalanced := balanced_watch destText srcText relation requests
  refine ⟨⟨w.handles.verdicts, if_pos hmade, hbalanced⟩, ?_, ?_⟩
  · rw [hhistory]
  · intro d s
    have hasked := Verdicts.asked_observe destText srcText relation w.handles.verdicts d s
    refine ⟨_, watch_ask hmade d s, hasked.question_eq, ?_, ?_⟩
    · rw [perform_ask hmade]
    · intro hfailed
      rw [perform_ask hmade, hasked.eq_miss hfailed]

end Watch

/-- The question about twos fails, and is asked again after one that has the same key. -/
theorem watch_balanced_copy :
    let parity := fun n : Nat => toString (n % 2)
    let relation := fun d s : Nat => if d = 2 then Except.error () else .ok (d % 2 == s % 2)
    let requests := [.ask 0 1 3, .clear 0, .ask 0 2 2, .copy 0, .ask 1 4 6, .ask 0 2 2]
    let w := watch parity parity relation requests
    1 < (History.of requests).handles ∧
      ∃ v, w.handles.see 1 = some v ∧ v.Balanced parity parity relation w.calls ∧
        v.hits + v.misses = 3 := by
  intro parity relation requests w
  have hmade : 1 < (History.of requests).handles := by decide
  obtain ⟨⟨v, hsee, hbalanced⟩, hasked, _⟩ := watch_balanced parity parity relation requests 1 hmade
  have hcalls : w.calls.length = 3 := by
    rw [← List.length_map Verdicts.Call.question, hasked]
    decide
  exact ⟨hmade, v, hsee, hbalanced, hbalanced.total.trans hcalls⟩

end Handles

end SeqAlign
