import SeqAlign.Search.Alignment
import SeqAlign.Text.Parser
import SeqAlign.Trace
import SeqAlign.Verdicts

/-!
# SeqAlign.Session

Searches that may fail, remember verdicts and write a trace.

* `Fault`: why a session ends early.
* `Session`: a computation with these effects. What has been counted and written before a fault
  stays.
* `readSequence`: the sequence that a text describes; the first report is a fault.
* `nestedMatch`: a relation of two labels that are written sequences themselves. Its own search
  is traced with a deeper indent.
-/

namespace SeqAlign

inductive Fault where
  /-- A function of the caller failed. -/
  | raised (message : String)
  | invertedBounds (cause : InvertedBounds)
  | noSuchReport (cause : Text.NoSuchReport)
  | malformed (report : Text.Report)

namespace Fault

def message : Fault → String
  | .raised message => message
  | .invertedBounds cause => cause.message
  | .noSuchReport cause => cause.message
  | .malformed report => report.render

end Fault

/-- What a session leaves behind. -/
structure Transcript where
  verdicts : Verdicts
  trace : Trace.Buffer

abbrev Session := ExceptT Fault (StateT Verdicts (StateM Trace.Buffer))

/-- Runs a session from an empty transcript. -/
def Session.run {α : Type} (session : Session α) : Except Fault α × Transcript :=
  let ((result, verdicts), trace) := ((ExceptT.run session).run .none).run .empty
  (result, ⟨verdicts, trace⟩)

/-- The tracer of a session, or none. -/
def Session.tracer {δ σ ρ : Type} (indent : Option Nat) (destText : δ → String)
    (srcText : σ → String) (valueText : ρ → String) : Tracer Session δ σ ρ :=
  match indent with
  | none => .silent
  | some indent => Trace.tracer indent destText srcText valueText

def readSequence (text : String) : Except Fault (List (Item String)) :=
  let (items, diagnostics) := Text.parse text .empty
  match diagnostics.reports with
  | [] => .ok items
  | report :: _ => .error (.malformed report)

/-- The indent is that of the outer search, if that one is traced. -/
def nestedMatch (indent : Option Nat) (d s : String) : Session Bool := do
  let dest ← MonadExcept.ofExcept (readSequence d)
  let src ← MonadExcept.ofExcept (readSequence s)
  let relation (a b : String) : Session Bool := pure (a == b)
  let tracer := Session.tracer (indent.map (· + 2)) id id (existence relation).render
  return (← hasAlignment relation {} tracer dest src).1

end SeqAlign
