import SeqAlign.Walk.State

/-!
# SeqAlign.Search.Event

What a search reports while it runs. Every event comes with the depth of the walk at which it
occurs.

* `Event`: the kinds of events, with what they are about.
* `Tracer`: receives the events. `Tracer.silent` drops them.
* `Event.text`: the line that describes an event.
-/

namespace SeqAlign

inductive Event (δ σ ρ : Type) where
  | opened (dest : List (Tracker δ)) (src : List (Tracker σ))
  /-- A state is visited, with what has been folded on the way to it. -/
  | entered (state : State δ σ) (value : ρ)
  /-- A limit is reached at this state. -/
  | abandoned (state : State δ σ)
  | knownDeadEnd
  | accepted
  /-- An item is left over that is required. -/
  | blocked (ended : Side)
  /-- The pairing that the walk stands on is not admitted. -/
  | refused (phase : Phase)
  /-- The pairing is admitted; the edges of these forks will be tried in turn. -/
  | proceeding (phase : Phase) (forks : List (Fork δ σ))
  /-- None of the edges led to the end. -/
  | exhausted
  | closed (dest : List (Tracker δ)) (src : List (Tracker σ)) (found : Option ρ)

/-- Receives the depth and the event. -/
abbrev Tracer (m : Type → Type) (δ σ ρ : Type) := Nat → Event δ σ ρ → m Unit

def Tracer.silent {m : Type → Type} [Monad m] {δ σ ρ : Type} : Tracer m δ σ ρ :=
  fun _ _ => pure ()

namespace Event

variable {δ σ ρ : Type}

/-- Both sequences, with the counts that the search starts from. -/
def heading (destText : δ → String) (srcText : σ → String) (dest : List (Tracker δ))
    (src : List (Tracker σ)) : String :=
  "[" ++ renderJoined (Tracker.render destText) dest ++ "] ==?== [" ++
    renderJoined (Tracker.render srcText) src ++ "]"

def stepText (destText : δ → String) (srcText : σ → String) (s : State δ σ) : String :=
  "step(" ++ toString s.destIndex ++ ": " ++ renderOr (Tracker.render destText) s.destTracker? ++
    ", " ++ toString s.srcIndex ++ ": " ++ renderOr (Tracker.render srcText) s.srcTracker? ++ ")"

def edgeText (e : Edge δ σ) : String :=
  " (" ++ toString e.dest.place.index ++ ", " ++ toString e.src.place.index ++ ")"

def text (destText : δ → String) (srcText : σ → String) (valueText : ρ → String) :
    Event δ σ ρ → String
  | .opened dest src => heading destText srcText dest src
  | .entered s _ => stepText destText srcText s
  | .abandoned _ => "[ABANDON] search limit reached"
  | .knownDeadEnd => "[REJECT] known dead end"
  | .accepted => "[ACCEPT] both sequences ended"
  | .blocked .dest => "[REJECT] dest ended, src item is required"
  | .blocked .src => "[REJECT] src ended, dest item is required"
  | .refused .inside => "[REJECT] items do not correspond"
  | .refused (.past .dest) => "[REJECT] dest ended, src item refused as empty"
  | .refused (.past .src) => "[REJECT] src ended, dest item refused as empty"
  | .proceeding .inside forks =>
    "* steps:" ++ String.join ((forks.flatMap Fork.edges).map edgeText)
  | .proceeding (.past .dest) _ => "* dest ended, src item matches zero"
  | .proceeding (.past .src) _ => "* src ended, dest item matches zero"
  | .exhausted => "[REJECT] no successor leads to a match"
  | .closed dest src found =>
    heading destText srcText dest src ++ " ==> " ++ renderOr valueText found

end Event

end SeqAlign
