import SeqAlign.Search.Event

/-!
# SeqAlign.Trace

Lines of a trace.

* `Trace.formatLine`: the layout of a line. The indent belongs to the whole search, the dashes
  count the depth of the walk.
* `Trace.Buffer`: lines in the order in which they came, with questions about their contents.
* `Trace.stream`: lines as one text, each ended by a line feed.
* `Trace.tracer`: writes the events of a search into the buffer of a monad.
-/

namespace SeqAlign.Trace

def formatLine (indent depth : Nat) (text : String) : String :=
  String.ofList (List.replicate indent ' ') ++ "[acc_sequence] " ++
    String.ofList (List.replicate depth '-') ++ text

/-- The first text is a contiguous part of the second. -/
def occursIn (part : List Char) : List Char → Bool
  | [] => part.isEmpty
  | c :: cs => part.isPrefixOf (c :: cs) || occursIn part cs

structure Buffer where
  lines : Array String

namespace Buffer

def empty : Buffer := ⟨#[]⟩

def push (b : Buffer) (line : String) : Buffer := ⟨b.lines.push line⟩

/-- The number of lines in which the fragment occurs. -/
def count (b : Buffer) (fragment : String) : Nat :=
  b.lines.toList.countP fun line => occursIn fragment.toList line.toList

def contains (b : Buffer) (fragment : String) : Bool := b.count fragment != 0

end Buffer

def stream (lines : List String) : String := String.join (lines.map (· ++ "\n"))

def tracer {m : Type → Type} [Monad m] [MonadStateOf Buffer m] {δ σ ρ : Type} (indent : Nat)
    (destText : δ → String) (srcText : σ → String) (valueText : ρ → String) : Tracer m δ σ ρ :=
  fun depth event => modifyThe Buffer fun b =>
    b.push (formatLine indent depth (event.text destText srcText valueText))

end SeqAlign.Trace
