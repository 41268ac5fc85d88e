import SeqAlign.Quantifier

/-!
# SeqAlign.Item

The elements of a quantified sequence.

* `Item`: a label with a quantifier.
* `Entry`: an item at its position. Two equal items at different positions of one sequence are
  different entries.
* `Tracker`: an entry together with the number of times a walk has matched it so far.

Labels are written by a function of the caller (`text : α → String`); the written forms of an
absent item and an absent tracker are the same word.
-/

namespace SeqAlign

structure Item (α : Type) where
  label : α
  quantifier : Quantifier
deriving DecidableEq

namespace Item

variable {α : Type}

def single (label : α) : Item α := ⟨label, .one⟩

def ofBounds (label : α) (lo : UInt32) (hi : Bound) : Except InvertedBounds (Item α) :=
  (Quantifier.ofBounds lo hi).map (Item.mk label)

def isRepeated (item : Item α) : Bool := item.quantifier.isRepeated

def render (text : α → String) (item : Item α) : String :=
  text item.label ++ item.quantifier.suffix

end Item

structure Entry (α : Type) where
  position : Nat
  item : Item α
deriving DecidableEq

structure Tracker (α : Type) where
  entry : Entry α
  count : UInt32
deriving DecidableEq

namespace Tracker

variable {α : Type}

def item (t : Tracker α) : Item α := t.entry.item

def label (t : Tracker α) : α := t.item.label

/-- Another match would stay within the maximum. -/
def hasMore (t : Tracker α) : Bool :=
  match t.item.quantifier.max with
  | none => true
  | some m => t.count < m

/-- The item may match nothing at all. -/
def isSkippable (t : Tracker α) : Bool := t.item.quantifier.min == 0

/-- One more match has been counted; the count wraps at 32 bits. -/
def matched (t : Tracker α) : Tracker α := { t with count := t.count + 1 }

/-- The count is written after an item that can match more than once. -/
def render (text : α → String) (t : Tracker α) : String :=
  let counted :=
    match t.item.quantifier.max with
    | none => true
    | some m => m > 1
  t.item.render text ++ if counted then ".[" ++ toString t.count.toNat ++ "]" else ""

end Tracker

def absentText : String := "undefined"

def renderOr {β : Type} (render : β → String) : Option β → String
  | none => absentText
  | some x => render x

def renderJoined {β : Type} (render : β → String) (xs : List β) : String :=
  ";".intercalate (xs.map render)

variable {α : Type}

def entries (items : List (Item α)) : List (Entry α) := items.mapIdx Entry.mk

/-- One tracker for each item of a sequence; nothing has been matched yet. -/
def freshTrackers (items : List (Item α)) : List (Tracker α) :=
  (entries items).map fun e => ⟨e, 0⟩

end SeqAlign
