/-!
# SeqAlign.View

Windows onto a shared list. A view holds no elements of its own: what is written through one view
shows in all views of the same place.

* `View`: where the window begins and how long it is.
* `View.contents`: the elements that the view shows.
* `View.put`: the list after a write through the view.
-/

namespace SeqAlign

structure View where
  offset : Nat
  length : Nat
deriving DecidableEq

namespace View

variable {α : Type}

def all (data : List α) : View := ⟨0, data.length⟩

/-- A view of nothing. -/
def none : View := ⟨0, 0⟩

def isEmpty (v : View) : Bool := v.length == 0

def contents (v : View) (data : List α) : List α := (data.drop v.offset).take v.length

def get? (v : View) (data : List α) (i : Nat) : Option α := data[v.offset + i]?

def front? (v : View) (data : List α) : Option α := v.get? data 0

def back? (v : View) (data : List α) : Option α := v.get? data (v.length - 1)

def put (v : View) (data : List α) (i : Nat) (x : α) : List α := data.set (v.offset + i) x

def popFront (v : View) : View := ⟨v.offset + 1, v.length - 1⟩

def popBack (v : View) : View := ⟨v.offset, v.length - 1⟩

/-- The part of a view from one index up to another. -/
def sub (v : View) (first last : Nat) : View := ⟨v.offset + first, last - first⟩

end View

end SeqAlign
