/-!
# SeqAlign.Ownership

Boxes that own objects. A box holds one object or none. Objects are known by their identity, so
that it can be said which one a box holds and which one has been destroyed.

* `Custody`: the boxes, and what has become of the objects that no box holds any more.
* `BoxOp`: the operations. An operation on a box that does not exist does nothing.
* `Custody.apply`: what an operation does. A box that is given a new object destroys the old one
  after it has taken the new one over.
-/

namespace SeqAlign

structure Object where
  id : Nat
  value : Int
  /-- A negated object reads as the negative of its value. -/
  negated : Bool
deriving DecidableEq

def Object.reading (o : Object) : Int := if o.negated then -o.value else o.value

structure Custody where
  boxes : List (Option Object)
  /-- Identity of the next object. -/
  created : Nat
  /-- Objects in the order of their destruction. -/
  destroyed : List Object
  /-- Objects that were handed out to the caller. -/
  released : List Object

inductive BoxOp where
  /-- A new box, after all others, that holds nothing. -/
  | add
  /-- A new box, after all others, that gets what this one holds. -/
  | addFrom (source : Nat)
  /-- The box gets a new object. -/
  | store (box : Nat) (value : Int) (negated : Bool)
  /-- The box gets nothing. -/
  | clear (box : Nat)
  /-- The first box gets what the second one holds. -/
  | transfer (box source : Nat)
  | swap (box other : Nat)
  /-- The object is handed out to the caller. -/
  | release (box : Nat)
  /-- The end of the box itself. -/
  | remove (box : Nat)
deriving DecidableEq

namespace Custody

/-- So many boxes that hold nothing. -/
def ofBoxes (n : Nat) : Custody := ⟨List.replicate n none, 0, [], []⟩

def held (c : Custody) (box : Nat) : Option Object := (c.boxes[box]?).join

/-- The box lets go of its object, which is not destroyed. -/
def vacate (c : Custody) (box : Nat) : Custody := { c with boxes := c.boxes.set box none }

/-- The box takes this over and destroys what it held before. -/
def reset (c : Custody) (box : Nat) (new : Option Object) : Custody :=
  { c with
    boxes := c.boxes.set box new
    destroyed := c.destroyed ++ (c.held box).toList }

/-- The caller destroys an object that was handed out. -/
def dispose (c : Custody) (o : Object) : Custody :=
  { c with
    released := c.released.erase o
    destroyed := c.destroyed ++ [o] }

def apply (c : Custody) : BoxOp → Custody
  | .add => { c with boxes := c.boxes ++ [none] }
  | .addFrom source =>
    if source < c.boxes.length then
      { c.vacate source with boxes := (c.vacate source).boxes ++ [c.held source] }
    else c
  | .store box value negated =>
    if box < c.boxes.length then
      { c with created := c.created + 1 }.reset box (some ⟨c.created, value, negated⟩)
    else c
  | .clear box => c.reset box none
  | .transfer box source =>
    if box < c.boxes.length ∧ source < c.boxes.length then
      (c.vacate source).reset box (c.held source)
    else c
  | .swap box other =>
    if box < c.boxes.length ∧ other < c.boxes.length then
      { c with boxes := (c.boxes.set box (c.held other)).set other (c.held box) }
    else c
  | .release box =>
    { c.vacate box with released := c.released ++ (c.held box).toList }
  | .remove box =>
    { c.reset box none with boxes := (c.reset box none).boxes.eraseIdx box }

def applyAll (c : Custody) (ops : List BoxOp) : Custody := ops.foldl apply c

/-- Both boxes hold the same object, or both hold nothing. -/
def sameHeld (c : Custody) (box other : Nat) : Bool :=
  (c.held box).map Object.id == (c.held other).map Object.id

end Custody

end SeqAlign
