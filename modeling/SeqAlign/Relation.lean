import SeqAlign.Item

/-!
# SeqAlign.Relation

Relations of labels and merges of items that are useful in many places.

* `Relation.listed`, `Relation.lowered`, `Relation.startsWith`, `Relation.sameParity`: relations
  beside equality and order.
* `Relation.failingOn`: a relation that fails on certain pairs instead of answering.
* `Merging.equal`, `Merging.widen`, `Merging.keep`, `Merging.hull`, `Merging.tagged`: ways to
  find the common item of two items, either of which may be absent.
* `Merging.failingOn`: a merge that fails when it meets a certain label.
-/

namespace SeqAlign

namespace Relation

def listed {δ σ : Type} [DecidableEq δ] [DecidableEq σ] (pairs : List (δ × σ)) (d : δ) (s : σ) :
    Bool :=
  (d, s) ∈ pairs

/-- Both texts have one length, and each byte of the second is 32 above that of the first. -/
def lowered (d s : String) : Bool :=
  d.toList.map (fun c => c.toNat + 32) == s.toList.map Char.toNat

def startsWith (d s : String) : Bool := d.toList.isPrefixOf s.toList

def sameParity (d s : Int) : Bool := (d - s) % 2 == 0

/-- Fails on these pairs before the relation is asked. -/
def failingOn {m : Type → Type} [Monad m] {ε : Type} [MonadExcept ε m] {δ σ : Type}
    [DecidableEq δ] [DecidableEq σ] (failure : ε) (pairs : List (δ × σ))
    (relation : δ → σ → m Bool) (d : δ) (s : σ) : m Bool :=
  if (d, s) ∈ pairs then throw failure else relation d s

end Relation

namespace Merging

variable {α : Type} [DecidableEq α]

/-- The label of two present items with equal labels, once. -/
def equal : Option (Item α) → Option (Item α) → Option (Item α)
  | some d, some s => if d.label = s.label then some (.single d.label) else none
  | _, _ => none

/-- This label, any number of times, if a present item has it. -/
def widen (label : α) (d s : Option (Item α)) : Option (Item α) :=
  if d.map Item.label = some label ∨ s.map Item.label = some label then
    some ⟨label, .zeroOrMore⟩
  else none

/-- The dest item of two with equal labels, or the only item that is present. -/
def keep : Option (Item α) → Option (Item α) → Option (Item α)
  | some d, some s => if d.label = s.label then some d else none
  | some d, none => some d
  | none, s => s

/-- Equal labels with the bounds of both; an item alone may also be absent. -/
def hull : Option (Item α) → Option (Item α) → Option (Item α)
  | some d, some s =>
    if d.label = s.label then some ⟨d.label, d.quantifier.hull s.quantifier⟩ else none
  | some d, none => some ⟨d.label, d.quantifier.relaxed⟩
  | none, some s => some ⟨s.label, s.quantifier.relaxed⟩
  | none, none => none

/-- The src label if it is the lowered dest label; an item alone is tagged with its side. -/
def tagged : Option (Item String) → Option (Item String) → Option (Item String)
  | some d, some s => if Relation.lowered d.label s.label then some (.single s.label) else none
  | some d, none => some (.single ("d_" ++ d.label))
  | none, some s => some (.single ("s_" ++ s.label))
  | none, none => none

/-- The dest item of two present ones; fails if a present item has this label. -/
def failingOn {m : Type → Type} [Monad m] {ε : Type} [MonadExcept ε m] (failure : ε) (label : α)
    (d s : Option (Item α)) : m (Option (Item α)) :=
  if d.map Item.label = some label ∨ s.map Item.label = some label then throw failure
  else pure (if s.isSome then d else none)

end Merging

end SeqAlign
