/-!
# SeqAlign.Quantifier

Repetition bounds of a sequence item: how many elements of the opposing sequence the item may
stand for, at least `min` and at most `max`. An absent `max` is unbounded.

* `Quantifier`: the bounds, with a proof that they are in order.
* `Quantifier.between`, `Quantifier.ofBounds`: checked constructors, which refuse bounds that
  are the wrong way round (`InvertedBounds`).
* `Quantifier.hull`, `Quantifier.relaxed`: wider bounds made of given ones.
* `Quantifier.suffix`: the written form that follows a label.
-/

namespace SeqAlign

/-- Upper end of a quantifier; `none` is unbounded. -/
abbrev Bound := Option UInt32

structure Quantifier where
  min : UInt32
  max : Bound
  min_le_max : ∀ m, max = some m → min ≤ m
deriving DecidableEq

structure InvertedBounds where
  min : UInt32
  max : UInt32
deriving DecidableEq, Repr

def InvertedBounds.message (e : InvertedBounds) : String :=
  "quantifier minimum " ++ toString e.min.toNat ++ " exceeds maximum " ++ toString e.max.toNat

namespace Quantifier

/-- Exactly one occurrence, the bounds of a plain item. -/
def one : Quantifier := ⟨1, some 1, by simp⟩

def optional : Quantifier := ⟨0, some 1, by simp⟩

def zeroOrMore : Quantifier := ⟨0, none, by simp⟩

def oneOrMore : Quantifier := ⟨1, none, by simp⟩

def atLeast (n : UInt32) : Quantifier := ⟨n, none, by simp⟩

def exactly (n : UInt32) : Quantifier := ⟨n, some n, by simp⟩

def upTo (n : UInt32) : Quantifier := ⟨0, some n, by simp⟩

def between (lo hi : UInt32) : Except InvertedBounds Quantifier :=
  if h : lo ≤ hi then
    .ok ⟨lo, some hi, by simpa using h⟩
  else
    .error ⟨lo, hi⟩

def ofBounds (lo : UInt32) : Bound → Except InvertedBounds Quantifier
  | none => .ok (atLeast lo)
  | some hi => between lo hi

def isBounded (q : Quantifier) : Bool := q.max.isSome

/-- More than one occurrence, or an optional single occurrence. -/
def isRepeated (q : Quantifier) : Bool :=
  match q.max with
  | none => true
  | some m => m > 1 || (m == 1 && q.min == 0)

/-- Written after a label: nothing for exactly one, then the three signs, and for all other
bounds both ends in braces. -/
def suffix (q : Quantifier) : String :=
  if q.min = 1 ∧ q.max = some 1 then ""
  else if q.min = 0 ∧ q.max = none then "*"
  else if q.min = 1 ∧ q.max = none then "+"
  else if q.min = 0 ∧ q.max = some 1 then "?"
  else
    "\x7b" ++ toString q.min.toNat ++ ":" ++
      (match q.max with
        | none => ""
        | some m => toString m.toNat) ++ "\x7d"

def hull (p q : Quantifier) : Quantifier where
  min := if p.min ≤ q.min then p.min else q.min
  max :=
    match p.max, q.max with
    | some m, some n => some (if m ≤ n then n else m)
    | _, _ => none
  min_le_max := by
    obtain ⟨lo, hi, h⟩ := p
    obtain ⟨lo', hi', h'⟩ := q
    intro m hm
    cases hi with
    | none => simp at hm
    | some hi =>
      cases hi' with
      | none => simp at hm
      | some hi' =>
        have h1 := UInt32.le_iff_toNat_le.1 (h hi rfl)
        have h2 := UInt32.le_iff_toNat_le.1 (h' hi' rfl)
        obtain rfl := Option.some.inj hm
        simp only [UInt32.le_iff_toNat_le]
        split <;> split <;> omega

/-- The same maximum, and no minimum. -/
def relaxed (q : Quantifier) : Quantifier := ⟨0, q.max, by simp⟩

/-! ## Checked construction -/

theorem between_of_le {lo hi : UInt32} (h : lo ≤ hi) :
    between lo hi = .ok ⟨lo, some hi, by simpa using h⟩ := by
  simp [between, h]

theorem ofBounds_self (q : Quantifier) : ofBounds q.min q.max = .ok q := by
  obtain ⟨lo, hi, h⟩ := q
  cases hi with
  | none => rfl
  | some hi => exact between_of_le (h hi rfl)

theorem ofBounds_eq_ok {lo : UInt32} {hi : Bound} {q : Quantifier} :
    ofBounds lo hi = .ok q ↔ q.min = lo ∧ q.max = hi := by
  constructor
  · intro h
    cases hi with
    | none =>
      cases h
      exact ⟨rfl, rfl⟩
    | some hi =>
      simp only [ofBounds, between] at h
      split at h
      · cases h
        exact ⟨rfl, rfl⟩
      · cases h
  · rintro ⟨rfl, rfl⟩
    exact ofBounds_self q

end Quantifier

end SeqAlign
