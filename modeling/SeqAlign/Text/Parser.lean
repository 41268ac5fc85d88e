import SeqAlign.Item
import SeqAlign.Text.Report
import SeqAlign.Text.Scanner

/-!
# SeqAlign.Text.Parser

Reads the written form of a sequence.

    sequence  ::=  items  |  '[' items ']'
    items     ::=  any number of items and separators (';' or ','), in any order
    item      ::=  identifier quantifier?
    bounds    ::=  integer  |  integer? ':' integer?

A quantifier is one of the signs '*', '+', '?', or bounds in braces. A malformed item is reported
and skipped, and reading goes on with the next item.

* `Parsing`: a scanner with the reports filed so far.
* `Parsing.bound`, `Parsing.bounds`, `Parsing.quantifier`, `Parsing.item`: the parts of an item.
  A part that yields nothing has filed a report.
* `Parsing.sequence`: a whole sequence. What follows it is reported token by token.
* `parse`, `parseSingle`: the same for a whole text.

Every part leaves at most the work that it found (`weight_bounds_le` and its kind), and an item
leaves less (`weight_item_lt`), so reading ends.
-/

namespace SeqAlign.Text

def digitValue (c : Char) : UInt64 := UInt64.ofNat (c.toNat - '0'.toNat)

/-- Continues a decimal number from the value of the digits before. Reading stops as soon as the
value leaves the range of a bound, so that it stays far below the limit of 64 bits. -/
def readDigits (value : UInt64) : List Char → Option UInt32
  | [] => some value.toUInt32
  | c :: cs =>
    let value := value * 10 + digitValue c
    if value > 4294967295 then none else readDigits value cs

/-- Decimal value of a lexeme; none if it is no 32-bit number. -/
def readBound (lexeme : String) : Option UInt32 := readDigits 0 lexeme.toList

namespace Scanner

/-- Goes on to where an item may begin or end. -/
def toItemEnd (s : Scanner) : Scanner :=
  if _h : s.look.current.kind.stopsItem then s.look else toItemEnd s.look.advance
termination_by s.weight
decreasing_by
  have hk : s.look.current.kind ≠ .endOfInput := fun hk => by simp [hk, TokenKind.stopsItem] at _h
  exact Nat.lt_of_lt_of_le (weight_advance_lt hk) (weight_look_le s)

/-- Goes on behind the closing brace of malformed bounds. -/
def afterBounds (s : Scanner) : Scanner :=
  if s.look.current.kind = .closeBrace then s.look.advance
  else if _h : s.look.current.kind.stopsBounds then s.look
  else afterBounds s.look.advance
termination_by s.weight
decreasing_by
  have hk : s.look.current.kind ≠ .endOfInput := fun hk => by
    simp [hk, TokenKind.stopsBounds] at _h
  exact Nat.lt_of_lt_of_le (weight_advance_lt hk) (weight_look_le s)

theorem weight_toItemEnd_le (s : Scanner) : s.toItemEnd.weight ≤ s.weight := by
  fun_induction toItemEnd s with
  | case1 s h => exact weight_look_le s
  | case2 s h ih =>
    exact Nat.le_trans ih (Nat.le_trans (weight_advance_le _) (weight_look_le s))

theorem weight_afterBounds_le (s : Scanner) : s.afterBounds.weight ≤ s.weight := by
  fun_induction afterBounds s with
  | case1 s h => exact Nat.le_trans (weight_advance_le _) (weight_look_le s)
  | case2 s h1 h2 => exact weight_look_le s
  | case3 s h1 h2 ih =>
    exact Nat.le_trans ih (Nat.le_trans (weight_advance_le _) (weight_look_le s))

end Scanner

structure Parsing where
  scanner : Scanner
  diagnostics : Diagnostics

namespace Parsing

def look (p : Parsing) : Parsing := { p with scanner := p.scanner.look }

def current (p : Parsing) : Token := p.scanner.current

def advance (p : Parsing) : Parsing := { p with scanner := p.scanner.advance }

def file (p : Parsing) (r : Report) : Parsing :=
  { p with diagnostics := p.diagnostics.file r }

def toItemEnd (p : Parsing) : Parsing := { p with scanner := p.scanner.toItemEnd }

def afterBounds (p : Parsing) : Parsing := { p with scanner := p.scanner.afterBounds }

/-- One end of a quantifier. It may be left out before a colon or a closing brace; `none` inside
`some` stands for that. -/
def bound (p : Parsing) : Option Bound × Parsing :=
  let p := p.look
  match p.current.kind with
  | .colon | .closeBrace => (some none, p)
  | .integer =>
    match readBound p.current.lexeme with
    | some n => (some (some n), p.advance)
    | none => (none, p.advance.file (.about .boundOverflow p.current))
  | _ => (none, p.file (.about .expectedInteger p.current))

/-- The upper end after this lower end. A lower end alone is both; braces that name no bound at
all are malformed. -/
def upperBound (lo : Bound) (p : Parsing) : Option Bound × Parsing :=
  let p := p.look
  if p.current.kind = .colon then
    match p.advance.bound with
    | (some hi, p) => (some hi, p)
    | (none, p) => (none, p.afterBounds)
  else if lo.isSome then (some lo, p)
  else (none, (p.file (.about .expectedInteger p.current)).afterBounds)

/-- The closing brace after both ends. Ends that are the wrong way round are reported at the
first token of the bounds. -/
def closeBounds (opening first : Token) (lo hi : Bound) (p : Parsing) :
    Option Quantifier × Parsing :=
  let p := p.look
  if p.current.kind = .closeBrace then
    match Quantifier.ofBounds (lo.getD 0) hi with
    | .ok q => (some q, p.advance)
    | .error _ => (none, p.advance.file (.about .invertedBounds first))
  else (none, (p.file ((Report.about .expectedCloseBrace p.current).seeing opening)).toItemEnd)

/-- What follows an opening brace. -/
def bounds (opening : Token) (p : Parsing) : Option Quantifier × Parsing :=
  let p := p.look
  let first := p.current
  match p.bound with
  | (none, p) => (none, p.afterBounds)
  | (some lo, p) =>
    match p.upperBound lo with
    | (none, p) => (none, p)
    | (some hi, p) => p.closeBounds opening first lo hi

def quantifier (p : Parsing) : Option Quantifier × Parsing :=
  match p.current.kind with
  | .star => (some .zeroOrMore, p.advance)
  | .plus => (some .oneOrMore, p.advance)
  | .question => (some .optional, p.advance)
  | .openBrace => p.advance.bounds p.current
  | _ => (none, p.advance.file (.about .unexpectedToken p.current))

def item (p : Parsing) : Option (Item String) × Parsing :=
  let p := p.look
  if p.current.kind = .identifier then
    let label := p.current.lexeme
    let p := p.advance.look
    if p.current.kind.startsQuantifier then
      match p.quantifier with
      | (some q, p) => (some ⟨label, q⟩, p)
      | (none, p) => (none, p)
    else (some (.single label), p)
  else
    let complaint := if p.current.isUndefined then Complaint.strayByte else .expectedItem
    (none, (p.advance.file (.about complaint p.current)).toItemEnd)

/-! ## Every part makes progress -/

def weight (p : Parsing) : Nat := p.scanner.weight

theorem weight_look_le (p : Parsing) : p.look.weight ≤ p.weight := Scanner.weight_look_le _

theorem weight_advance_le (p : Parsing) : p.advance.weight ≤ p.weight :=
  Scanner.weight_advance_le _

theorem weight_advance_lt {p : Parsing} (h : p.current.kind ≠ .endOfInput) :
    p.advance.weight < p.weight := Scanner.weight_advance_lt h

theorem weight_file (p : Parsing) (r : Report) : (p.file r).weight = p.weight := rfl

theorem weight_toItemEnd_le (p : Parsing) : p.toItemEnd.weight ≤ p.weight :=
  Scanner.weight_toItemEnd_le _

theorem weight_afterBounds_le (p : Parsing) : p.afterBounds.weight ≤ p.weight :=
  Scanner.weight_afterBounds_le _

theorem weight_bound_le (p : Parsing) : p.bound.2.weight ≤ p.weight := by
  have h1 := weight_look_le p
  have h2 := weight_advance_le p.look
  unfold bound
  dsimp only
  split
  · exact h1
  · exact h1
  · split
    · exact Nat.le_trans h2 h1
    · exact Nat.le_trans h2 h1
  · exact h1

theorem weight_upperBound_le (lo : Bound) (p : Parsing) :
    (p.upperBound lo).2.weight ≤ p.weight := by
  have h1 := weight_look_le p
  have h2 := weight_advance_le p.look
  have h3 := weight_bound_le p.look.advance
  unfold upperBound
  dsimp only
  split
  · split
    · rename_i heq
      rw [heq] at h3
      dsimp only at h3 ⊢
      omega
    · rename_i q heq
      rw [heq] at h3
      have := weight_afterBounds_le q
      dsimp only at h3 ⊢
      omega
  · split
    · exact h1
    · exact Nat.le_trans (weight_afterBounds_le _) h1

theorem weight_closeBounds_le (opening first : Token) (lo hi : Bound) (p : Parsing) :
    (p.closeBounds opening first lo hi).2.weight ≤ p.weight := by
  have h1 := weight_look_le p
  have h2 := weight_advance_le p.look
  unfold closeBounds
  dsimp only
  split
  · split
    · exact Nat.le_trans h2 h1
    · exact Nat.le_trans h2 h1
  · exact Nat.le_trans (weight_toItemEnd_le _) h1

theorem weight_bounds_le (opening : Token) (p : Parsing) :
    (p.bounds opening).2.weight ≤ p.weight := by
  have h1 := weight_look_le p
  have h2 := weight_bound_le p.look
  unfold bounds
  dsimp only
  split
  · rename_i q heq
    rw [heq] at h2
    have := weight_afterBounds_le q
    dsimp only at h2 ⊢
    omega
  · rename_i lo q heq
    rw [heq] at h2
    have h3 := weight_upperBound_le lo q
    split
    · rename_i r heq
      rw [heq] at h3
      dsimp only at h2 h3 ⊢
      omega
    · rename_i hi r heq
      rw [heq] at h3
      have := weight_closeBounds_le opening p.look.current lo hi r
      dsimp only at h2 h3 ⊢
      omega

theorem weight_quantifier_le (p : Parsing) : p.quantifier.2.weight ≤ p.weight := by
  have h := weight_advance_le p
  unfold quantifier
  split
  · exact h
  · exact h
  · exact h
  · exact Nat.le_trans (weight_bounds_le _ _) h
  · exact h

theorem current_look (p : Parsing) : p.look.current = p.current := Scanner.current_look _

theorem weight_item_lt {p : Parsing} (h : p.current.kind ≠ .endOfInput) :
    p.item.2.weight < p.weight := by
  have h1 := weight_look_le p
  have h2 : p.look.advance.weight < p.look.weight :=
    weight_advance_lt (by rwa [current_look])
  have h3 := weight_look_le p.look.advance
  have h4 := weight_quantifier_le p.look.advance.look
  unfold item
  dsimp only
  split
  · split
    · split
      · rename_i heq
        rw [heq] at h4
        dsimp only at h4 ⊢
        omega
      · rename_i heq
        rw [heq] at h4
        dsimp only at h4 ⊢
        omega
    · dsimp only
      omega
  · have := weight_toItemEnd_le
      (p.look.advance.file
        (.about (if p.look.current.isUndefined then .strayByte else .expectedItem)
          p.look.current))
    rw [weight_file] at this
    dsimp only
    omega

/-- The items up to a closing bracket or the end of input. -/
def items (p : Parsing) : List (Item String) × Parsing :=
  if _h : p.current.kind = .endOfInput ∨ p.current.kind = .closeBracket then ([], p.look)
  else if p.current.kind.isSeparator then items p.look.advance
  else
    let first := p.item
    let rest := items first.2
    (first.1.toList ++ rest.1, rest.2)
termination_by p.weight
decreasing_by
  · have hk : p.look.current.kind ≠ .endOfInput := by
      rw [current_look]
      exact fun hk => _h (.inl hk)
    exact Nat.lt_of_lt_of_le (weight_advance_lt hk) (weight_look_le p)
  · exact weight_item_lt fun hk => _h (.inl hk)

/-- Reports every token up to the end of input. -/
def rejectRest (p : Parsing) : Parsing :=
  if _h : p.current.kind = .endOfInput then p.look
  else
    let complaint := if p.current.isUndefined then Complaint.strayByte else .unexpectedToken
    rejectRest
      (p.look.advance.file ((Report.about complaint p.current).expecting "end of input"))
termination_by p.weight
decreasing_by
  have hk : p.look.current.kind ≠ .endOfInput := by rwa [current_look]
  exact Nat.lt_of_lt_of_le (weight_advance_lt hk) (weight_look_le p)

/-- The closing bracket that belongs to this opening bracket. -/
def closeSequence (opening : Token) (p : Parsing) : Parsing :=
  let p := p.look
  if p.current.kind = .closeBracket then p.advance
  else p.file ((Report.about .expectedCloseBracket p.current).seeing opening)

def sequence (p : Parsing) : List (Item String) × Parsing :=
  let p := p.look
  if p.current.kind = .openBracket then
    let (items, q) := p.advance.items
    (items, (q.closeSequence p.current).rejectRest)
  else
    let (items, q) := p.items
    (items, q.rejectRest)

end Parsing

def parse (text : String) (diagnostics : Diagnostics) :
    List (Item String) × Diagnostics :=
  let (items, p) := Parsing.sequence ⟨.ofText text, diagnostics⟩
  (items, p.diagnostics)

/-- Exactly one item; anything that follows it is reported. -/
def parseSingle (text : String) (diagnostics : Diagnostics) :
    Option (Item String) × Diagnostics :=
  let (item?, p) := Parsing.item ⟨.ofText text, diagnostics⟩
  let p := p.look
  if p.current.kind = .endOfInput then (item?, p.diagnostics)
  else
    (none,
      (p.file ((Report.about .unexpectedToken p.current).expecting "end of input")).diagnostics)

end SeqAlign.Text
