import SeqAlign.Text.Token

/-!
# SeqAlign.Text.Scanner

Splits a text into tokens, one at a time. Blanks and line breaks separate tokens and are
otherwise ignored. A byte that starts no token comes back as an undefined token, and scanning
goes on after it.

* `readToken`: the first token of a text and what is left after it. Tokens are as long as
  possible.
* `Scanner`: the text that has not been read, and a queue of tokens that have been read but not
  returned.
* `Scanner.next`, `Scanner.peek`: take the next token, or look at one ahead, which reads as far
  as it is needed.
* `Scanner.drain`, `scan`: all tokens that are left, or all tokens of a text.
* `Scanner.weight`: the work that is left; taking a token other than the end of input lowers it
  (`weight_advance_lt`), and looking ahead never raises it (`weight_look_le`).
-/

namespace SeqAlign.Text

def isBlank (c : Char) : Bool := c == ' ' || c == '\t'

def breaksLine (c : Char) : Bool := c == '\r' || c == '\n'

/-- A letter is one of the 52 letters of ASCII. -/
def startsIdentifier (c : Char) : Bool := c == '_' || c.isAlpha

def continuesIdentifier (c : Char) : Bool := startsIdentifier c || c.isDigit || c == '.'

def TokenKind.ofFirst (c : Char) : TokenKind :=
  match c with
  | '*' => .star
  | '+' => .plus
  | '?' => .question
  | '\x7b' => .openBrace
  | '\x7d' => .closeBrace
  | '[' => .openBracket
  | ']' => .closeBracket
  | ':' => .colon
  | ';' => .semicolon
  | ',' => .comma
  | c =>
    if startsIdentifier c then .identifier
    else if c.isDigit then .integer
    else .undefined

/-- The bytes that may follow in a token of this kind. -/
def TokenKind.continues : TokenKind → Char → Bool
  | .identifier => continuesIdentifier
  | .integer => Char.isDigit
  | _ => fun _ => false

/-- The text from its first token on, and where that is. A carriage return with a line feed is
one line break. -/
def skipBlanks : List Char → Location → List Char × Location
  | [], loc => ([], loc)
  | '\r' :: '\n' :: cs, loc => skipBlanks cs loc.nextLine
  | c :: cs, loc =>
    if breaksLine c then skipBlanks cs loc.nextLine
    else if isBlank c then skipBlanks cs (loc.right 1)
    else (c :: cs, loc)

/-- A token that has been read, what is left of the text, and where that begins. -/
structure Reading where
  token : Token
  rest : List Char
  location : Location

def readToken (text : List Char) (loc : Location) : Reading :=
  match skipBlanks text loc with
  | ([], loc) => ⟨.endOfInput loc, [], loc⟩
  | (c :: cs, loc) =>
    let kind := TokenKind.ofFirst c
    let lexeme := c :: cs.takeWhile kind.continues
    ⟨⟨kind, String.ofList lexeme, loc⟩, cs.dropWhile kind.continues, loc.right lexeme.length⟩

structure Scanner where
  text : List Char
  location : Location
  /-- Tokens read ahead, the next one first. -/
  queue : List Token
  /-- An undefined token has been read. -/
  hasError : Bool

namespace Scanner

def ofText (text : String) : Scanner := ⟨text.toList, .origin, [], false⟩

/-- Reads a token from the text, past the tokens that wait in the queue. -/
def read (s : Scanner) : Token × Scanner :=
  let r := readToken s.text s.location
  (r.token,
    { s with
      text := r.rest
      location := r.location
      hasError := s.hasError || r.token.isUndefined })

def next (s : Scanner) : Token × Scanner :=
  match s.queue with
  | t :: ts => (t, { s with queue := ts })
  | [] => s.read

/-- Reads this many tokens onto those read before; the last one comes first. -/
def readOnto : List Token → Nat → Scanner → List Token × Scanner
  | ts, 0, s => (ts, s)
  | ts, n + 1, s => readOnto (s.read.1 :: ts) n s.read.2

def fill (n : Nat) (s : Scanner) : Scanner :=
  let (ts, s) := readOnto s.queue.reverse n s
  { s with queue := ts.reverse }

/-- The token that comes after so many others. -/
def peek (s : Scanner) (ahead : Nat) : Token × Scanner :=
  match s.queue[ahead]? with
  | some t => (t, s)
  | none =>
    let s := s.fill (ahead + 1 - s.queue.length)
    (s.queue.getD ahead (.endOfInput s.location), s)

/-- All of the text has been read, blanks at the end included, and no token waits. -/
def isAtEnd (s : Scanner) : Bool := s.text.isEmpty && s.queue.isEmpty

def isGood (s : Scanner) : Bool := !s.isAtEnd && !s.hasError

def look (s : Scanner) : Scanner := (s.peek 0).2

def current (s : Scanner) : Token := s.next.1

def advance (s : Scanner) : Scanner := s.next.2

/-! ## What is left to do -/

/-- Bytes that have not been read, and tokens in the queue other than the end of input. -/
def weight (s : Scanner) : Nat :=
  s.text.length + s.queue.countP fun t => t.kind ≠ .endOfInput

theorem length_skipBlanks_le (text : List Char) (loc : Location) :
    (skipBlanks text loc).1.length ≤ text.length := by
  fun_induction skipBlanks text loc with
  | case1 => simp
  | case2 cs loc ih => simp only [List.length_cons]; omega
  | case3 c cs loc _ _ ih => simp only [List.length_cons]; omega
  | case4 c cs loc _ _ _ ih => simp only [List.length_cons]; omega
  | case5 => simp

theorem ofFirst_ne_endOfInput (c : Char) : TokenKind.ofFirst c ≠ .endOfInput := by
  unfold TokenKind.ofFirst
  split
  case h_11 =>
    split
    · simp
    · split <;> simp
  all_goals simp

/-- Reading a token other than the end of input consumes a byte. -/
theorem length_rest_readToken (text : List Char) (loc : Location) :
    (readToken text loc).rest.length +
      (if (readToken text loc).token.kind = .endOfInput then 0 else 1) ≤ text.length := by
  have h := length_skipBlanks_le text loc
  unfold readToken
  split
  · rename_i heq
    simp [Token.endOfInput]
  · rename_i c cs loc' heq
    rw [heq] at h
    have := (List.dropWhile_suffix (TokenKind.ofFirst c).continues (l := cs)).length_le
    simp only [ofFirst_ne_endOfInput, if_false, List.length_cons] at h ⊢
    omega

theorem weight_advance_lt {s : Scanner} (h : s.current.kind ≠ .endOfInput) :
    s.advance.weight < s.weight := by
  obtain ⟨text, loc, queue, err⟩ := s
  cases queue with
  | nil =>
    have hr := length_rest_readToken text loc
    have h : (readToken text loc).token.kind ≠ .endOfInput := h
    rw [if_neg h] at hr
    simp only [advance, next, read, weight, List.countP_nil]
    omega
  | cons t ts =>
    have h : t.kind ≠ .endOfInput := h
    simp [advance, next, weight, h]

theorem weight_advance_le (s : Scanner) : s.advance.weight ≤ s.weight := by
  obtain ⟨text, loc, queue, err⟩ := s
  cases queue with
  | nil =>
    have hr := length_rest_readToken text loc
    simp only [advance, next, read, weight, List.countP_nil]
    omega
  | cons t ts =>
    simp only [advance, next, weight, List.countP_cons]
    omega

theorem look_of_queue_ne_nil {s : Scanner} (h : s.queue ≠ []) : s.look = s := by
  obtain ⟨text, loc, queue, err⟩ := s
  cases queue with
  | nil => exact absurd rfl h
  | cons t ts => rfl

theorem look_of_queue_eq_nil {s : Scanner} (h : s.queue = []) :
    s.look = { s.read.2 with queue := [s.read.1] } := by
  obtain ⟨text, loc, queue, err⟩ := s
  obtain rfl : queue = [] := h
  rfl

theorem current_look (s : Scanner) : s.look.current = s.current := by
  by_cases h : s.queue = []
  · rw [look_of_queue_eq_nil h]
    simp [current, next, h]
  · rw [look_of_queue_ne_nil h]

theorem weight_look_le (s : Scanner) : s.look.weight ≤ s.weight := by
  by_cases h : s.queue = []
  · rw [look_of_queue_eq_nil h]
    have hr := length_rest_readToken s.text s.location
    have hc : List.countP (fun t : Token => t.kind ≠ .endOfInput)
        [(readToken s.text s.location).token] =
          if (readToken s.text s.location).token.kind = .endOfInput then 0 else 1 := by
      by_cases hk : (readToken s.text s.location).token.kind = .endOfInput <;> simp [hk]
    rw [← hc] at hr
    exact Nat.le_trans hr (Nat.le_add_right _ _)
  · exact Nat.le_of_eq (congrArg weight (look_of_queue_ne_nil h))

/-- The tokens up to and including the end of input. -/
def drain (s : Scanner) : List Token × Scanner :=
  if _h : s.current.kind = .endOfInput then ([s.current], s.advance)
  else
    let rest := s.advance.drain
    (s.current :: rest.1, rest.2)
termination_by s.weight
decreasing_by exact weight_advance_lt _h

end Scanner

/-- All tokens of a text; the last one is the end of input. -/
def scan (text : String) : List Token := (Scanner.ofText text).drain.1

end SeqAlign.Text
