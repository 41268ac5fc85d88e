/-!
# SeqAlign.Text.Token

Tokens of the written form of a sequence. Text is a sequence of bytes; every character stands for
one byte.

* `TokenKind`: the kinds, with their names (`TokenKind.name`).
* `Location`: line and column, both counted from 1 in 32 bits.
* `Token`: a kind with its lexeme and the location of its first byte.
-/

namespace SeqAlign.Text

inductive TokenKind where
  /-- A byte that starts no token. -/
  | undefined
  | endOfInput
  | identifier
  | integer
  | star
  | plus
  | question
  | openBrace
  | closeBrace
  | openBracket
  | closeBracket
  | colon
  | semicolon
  | comma
deriving DecidableEq

namespace TokenKind

def all : List TokenKind :=
  [.undefined, .endOfInput, .identifier, .integer, .star, .plus, .question, .openBrace,
    .closeBrace, .openBracket, .closeBracket, .colon, .semicolon, .comma]

def name : TokenKind → String
  | .undefined => "undefined"
  | .endOfInput => "end of input"
  | .identifier => "identifier"
  | .integer => "integer"
  | .star => "star"
  | .plus => "plus"
  | .question => "question"
  | .openBrace => "openBrace"
  | .closeBrace => "closeBrace"
  | .openBracket => "openBracket"
  | .closeBracket => "closeBracket"
  | .colon => "colon"
  | .semicolon => "semicolon"
  | .comma => "comma"

/-- A quantifier begins here. -/
def startsQuantifier : TokenKind → Bool
  | .star | .plus | .question | .openBrace => true
  | _ => false

def isSeparator : TokenKind → Bool
  | .semicolon | .comma => true
  | _ => false

/-- A malformed item ends before such a token. -/
def stopsItem : TokenKind → Bool
  | .identifier | .semicolon | .comma | .closeBracket | .endOfInput => true
  | _ => false

/-- Malformed bounds without a closing brace end before such a token. -/
def stopsBounds : TokenKind → Bool
  | .semicolon | .comma | .closeBracket | .endOfInput => true
  | _ => false

end TokenKind

structure Location where
  line : UInt32
  column : UInt32
deriving DecidableEq

namespace Location

def origin : Location := ⟨1, 1⟩

def right (loc : Location) (n : Nat) : Location :=
  { loc with column := loc.column + UInt32.ofNat n }

def nextLine (loc : Location) : Location := ⟨loc.line + 1, 1⟩

def render (loc : Location) : String :=
  toString loc.line.toNat ++ ":" ++ toString loc.column.toNat

end Location

structure Token where
  kind : TokenKind
  lexeme : String
  location : Location
deriving DecidableEq

namespace Token

/-- The end of the text; its lexeme is empty. -/
def endOfInput (loc : Location) : Token := ⟨.endOfInput, "", loc⟩

def isUndefined (t : Token) : Bool := t.kind == .undefined

end Token

end SeqAlign.Text
