import SeqAlign.Decimal

/-!
# SeqAlign.Printing

Plain text of values.

* `Output`: what is written to a stream of text. Truth values are words there, and a line can be
  ended.
* `Value`: what can be shown of a value of any kind. Truth values and bytes are numbers there, and
  a value that can be neither counted nor written is a question mark.
* `LabelText`: ways to write a label that has a plain text.
-/

namespace SeqAlign

/-- The text up to its first zero byte. -/
def untilZero (s : String) : String :=
  String.ofList (s.toList.takeWhile fun c => c != '\x00')

/-- The first byte of a text, or nothing. -/
def firstByte (s : String) : String := String.ofList (s.toList.take 1)

inductive Output where
  | text (s : String)
  | truth (b : Bool)
  | number (n : Int)
  | lineEnd

namespace Output

def render : Output → String
  | .text s => s
  | .truth b => if b then "true" else "false"
  | .number n => toString n
  | .lineEnd => "\n"

/-- What a stream holds after this output. -/
def stream (outputs : List Output) : String := String.join (outputs.map render)

end Output

inductive Value where
  | text (s : String)
  | byte (c : Char)
  | truth (b : Bool)
  | number (n : Int)
  | quotient (num den : Int)
  | point (x y : Int)
  | unknown

namespace Value

/-- A byte as a number of 8 bits with a sign. -/
def signedByte (c : Char) : Int := if c.toNat < 128 then c.toNat else (c.toNat : Int) - 256

def render : Value → String
  | .text s => s
  | .byte c => toString (signedByte c)
  | .truth b => if b then "1" else "0"
  | .number n => toString n
  | .quotient num den => Decimal.quotient num den
  | .point x y => "(" ++ toString x ++ "," ++ toString y ++ ")"
  | .unknown => "?"

end Value

inductive LabelText where
  | plain
  | angled
  | constant
  | initial

/-- Writes a label whose plain text is given. -/
def LabelText.render {α : Type} (plainText : α → String) (style : LabelText) (label : α) : String :=
  match style with
  | .plain => plainText label
  | .angled => "<" ++ plainText label ++ ">"
  | .constant => "_"
  | .initial => firstByte (plainText label)

end SeqAlign
