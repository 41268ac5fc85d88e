/-!
# SeqAlign.Decimal

Quotients in decimal with a fixed number of places. The quotient is computed in double precision
first, and the decimal digits are those of the double, rounded exactly.

* `roundHalfEven`: the integer nearest to a fraction; a tie goes to the even one.
* `Fraction.toDouble`: the nearest fraction with a significand of 53 bits.
* `Decimal.quotient`: the text of a quotient of two integers.
-/

namespace SeqAlign

/-- The integer nearest to `num / den`; of two the even one. -/
def roundHalfEven (num den : Nat) : Nat :=
  let q := num / den
  let r := num % den
  if 2 * r < den then q
  else if 2 * r = den then q + q % 2
  else q + 1

structure Fraction where
  num : Nat
  den : Nat

namespace Fraction

def ofNat (n : Nat) : Fraction := ⟨n, 1⟩

def div (x y : Fraction) : Fraction := ⟨x.num * y.den, x.den * y.num⟩

def scale (x : Fraction) : Int → Fraction
  | .ofNat e => ⟨x.num * Nat.pow 2 e, x.den⟩
  | .negSucc e => ⟨x.num, x.den * Nat.pow 2 (e + 1)⟩

/-- Rounded to a significand of 53 bits. The exponent is one of two candidates, since the
logarithms of both parts are rounded down. Zero stays zero; fractions of 64-bit integers never
leave the range of the exponent. -/
def toDouble (x : Fraction) : Fraction :=
  let e : Int := (x.num.log2 : Int) - x.den.log2 - 52
  let wide := x.scale (-e)
  let e := if wide.num / wide.den < Nat.pow 2 52 then e - 1 else e
  let significand := x.scale (-e)
  (ofNat (roundHalfEven significand.num significand.den)).scale e

end Fraction

namespace Decimal

def places : Nat := 6

def fixed (x : Fraction) : String :=
  let one := Nat.pow 10 places
  let units := roundHalfEven (x.num * one) x.den
  let decimals := toString (units % one)
  toString (units / one) ++ "." ++
    String.ofList (List.replicate (places - decimals.length) '0') ++ decimals

/-- The quotient of two integers, both of them and the quotient rounded to double precision. A
zero keeps the sign of the quotient. Over zero stands an infinity, or no number at all. -/
def quotient (n d : Int) : String :=
  let sign := if (n < 0) != (d < 0) then "-" else ""
  if d = 0 then
    if n = 0 then "-nan" else sign ++ "inf"
  else
    let num := (Fraction.ofNat n.natAbs).toDouble
    let den := (Fraction.ofNat d.natAbs).toDouble
    sign ++ fixed (num.div den).toDouble

end Decimal

end SeqAlign
