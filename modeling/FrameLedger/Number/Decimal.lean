import FrameLedger.Number.Binary64

/-!
# Decimal numbers

Decimal texts as exact numbers, and the double nearest to one. A text of digits stands for the fold
of its digits; a fraction lowers the exponent by its length.
-/

namespace FrameLedger

/-- The number `± coefficient * 10 ^ exponent`. -/
structure Decimal where
  negative : Bool
  coefficient : Nat
  exponent : Int
deriving DecidableEq, Inhabited

namespace Decimal

/-- The double nearest to a decimal. Exponents beyond the range of doubles are answered before any
power of ten is formed: `c * 10 ^ e` is below `10 ^ (log₂ c + 1 + e)`. -/
def toFloat (d : Decimal) : Float :=
  if d.coefficient = 0 then Binary64.ofMagnitudeBits d.negative 0
  else if 400 < d.exponent then Binary64.ofMagnitudeBits d.negative (2047 * Nat.pow 2 52)
  else if d.exponent + d.coefficient.log2 < -400 then Binary64.ofMagnitudeBits d.negative 0
  else if 0 ≤ d.exponent then
    Binary64.ofRatio d.negative (d.coefficient * Nat.pow 10 d.exponent.toNat) 1
  else Binary64.ofRatio d.negative d.coefficient (Nat.pow 10 (-d.exponent).toNat)

end Decimal

namespace Digits

def value (c : Char) : Nat := c.toNat - '0'.toNat

/-- The number a list of decimal digits stands for. -/
def toNat (ds : List Char) : Nat := ds.foldl (fun n c => 10 * n + value c) 0

/-- The leading digits of a text, and what follows them. -/
def split (cs : List Char) : List Char × List Char :=
  (cs.takeWhile Char.isDigit, cs.dropWhile Char.isDigit)

end Digits

/-- The parts of a decimal text: a sign, digits before and after the point, and the exponent. -/
structure DecimalText where
  negative : Bool
  whole : List Char
  fraction : List Char
  exponent : Int
deriving DecidableEq, Inhabited

namespace DecimalText

def toDecimal (t : DecimalText) : Decimal :=
  ⟨t.negative, Digits.toNat (t.whole ++ t.fraction), t.exponent - t.fraction.length⟩

/-- An exponent with its digits, when the text is one. -/
def readExponent? : List Char → Option Int
  | '-' :: cs => (digits? cs).map fun n => -(n : Int)
  | '+' :: cs => (digits? cs).map Int.ofNat
  | cs => (digits? cs).map Int.ofNat
where
  digits? (cs : List Char) : Option Nat :=
    if cs.isEmpty || !cs.all Char.isDigit then none else some (Digits.toNat cs)

/-- Digits with at most one point, at least one digit, and an optional exponent. -/
def readUnsigned? (negative : Bool) (cs : List Char) : Option DecimalText :=
  let (whole, rest) := Digits.split cs
  let (fraction, rest) :=
    match rest with
    | '.' :: r => Digits.split r
    | r => ([], r)
  if whole.isEmpty && fraction.isEmpty then none
  else
    match rest with
    | [] => some ⟨negative, whole, fraction, 0⟩
    | c :: r =>
      if c == 'e' || c == 'E' then (readExponent? r).map (⟨negative, whole, fraction, ·⟩) else none

end DecimalText

/-- Reads the text of a number: a decimal, or `inf`, `infinity`, `nan` in any case, after an
optional sign. The whole text counts. -/
def readFloat? (s : String) : Option Float :=
  match s.toList with
  | '-' :: cs => unsigned? true cs
  | '+' :: cs => unsigned? false cs
  | cs => unsigned? false cs
where
  unsigned? (negative : Bool) (cs : List Char) : Option Float :=
    let word := cs.map Char.toLower
    if word = "inf".toList || word = "infinity".toList then
      some (Binary64.ofMagnitudeBits negative (2047 * Nat.pow 2 52))
    else if word = "nan".toList then some (0.0 / 0.0)
    else (DecimalText.readUnsigned? negative cs).map fun t => t.toDecimal.toFloat

end FrameLedger
