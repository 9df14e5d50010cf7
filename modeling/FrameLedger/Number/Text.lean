import FrameLedger.Number.Shortest

/-!
# Texts of numbers

Two formats are written from the shortest digits of a double. `displayNumber` is how values and
printed trees show it: integers below `10 ^ 21` through 64 bits, all else in positional notation.
`Dump.number?` is how a dump stores it: it keeps the sign of zero and always tells a double from an
integer.
-/

namespace FrameLedger

namespace Positional

/-- The digits of `digits * 10 ^ k` with a point where one is needed. -/
def render (digits : String) (k : Int) : String :=
  let n := digits.length
  if 0 ≤ k then digits ++ "".pushn '0' k.toNat
  else
    let places := (-k).toNat
    if places < n then
      String.ofList (digits.toList.take (n - places)) ++ "."
        ++ String.ofList (digits.toList.drop (n - places))
    else "0." ++ "".pushn '0' (places - n) ++ digits

end Positional

private def signed (negative : Bool) (s : String) : String := if negative then "-" ++ s else s

/-- An integer below `10 ^ 21` is shown within the range of 64 bits, so negative zero shows `0` and
`10 ^ 20` shows the largest such integer; any other number has its shortest digits in full. -/
def displayNumber (x : Float) : String :=
  match Binary64.ofFloat x with
  | .nan => "NaN"
  | .infinite negative => signed negative "Infinity"
  | b@(.finite negative m e) =>
    if b.toInt?.any (·.natAbs < Nat.pow 10 21) then toString b.clampInt64
    else
      let (digits, k) := shortest .up m e
      signed negative (Positional.render (toString digits) k)

namespace Dump

/-- The exponents of the leading digit that are written in positional notation. -/
def positional (e : Int) : Bool := -5 ≤ e && e < 16

/-- One digit, the rest behind a point, and the exponent with its sign. -/
def scientific (digits : String) (e : Int) : String :=
  let rest := digits.toList.drop 1
  String.ofList (digits.toList.take 1)
    ++ (if rest.isEmpty then "" else "." ++ String.ofList rest)
    ++ "e" ++ (if e < 0 then "-" else "+") ++ toString e.natAbs

/-- A finite number; `none` for the others, which have no text. -/
def number? (x : Float) : Option String :=
  match Binary64.ofFloat x with
  | .finite negative m e =>
    let (n, k) := shortest .even m e
    let digits := toString n
    let lead : Int := digits.length - 1 + k
    some <| signed negative <|
      if positional lead then
        if 0 ≤ k then Positional.render digits k ++ ".0" else Positional.render digits k
      else scientific digits lead
  | _ => none

end Dump

end FrameLedger
