import FrameLedger.Number.Binary64

/-!
# Shortest decimals

The shortest decimal of a double is the one with the fewest digits among those that round to it, and
the nearest of these. The decimal grids are tried from the coarsest: on each, only the two
neighbours of the value can lie in the interval of reals that round to it, whose ends belong to it
when the significand is even.
-/

namespace FrameLedger

/-- Which of two equally near decimals is taken. -/
inductive Tie where
  | up
  | even
deriving DecidableEq, Inhabited

namespace Shortest

/-- A value and the ends of its interval, as multiples of `10 ^ k` over one denominator. -/
structure Scaled where
  low : Nat
  value : Nat
  high : Nat
  unit : Nat
  closed : Bool

/-- Four times the significand leaves room for the halfway points. The point below is nearer when
the significand is the least of its binade. -/
def scale (m : Nat) (e k : Int) : Scaled :=
  let (p, q) := Binary64.powerOfTwo (e - 2)
  let (a, b) := if 0 ≤ k then (1, Nat.pow 10 k.toNat) else (Nat.pow 10 (-k).toNat, 1)
  let below := if m = Nat.pow 2 52 && Binary64.minExponent < e then 1 else 2
  { low := (4 * m - below) * p * a
    value := 4 * m * p * a
    high := (4 * m + 2) * p * a
    unit := q * b
    closed := m % 2 == 0 }

namespace Scaled

def holds (s : Scaled) (c : Nat) : Bool :=
  let x := c * s.unit
  if s.closed then s.low ≤ x && x ≤ s.high else s.low < x && x < s.high

/-- The multiple of the grid that rounds to the value and is nearest to it, if any does. -/
def hit? (tie : Tie) (s : Scaled) : Option Nat :=
  let c := s.value / s.unit
  match s.holds c && c != 0, s.holds (c + 1) with
  | true, true =>
    let r := 2 * (s.value % s.unit)
    if r < s.unit then some c
    else if s.unit < r then some (c + 1)
    else
      match tie with
      | .up => some (c + 1)
      | .even => some (c + c % 2)
  | true, false => some c
  | false, true => some (c + 1)
  | false, false => none

end Scaled

/-- Tries the grids `10 ^ k`, `10 ^ (k - 1)`, …, as many as there is fuel. -/
def search (tie : Tie) (m : Nat) (e : Int) : Nat → Int → Nat × Int
  | 0, k => (0, k)
  | fuel + 1, k =>
    match (scale m e k).hit? tie with
    | some c => (c, k)
    | none => search tie m e fuel (k - 1)

/-- The least `k` with `m * 2 ^ e < 10 ^ k`, or one more: `0.30103` is just above `log₁₀ 2`. -/
def firstGrid (m : Nat) (e : Int) : Int := ((m.log2 + 1 + e) * 30103).fdiv 100000 + 1

end Shortest

/-- Digits without trailing zeros, and the power of ten they are multiplied by. Zero has no digits.
Seventeen digits always suffice, and the first grid is at most two above the leading digit. -/
def shortest (tie : Tie) (m : Nat) (e : Int) : Nat × Int :=
  if m = 0 then (0, 0) else Shortest.search tie m e 25 (Shortest.firstGrid m e)

end FrameLedger
