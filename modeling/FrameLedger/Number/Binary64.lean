/-!
# Doubles as exact numbers

`Binary64` reads a `Float` as what it stands for: a signed significand times a power of two, an
infinity, or no number. `ofRatio` goes the other way and rounds an exact quotient to the nearest
double, a tie to the even significand.
-/

namespace FrameLedger

inductive Binary64 where
  | nan
  | infinite (negative : Bool)
  /-- The number `± significand * 2 ^ exponent`. -/
  | finite (negative : Bool) (significand : Nat) (exponent : Int)
deriving DecidableEq, Inhabited

namespace Binary64

/-- The exponent of the smallest positive double. -/
def minExponent : Int := -1074

def ofFloat (x : Float) : Binary64 :=
  let bits := x.toBits.toNat
  let negative := bits / Nat.pow 2 63 == 1
  let biased : Nat := bits / Nat.pow 2 52 % Nat.pow 2 11
  let fraction : Nat := bits % Nat.pow 2 52
  if biased = 2047 then
    if fraction = 0 then .infinite negative else .nan
  else if biased = 0 then .finite negative fraction minExponent
  else .finite negative (Nat.pow 2 52 + fraction) (biased - 1075)

/-- The double of a magnitude's bits, infinite when they run past the largest finite one. -/
def ofMagnitudeBits (negative : Bool) (bits : Nat) : Float :=
  Float.ofBits (.ofNat (min bits (2047 * Nat.pow 2 52) + if negative then Nat.pow 2 63 else 0))

/-- `2 ^ e` as a quotient. -/
def powerOfTwo (e : Int) : Nat × Nat :=
  if 0 ≤ e then (Nat.pow 2 e.toNat, 1) else (1, Nat.pow 2 (-e).toNat)

/-- The quotient rounded to the nearest integer, a tie to the even one. -/
def roundHalfEven (num den : Nat) : Nat :=
  let q := num / den
  let r := num % den
  if 2 * r < den then q else if den < 2 * r then q + 1 else q + q % 2

/-- The double nearest to `± num / den`. -/
def ofRatio (negative : Bool) (num den : Nat) : Float :=
  if num = 0 then ofMagnitudeBits negative 0
  else
    let e : Int := num.log2 - den.log2
    -- `num / den` lies between `2 ^ (e - 1)` and `2 ^ (e + 1)`
    let (p, q) := powerOfTwo e
    let e := if num * q < den * p then e - 1 else e
    let unit := max (e - 52) minExponent
    let (p, q) := powerOfTwo unit
    -- the implicit leading bit of a normal significand carries into the exponent field
    ofMagnitudeBits negative
      ((unit - minExponent).toNat * Nat.pow 2 52 + roundHalfEven (num * q) (den * p))

/-- The double nearest to `± m * 2 ^ e`. -/
def ofScaled (negative : Bool) (m : Nat) (e : Int) : Float :=
  let (p, q) := powerOfTwo e
  ofRatio negative (m * p) q

/-- The integer part, toward zero. -/
def truncate? : Binary64 → Option Int
  | .finite negative m e =>
    let (p, q) := powerOfTwo e
    let n : Int := (m * p / q : Nat)
    some (if negative then -n else n)
  | _ => none

/-- The value, when it is an integer. -/
def toInt? : Binary64 → Option Int
  | x@(.finite _ m e) =>
    let (p, q) := powerOfTwo e
    if m * p % q = 0 then x.truncate? else none
  | _ => none

/-- The integer part kept within 64 bits; no number counts as zero. -/
def clampInt64 (x : Binary64) : Int :=
  match x with
  | .nan => 0
  | .infinite negative => if negative then -(Nat.pow 2 63) else Nat.pow 2 63 - 1
  | .finite .. => max (-(Nat.pow 2 63)) (min (Nat.pow 2 63 - 1) (x.truncate?.getD 0))

end Binary64

/-- The remainder of a division that truncates; it has the sign of the dividend and is exact. -/
def remainder (x y : Float) : Float :=
  match Binary64.ofFloat x, Binary64.ofFloat y with
  | .finite sx mx ex, .finite _ my ey =>
    if my = 0 then 0.0 / 0.0
    else if mx = 0 then x
    else
      let e := min ex ey
      Binary64.ofScaled sx (mx * Nat.pow 2 (ex - e).toNat % (my * Nat.pow 2 (ey - e).toNat)) e
  | .finite .., .infinite _ => x
  | _, _ => 0.0 / 0.0

end FrameLedger
