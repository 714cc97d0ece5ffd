/-
Rounding to integers.

The roundings keep the sign, also of a zero result, and leave NaNs, infinities and integral numbers as they are. `nearest`
takes a half to the even neighbour: it looks at the fraction that `trunc` cuts off, and at the parity of what is left.
`truncateTo` cuts the fraction off and brings the integer into the range of its target, which it first compares with the
limits of the target as a number.
-/
import WasmCore.Float.Arithmetic
import WasmCore.Float.Order

namespace WasmCore.FloatBits

variable {w : Width}

/-! ## Rounding in one direction -/

/-- rounds the magnitude `num / den` of a number with the given sign to a natural number -/
abbrev Rounding := Bool → Nat → Nat → Nat

def towardZero : Rounding := fun _ num den => num / den

/-- one more than the quotient unless the division is exact -/
def divUp (num den : Nat) : Nat :=
  (num + (den - 1)) / den

def upward : Rounding := fun s num den => if s then num / den else divUp num den

def downward : Rounding := fun s num den => if s then divUp num den else num / den

def halfAway : Rounding := fun _ num den => (2 * num + den) / (2 * den)

/-- rounds a number with a fraction; anything else is already integral -/
def toIntegral (round : Rounding) (x : FloatBits w) : FloatBits w :=
  match x.datum with
  | .finite s m e =>
    if e < 0 then
      let (num, den) := dyadicRatio m e
      ofRatio w s (round s num den) 1
    else x
  | _ => x

def trunc (x : FloatBits w) : FloatBits w := toIntegral towardZero x
def ceil (x : FloatBits w) : FloatBits w := toIntegral upward x
def floor (x : FloatBits w) : FloatBits w := toIntegral downward x
def round (x : FloatBits w) : FloatBits w := toIntegral halfAway x

/-! ## Rounding to the nearest integer -/

/-- numbers of this magnitude and above are integral -/
def integralBound (w : Width) : FloatBits w :=
  ofInt w w.leadingBit

def half (w : Width) : FloatBits w :=
  ofRatio w false 1 2

/-- one with the sign of `x` -/
def signum (x : FloatBits w) : FloatBits w :=
  if x.isNaN then nan w else copysign (ofInt w 1) x

/-- the integer next to a number with a fraction, a half to the even one -/
def nearestOfFraction (x : FloatBits w) : FloatBits w :=
  let whole := x.trunc
  let fraction := sub x whole
  if eq fraction.abs (half w) then
    let away := add whole fraction.signum
    if eq (rem whole (ofInt w 2)) (zero w false) then whole else away
  else x.round

def nearest (x : FloatBits w) : FloatBits w :=
  if x.isCanonicalNaN || x.isNaN || x.isInfinite || eq x (zero w false) then x
  else if le (integralBound w) x.abs then x
  else if lt (zero w false) x && le x (half w) then zero w false
  else if lt x (zero w false) && le (neg (half w)) x then zero w true
  else
    let rounded := nearestOfFraction x
    if eq rounded (zero w false) then copysign (zero w false) x else rounded

/-! ## Integers of a width -/

/-- the integer between zero and the number next to the number -/
def truncToInt (s : Bool) (m : Nat) (e : Int) : Int :=
  let (num, den) := dyadicRatio m e
  let magnitude : Nat := num / den
  if s then -magnitude else magnitude

/-- brings an integer into the range from `lo` to `hi` -/
def clamp (lo hi n : Int) : Int :=
  max lo (min hi n)

/-- the integer part, brought into the range from `lo` to `hi`; zero for a NaN -/
def toIntSaturating (lo hi : Int) (x : FloatBits w) : Int :=
  match x.datum with
  | .nan => 0
  | .infinite s => if s then lo else hi
  | .finite s m e => clamp lo hi (truncToInt s m e)

/-- up to this number the result is the smallest integer of the width -/
def lowerLimit : Signedness → Width → FloatBits .w64
  | .signed, .w32 => ofInt .w64 (-2147483648)
  | .signed, .w64 => ofInt .w64 (-9223372036854775808)
  | .unsigned, _ => ofInt .w64 0

/-- from this number on the result is the largest integer of the width, which need not be a number of the format -/
def upperLimit : Signedness → Width → FloatBits .w64
  | .signed, .w32 => ofInt .w64 2147483647
  | .signed, .w64 => ofInt .w64 9223372036854775808
  | .unsigned, .w32 => ofInt .w64 4294967296
  | .unsigned, .w64 => ofInt .w64 18446744073709551616

/-- the integer part of a number, or the integer of the target that is next to it -/
def truncateTo (target : Width) (s : Signedness) (x : FloatBits .w64) : Int :=
  if x.isNaN then 0
  else if le x (lowerLimit s target) then s.lowest target
  else if le (upperLimit s target) x then s.highest target
  else x.trunc.toIntSaturating (s.lowest target) (s.highest target)

/-- the same number in the wider format -/
def widen : {w : Width} → FloatBits w → FloatBits .w64
  | .w32, x => resize .w64 x
  | .w64, x => x

end WasmCore.FloatBits
