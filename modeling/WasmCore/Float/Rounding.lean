/-
Rounding to the nearest representable number.

`FloatBits.ofRatio` rounds an exact non-negative ratio of two naturals, a half going to the even neighbour, and puts a sign
before it. It is the only place where precision is lost: arithmetic, conversions and decimal text compute an exact ratio
first. Because consecutive magnitudes are consecutive naturals, the units counted in the last place add up to the pattern,
and a carry out of the fraction lands in the exponent field where it belongs.
-/
import WasmCore.Float.Format

namespace WasmCore

/-- `num / den` to the nearest natural number, a half to the even one -/
def divNearestEven (num den : Nat) : Nat :=
  let quotient := num / den
  let rest := num % den
  if den < 2 * rest ∨ (2 * rest = den ∧ quotient % 2 = 1) then quotient + 1 else quotient

/-- `2 ^ e ≤ num / den` -/
def powTwoLe (e : Int) (num den : Nat) : Bool :=
  den <<< e.toNat ≤ num <<< (-e).toNat

/-- numerator and denominator of `m * 2 ^ e` -/
def dyadicRatio (m : Nat) (e : Int) : Nat × Nat :=
  (m <<< e.toNat, 1 <<< (-e).toNat)

/-- the exponent of the leading bit of `num / den`, for positive operands -/
def floorLogTwo (num den : Nat) : Int :=
  let estimate : Int := num.log2 - den.log2
  if powTwoLe estimate num den then estimate else estimate - 1

namespace FloatBits

/-- exponent of the last place of the number nearest to `num / den` -/
def lastPlace (w : Width) (num den : Nat) : Int :=
  max (floorLogTwo num den - w.fractionBits) w.minExponent

/-- the magnitude of the number nearest to `num / den`; what is too large becomes infinite -/
def nearestMagnitude (w : Width) (num den : Nat) : Nat :=
  if num = 0 then 0
  else
    let place := lastPlace w num den
    let units := divNearestEven (num <<< (-place).toNat) (den <<< place.toNat)
    min ((place - w.minExponent).toNat * w.leadingBit + units) w.infinity

/-- the number nearest to plus or minus `num / den` -/
def ofRatio (w : Width) (negative : Bool) (num den : Nat) : FloatBits w :=
  ofMagnitude w negative (nearestMagnitude w num den)

/-- the number nearest to plus or minus `m * 2 ^ e` -/
def ofDyadic (w : Width) (negative : Bool) (m : Nat) (e : Int) : FloatBits w :=
  let (num, den) := dyadicRatio m e
  ofRatio w negative num den

/-- the number nearest to an integer -/
def ofInt (w : Width) (n : Int) : FloatBits w :=
  ofRatio w (n < 0) n.natAbs 1

/-- the same number in another width, as near as that width allows -/
def resize {v : Width} (w : Width) (x : FloatBits v) : FloatBits w :=
  match x.datum with
  | .nan => nan w
  | .infinite s => infinity w s
  | .finite s m e => ofDyadic w s m e

end FloatBits

end WasmCore
