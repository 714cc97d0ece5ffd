/-
Arithmetic on floating-point numbers: the exact result, rounded once.

An invalid operation (a difference of infinities, zero times infinity, zero by zero, what is left of an infinity, the root
of a negative number) and any NaN operand answer the canonical NaN.
-/
import WasmCore.Float.Rounding

namespace WasmCore

/-- largest natural number whose square is at most `n`, two bits at a time -/
def floorSqrt (n : Nat) : Nat :=
  if h : n = 0 then 0
  else
    let root := 2 * floorSqrt (n / 4)
    if (root + 1) * (root + 1) ≤ n then root + 1 else root
termination_by n
decreasing_by omega

namespace FloatBits

variable {w : Width}

/-- a finite number as a count of `2 ^ place`, for a `place` not above its exponent -/
def signedUnits (s : Bool) (m : Nat) (e place : Int) : Int :=
  let units : Int := m <<< (e - place).toNat
  if s then -units else units

/-- the exact sum; a zero sum is negative only if both operands are -/
def add (x y : FloatBits w) : FloatBits w :=
  match x.datum, y.datum with
  | .nan, _ => nan w
  | _, .nan => nan w
  | .infinite s, .infinite t => if s = t then infinity w s else nan w
  | .infinite s, .finite .. => infinity w s
  | .finite .., .infinite t => infinity w t
  | .finite s m e, .finite t n f =>
    let place := min e f
    let sum := signedUnits s m e place + signedUnits t n f place
    if sum = 0 then zero w (s && t) else ofDyadic w (sum < 0) sum.natAbs place

def sub (x y : FloatBits w) : FloatBits w :=
  add x (neg y)

def mul (x y : FloatBits w) : FloatBits w :=
  match x.datum, y.datum with
  | .nan, _ => nan w
  | _, .nan => nan w
  | .infinite s, .infinite t => infinity w (s ^^ t)
  | .infinite s, .finite t n _ => if n = 0 then nan w else infinity w (s ^^ t)
  | .finite s m _, .infinite t => if m = 0 then nan w else infinity w (s ^^ t)
  | .finite s m e, .finite t n f => ofDyadic w (s ^^ t) (m * n) (e + f)

def div (x y : FloatBits w) : FloatBits w :=
  match x.datum, y.datum with
  | .nan, _ => nan w
  | _, .nan => nan w
  | .infinite _, .infinite _ => nan w
  | .infinite s, .finite t _ _ => infinity w (s ^^ t)
  | .finite s _ _, .infinite t => zero w (s ^^ t)
  | .finite s m e, .finite t n f =>
    if n = 0 then
      if m = 0 then nan w else infinity w (s ^^ t)
    else
      ofRatio w (s ^^ t) (m <<< (e - f).toNat) (n <<< (f - e).toNat)

/-- what is left of `x` when `y` is taken off as often as it fits, with the sign of `x`; always exact -/
def rem (x y : FloatBits w) : FloatBits w :=
  match x.datum, y.datum with
  | .nan, _ => nan w
  | _, .nan => nan w
  | .infinite _, _ => nan w
  | .finite .., .infinite _ => x
  | .finite s m e, .finite _ n f =>
    if n = 0 then nan w
    else
      let place := min e f
      ofDyadic w s ((m <<< (e - place).toNat) % (n <<< (f - place).toNat)) place

/-- the square root of `m * 2 ^ e`: an integer root with two places to spare, and one bit that says whether it is exact -/
def rootOf (w : Width) (m : Nat) (e : Int) : FloatBits w :=
  let half := (e - 2 * (w.fractionBits + 2)).fdiv 2
  let square := m <<< (e - 2 * half).toNat
  let root := floorSqrt square
  ofDyadic w false (2 * root + if root * root = square then 0 else 1) (half - 1)

def sqrt (x : FloatBits w) : FloatBits w :=
  match x.datum with
  | .nan => nan w
  | .infinite s => if s then nan w else x
  | .finite s m e => if m = 0 then x else if s then nan w else rootOf w m e

end FloatBits

end WasmCore
