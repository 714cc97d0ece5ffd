/-
Comparison of floating-point numbers.

Without its sign a larger pattern is a larger number, so two numbers compare as their signed magnitudes; both zeros have
the key 0 and are equal. A NaN compares with nothing. `minimum` and `maximum` put the negative zero below the positive one and
answer the canonical NaN for any NaN operand.
-/
import WasmCore.Float.Format

namespace WasmCore.FloatBits

variable {w : Width}

/-- the signed magnitude, by which numbers are ordered -/
def key (x : FloatBits w) : Int :=
  if x.negative then -(x.magnitude : Int) else x.magnitude

/-- neither operand is a NaN -/
def ordered (x y : FloatBits w) : Bool :=
  !x.isNaN && !y.isNaN

def eq (x y : FloatBits w) : Bool :=
  ordered x y && x.key == y.key

def lt (x y : FloatBits w) : Bool :=
  ordered x y && decide (x.key < y.key)

def le (x y : FloatBits w) : Bool :=
  ordered x y && decide (x.key ≤ y.key)

def minimum (x y : FloatBits w) : FloatBits w :=
  if !ordered x y then nan w
  else if x.isZero && y.isZero then if x.negative then x else y
  else if lt x y then x else y

def maximum (x y : FloatBits w) : FloatBits w :=
  if !ordered x y then nan w
  else if x.isZero && y.isZero then if x.negative then y else x
  else if lt y x then x else y

end WasmCore.FloatBits
