/-
The two binary floating-point formats.

A floating-point number is its bit pattern, `FloatBits w`: a sign, an exponent field and a fraction. `FloatBits.datum` says
what a pattern stands for, exactly: a NaN, an infinity, or a signed integer times a power of two. No arithmetic on
patterns goes through a native floating-point type, so every result below is a theorem away from its exact value.
-/
import WasmCore.Types

namespace WasmCore

namespace Width

/-- stored bits of the significand; the leading one of a normal number is not stored -/
def fractionBits : Width → Nat
  | w32 => 23
  | w64 => 52

/-- the leading one of the significand of a normal number, one above the fraction -/
def leadingBit : Width → Nat
  | w32 => 0x800000
  | w64 => 0x10000000000000

/-- exponent field of infinities and NaNs, all ones -/
def topField : Width → Nat
  | w32 => 255
  | w64 => 2047

/-- every finite number is a multiple of two to this power -/
def minExponent : Width → Int
  | w32 => -149
  | w64 => -1074

/-- the pattern of positive infinity, above which all patterns without a sign are NaNs -/
def infinity (w : Width) : Nat :=
  w.topField * w.leadingBit

end Width

/-- a floating-point number, as the bits that represent it -/
abbrev FloatBits (w : Width) : Type := BitVec w.bits

/-- what a bit pattern stands for -/
inductive Datum where
  | nan
  | infinite (negative : Bool)
  /-- plus or minus `significand * 2 ^ exponent` -/
  | finite (negative : Bool) (significand : Nat) (exponent : Int)
deriving DecidableEq, Repr

namespace FloatBits

variable {w : Width}

/-! ## Fields -/

def negative (x : FloatBits w) : Bool :=
  x.msb

/-- the pattern without its sign -/
def magnitude (x : FloatBits w) : Nat :=
  x.toNat % w.highBit

/-- puts a sign before a magnitude -/
def ofMagnitude (w : Width) (negative : Bool) (m : Nat) : FloatBits w :=
  BitVec.ofNat w.bits (if negative then w.highBit + m else m)

def isNaN (x : FloatBits w) : Bool :=
  w.infinity < x.magnitude

def isInfinite (x : FloatBits w) : Bool :=
  x.magnitude == w.infinity

def isZero (x : FloatBits w) : Bool :=
  x.magnitude == 0

/-! ## Special patterns -/

def zero (w : Width) (negative : Bool) : FloatBits w :=
  ofMagnitude w negative 0

def infinity (w : Width) (negative : Bool) : FloatBits w :=
  ofMagnitude w negative w.infinity

/-- the quiet NaN whose fraction holds only its leading bit -/
def canonicalNaN (w : Width) (negative : Bool) : FloatBits w :=
  ofMagnitude w negative (w.infinity + w.leadingBit / 2)

/-- the NaN that arithmetic answers -/
def nan (w : Width) : FloatBits w :=
  canonicalNaN w false

def isCanonicalNaN (x : FloatBits w) : Bool :=
  x == canonicalNaN w false || x == canonicalNaN w true

/-! ## Meaning -/

/-- what the pattern stands for -/
def datum (x : FloatBits w) : Datum :=
  let field := x.magnitude / w.leadingBit
  let fraction := x.magnitude % w.leadingBit
  if field = w.topField then
    if fraction = 0 then .infinite x.negative else .nan
  else if field = 0 then
    .finite x.negative fraction w.minExponent
  else
    .finite x.negative (w.leadingBit + fraction) (w.minExponent + (field - 1))

/-! ## Sign operators, which never look at the magnitude -/

def abs (x : FloatBits w) : FloatBits w :=
  ofMagnitude w false x.magnitude

def neg (x : FloatBits w) : FloatBits w :=
  ofMagnitude w (!x.negative) x.magnitude

/-- the magnitude of `x` under the sign of `y` -/
def copysign (x y : FloatBits w) : FloatBits w :=
  ofMagnitude w y.negative x.magnitude

end FloatBits

end WasmCore
