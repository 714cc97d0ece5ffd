/-
What the operators compute.

Integers wrap around at their width; division and remainder trap on a zero divisor, and signed division on the one quotient
that does not fit. Shift and rotation counts count modulo the width. Truncations never trap: they cut off the fraction and
clamp to the target's range, so the plain and the saturating family compute the same.
-/
import WasmCore.Cell
import WasmCore.Float.Arithmetic
import WasmCore.Float.Integral
import WasmCore.Float.Order
import WasmCore.Operator.Basic
import WasmCore.Trap

namespace WasmCore

/-! ## Integers -/

/-- reads bits as an integer -/
def Signedness.read {n : Nat} : Signedness → BitVec n → Int
  | signed, b => b.toInt
  | unsigned, b => b.toNat

/-- the low `k` bits, their highest one repeated above them -/
def signExtendLow {n : Nat} (k : Nat) (a : BitVec n) : BitVec n :=
  (a.setWidth k).signExtend n

namespace IntUnOp

def eval {n : Nat} : IntUnOp → BitVec n → BitVec n
  | clz, a => a.clz
  | ctz, a => a.ctz
  | popcnt, a => a.cpop
  | extend8, a => signExtendLow 8 a
  | extend16, a => signExtendLow 16 a

end IntUnOp

namespace IntBinOp

/-- the count of a shift or rotation: its low 32 bits, modulo the width -/
def shiftCount {n : Nat} (b : BitVec n) : Nat :=
  (b.setWidth 32).toNat % n

/-- quotient toward zero -/
def divide {n : Nat} (s : Signedness) (a b : BitVec n) : Except Trap (BitVec n) :=
  if b = 0 then .error .divisionByZero
  else
    match s with
    | .signed => if a = BitVec.intMin n ∧ b = -1 then .error .integerOverflow else .ok (a.sdiv b)
    | .unsigned => .ok (a / b)

/-- remainder of the quotient toward zero, with the sign of the dividend -/
def remainder {n : Nat} (s : Signedness) (a b : BitVec n) : Except Trap (BitVec n) :=
  if b = 0 then .error .divisionByZero
  else
    match s with
    | .signed => .ok (a.srem b)
    | .unsigned => .ok (a % b)

def eval {n : Nat} : IntBinOp → BitVec n → BitVec n → Except Trap (BitVec n)
  | add, a, b => .ok (a + b)
  | sub, a, b => .ok (a - b)
  | mul, a, b => .ok (a * b)
  | div s, a, b => divide s a b
  | rem s, a, b => remainder s a b
  | and, a, b => .ok (a &&& b)
  | or, a, b => .ok (a ||| b)
  | xor, a, b => .ok (a ^^^ b)
  | shl, a, b => .ok (a <<< shiftCount b)
  | shr .signed, a, b => .ok (a.sshiftRight (shiftCount b))
  | shr .unsigned, a, b => .ok (a >>> shiftCount b)
  | rotl, a, b => .ok (a.rotateLeft (shiftCount b))
  | rotr, a, b => .ok (a.rotateRight (shiftCount b))

end IntBinOp

namespace IntRelOp

def eval {n : Nat} : IntRelOp → BitVec n → BitVec n → Bool
  | eq, a, b => a == b
  | ne, a, b => a != b
  | lt s, a, b => s.read a < s.read b
  | gt s, a, b => s.read b < s.read a
  | le s, a, b => s.read a ≤ s.read b
  | ge s, a, b => s.read b ≤ s.read a

end IntRelOp

/-! ## Floating-point numbers -/

namespace FloatUnOp

def eval {w : Width} : FloatUnOp → FloatBits w → FloatBits w
  | abs, x => x.abs
  | neg, x => FloatBits.neg x
  | ceil, x => x.ceil
  | floor, x => x.floor
  | trunc, x => x.trunc
  | nearest, x => x.nearest
  | sqrt, x => x.sqrt

end FloatUnOp

namespace FloatBinOp

def eval {w : Width} : FloatBinOp → FloatBits w → FloatBits w → FloatBits w
  | add, x, y => FloatBits.add x y
  | sub, x, y => FloatBits.sub x y
  | mul, x, y => FloatBits.mul x y
  | div, x, y => FloatBits.div x y
  | min, x, y => x.minimum y
  | max, x, y => x.maximum y
  | copysign, x, y => FloatBits.copysign x y

end FloatBinOp

namespace FloatRelOp

def eval {w : Width} : FloatRelOp → FloatBits w → FloatBits w → Bool
  | eq, x, y => FloatBits.eq x y
  | ne, x, y => !FloatBits.eq x y
  | lt, x, y => FloatBits.lt x y
  | gt, x, y => FloatBits.lt y x
  | le, x, y => FloatBits.le x y
  | ge, x, y => FloatBits.le y x

end FloatRelOp

/-! ## Cells -/

/-- the integer part as an integer of the target width, as near as its range allows; computed in the wider format -/
def truncSaturating (target : Width) (s : Signedness) {w : Width} (x : FloatBits w) : BitVec target.bits :=
  BitVec.ofInt target.bits (x.widen.truncateTo target s)

def UnaryOp.eval : UnaryOp → Cell → Cell
  | eqz w, c => .ofBool (c.low w == 0)
  | int w op, c => .of (op.eval (c.low w))
  | float w op, c => .of (w := w) (op.eval (c.low w))
  | extend32, c => signExtendLow 32 c
  | wrap, c => .of (c.low .w32)
  | extend s, c => BitVec.ofInt 64 (s.read (c.low .w32))
  | trunc target source s, c => .of (truncSaturating target s (c.low source))
  | truncSat target source s, c => .of (truncSaturating target s (c.low source))
  | convert target source s, c => .of (FloatBits.ofInt target (s.read (c.low source)))
  | demote, c => .of (FloatBits.resize (v := .w64) .w32 (c.low .w64))
  | promote, c => .of (FloatBits.resize (v := .w32) .w64 (c.low .w32))
  | reinterpretFloat _, c => c
  | reinterpretInt _, c => c

def BinaryOp.eval : BinaryOp → Cell → Cell → Except Trap Cell
  | int w op, a, b => (op.eval (a.low w) (b.low w)).map .of
  | intRel w op, a, b => .ok (.ofBool (op.eval (a.low w) (b.low w)))
  | float w op, a, b => .ok (.of (w := w) (op.eval (a.low w) (b.low w)))
  | floatRel w op, a, b => .ok (.ofBool (op.eval (w := w) (a.low w) (b.low w)))

end WasmCore
