/-
The operators on numbers.

An operator takes one or two operands from the stack and leaves one result. Operators that exist in both widths carry
their width, so `i32.add` and `i64.add` are one operator. The conversions name the type they go to first, as their texts
do.
-/
import WasmCore.Types

namespace WasmCore

/-- integer operators with one operand and a result of the same width -/
inductive IntUnOp where
  | clz
  | ctz
  | popcnt
  | extend8
  | extend16
deriving DecidableEq, Repr

/-- integer operators with two operands and a result of the same width -/
inductive IntBinOp where
  | add
  | sub
  | mul
  | div (s : Signedness)
  | rem (s : Signedness)
  | and
  | or
  | xor
  | shl
  | shr (s : Signedness)
  | rotl
  | rotr
deriving DecidableEq, Repr

/-- integer comparisons -/
inductive IntRelOp where
  | eq
  | ne
  | lt (s : Signedness)
  | gt (s : Signedness)
  | le (s : Signedness)
  | ge (s : Signedness)
deriving DecidableEq, Repr

inductive FloatUnOp where
  | abs
  | neg
  | ceil
  | floor
  | trunc
  | nearest
  | sqrt
deriving DecidableEq, Repr

inductive FloatBinOp where
  | add
  | sub
  | mul
  | div
  | min
  | max
  | copysign
deriving DecidableEq, Repr

/-- floating-point comparisons -/
inductive FloatRelOp where
  | eq
  | ne
  | lt
  | gt
  | le
  | ge
deriving DecidableEq, Repr

/-- operators with one operand -/
inductive UnaryOp where
  | eqz (w : Width)
  | int (w : Width) (op : IntUnOp)
  | float (w : Width) (op : FloatUnOp)
  /-- `i64.extend32_s` -/
  | extend32
  /-- `i32.wrap_i64` -/
  | wrap
  /-- `i64.extend_i32_s` and `i64.extend_i32_u` -/
  | extend (s : Signedness)
  | trunc (target source : Width) (s : Signedness)
  | truncSat (target source : Width) (s : Signedness)
  | convert (target source : Width) (s : Signedness)
  /-- `f32.demote_f64` -/
  | demote
  /-- `f64.promote_f32` -/
  | promote
  /-- the integer with the bits of a floating-point number -/
  | reinterpretFloat (w : Width)
  /-- the floating-point number with the bits of an integer -/
  | reinterpretInt (w : Width)
deriving DecidableEq, Repr

/-- operators with two operands -/
inductive BinaryOp where
  | int (w : Width) (op : IntBinOp)
  | intRel (w : Width) (op : IntRelOp)
  | float (w : Width) (op : FloatBinOp)
  | floatRel (w : Width) (op : FloatRelOp)
deriving DecidableEq, Repr

/-! ## Types -/

namespace UnaryOp

/-- type of the operand -/
def operand : UnaryOp → ValType
  | eqz w | int w _ | reinterpretInt w => .int w
  | float w _ | reinterpretFloat w => .float w
  | extend32 | wrap => .i64
  | extend _ => .i32
  | trunc _ source _ | truncSat _ source _ => .float source
  | convert _ source _ => .int source
  | demote => .f64
  | promote => .f32

/-- type of the result -/
def result : UnaryOp → ValType
  | eqz _ | wrap => .i32
  | int w _ | reinterpretFloat w => .int w
  | float w _ | reinterpretInt w => .float w
  | extend32 | extend _ => .i64
  | trunc target _ _ | truncSat target _ _ => .int target
  | convert target _ _ => .float target
  | demote => .f32
  | promote => .f64

end UnaryOp

namespace BinaryOp

/-- type of both operands -/
def operand : BinaryOp → ValType
  | int w _ | intRel w _ => .int w
  | float w _ | floatRel w _ => .float w

/-- type of the result -/
def result : BinaryOp → ValType
  | int w _ => .int w
  | float w _ => .float w
  | intRel _ _ | floatRel _ _ => .i32

end BinaryOp

end WasmCore
