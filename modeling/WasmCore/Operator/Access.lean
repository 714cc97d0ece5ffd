/-
Loads and stores of linear memory.

An access moves the lowest bytes of a number, little end first. A narrow load widens what it read to the type of its
result; a store takes the low bytes of the cell whatever its type, so only the byte count of a store matters when it runs.
-/
import WasmCore.Operator.Eval

namespace WasmCore

inductive LoadOp where
  /-- a whole number -/
  | full (t : ValType)
  | load8 (w : Width) (s : Signedness)
  | load16 (w : Width) (s : Signedness)
  /-- `i64.load32_s` and `i64.load32_u` -/
  | load32 (s : Signedness)
deriving DecidableEq, Repr

inductive StoreOp where
  /-- a whole number -/
  | full (t : ValType)
  | store8 (w : Width)
  | store16 (w : Width)
  /-- `i64.store32` -/
  | store32
deriving DecidableEq, Repr

namespace LoadOp

/-- number of bytes read -/
def bytes : LoadOp → Nat
  | full t => t.width.bytes
  | load8 _ _ => 1
  | load16 _ _ => 2
  | load32 _ => 4

/-- type of the result -/
def result : LoadOp → ValType
  | full t => t
  | load8 w _ | load16 w _ => .int w
  | load32 _ => .i64

/-- repeats the highest of the lowest `k` bits through the number of width `w`, if it is read with a sign -/
def widen (k : Nat) (w : Width) : Signedness → Cell → Cell
  | .signed, c => .of (signExtendLow k (c.low w))
  | .unsigned, c => c

/-- the result, from the bytes read in the low end of a cell that is zero above them -/
def extend : LoadOp → Cell → Cell
  | full _, c => c
  | load8 w s, c => widen 8 w s c
  | load16 w s, c => widen 16 w s c
  | load32 s, c => widen 32 .w64 s c

end LoadOp

namespace StoreOp

/-- number of bytes written -/
def bytes : StoreOp → Nat
  | full t => t.width.bytes
  | store8 _ => 1
  | store16 _ => 2
  | store32 => 4

/-- type of the value stored -/
def operand : StoreOp → ValType
  | full t => t
  | store8 w | store16 w => .int w
  | store32 => .i64

end StoreOp

end WasmCore
