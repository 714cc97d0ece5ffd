/-
Typed values.

A `Val` is what crosses the boundary of the machine: a type and as many bits as the type has. Inside the machine a value
is a `Cell`; `toCell` and `ofCell` are the only ways between the two. Values are written as `type:number` and read, for a
given type, from the number alone.
-/
import WasmCore.Cell
import WasmCore.Decimal.Shortest
import WasmCore.Float.Order

namespace WasmCore

structure Val where
  type : ValType
  bits : BitVec type.width.bits
deriving DecidableEq

namespace Val

abbrev i32 (b : BitVec 32) : Val := ⟨.i32, b⟩
abbrev i64 (b : BitVec 64) : Val := ⟨.i64, b⟩
abbrev f32 (b : FloatBits .w32) : Val := ⟨.f32, b⟩
abbrev f64 (b : FloatBits .w64) : Val := ⟨.f64, b⟩

/-- the zero that a variable of the type starts from -/
def zero (t : ValType) : Val :=
  ⟨t, 0⟩

/-! ## Cells -/

def toCell (v : Val) : Cell :=
  Cell.of v.bits

def ofCell (t : ValType) (c : Cell) : Val :=
  ⟨t, c.low t.width⟩

@[simp] theorem type_ofCell (t : ValType) (c : Cell) : (ofCell t c).type = t := rfl

@[simp] theorem ofCell_toCell (v : Val) : ofCell v.type v.toCell = v := by
  obtain ⟨t, b⟩ := v
  simp [ofCell, toCell, Cell.low_of]

/-- a value's cell has nothing beyond its type to cut -/
@[simp] theorem mask_toCell (v : Val) : v.toCell.mask v.type.width = v.toCell := by
  rw [Cell.mask_eq]
  exact congrArg Cell.of (Cell.low_of v.bits)

/-! ## Comparison -/

/-- equal as numbers of one type: both zeros are equal and a NaN differs from itself -/
def numericEq (a b : Val) : Bool :=
  a.type == b.type &&
    match a.type with
    | .int _ => a.toCell == b.toCell
    | .float w => FloatBits.eq (a.toCell.low w) (b.toCell.low w)

/-! ## Text -/

/-- the number without its type -/
def numberText (v : Val) : String :=
  match v with
  | ⟨.int _, b⟩ => toString b.toInt
  | ⟨.float _, b⟩ => FloatBits.text b

def text (v : Val) : String :=
  v.type.name ++ ":" ++ v.numberText

/-- the integer, if it lies in the range of the signed readings -/
def ofInt? (w : Width) (n : Int) : Option Val :=
  if Signedness.signed.inRange w n then some ⟨.int w, BitVec.ofInt w.bits n⟩ else none

/-- reads a number of the given type -/
def parse? (t : ValType) (text : String) : Option Val :=
  match t with
  | .int w => (Numeral.integer? text.toList).bind (ofInt? w)
  | .float w => (FloatBits.parse? w text).map fun b => ⟨.float w, b⟩

end Val

end WasmCore
