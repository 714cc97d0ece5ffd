/-
Value types and function signatures.

A number has one of two widths and is read either as an integer or as a floating-point number; that makes the four value
types `i32`, `i64`, `f32` and `f64`. Everything that depends on a type only through its width (local variables, memory
accesses, the shape of an operand) is stated for a `Width`.
-/
namespace WasmCore

/-- the two sizes of a number -/
inductive Width where
  | w32
  | w64
deriving DecidableEq, Repr

namespace Width

/-- number of bits -/
def bits : Width → Nat
  | w32 => 32
  | w64 => 64

/-- number of bytes in linear memory -/
def bytes : Width → Nat
  | w32 => 4
  | w64 => 8

/-- the value of the highest bit -/
def highBit : Width → Nat
  | w32 => 0x80000000
  | w64 => 0x8000000000000000

/-- name of the integer type of this width -/
def intName : Width → String
  | w32 => "i32"
  | w64 => "i64"

/-- name of the floating-point type of this width -/
def floatName : Width → String
  | w32 => "f32"
  | w64 => "f64"

theorem bits_le (w : Width) : w.bits ≤ 64 := by
  cases w <;> decide

theorem bits_eq (w : Width) : w.bits = 8 * w.bytes := by
  cases w <;> rfl

end Width

/-- how the bits of an integer are read -/
inductive Signedness where
  | signed
  | unsigned
deriving DecidableEq, Repr

namespace Signedness

/-- the suffix of an operator's name -/
def letter : Signedness → String
  | signed => "s"
  | unsigned => "u"

/-- the smallest integer of a width -/
def lowest : Signedness → Width → Int
  | signed, w => -(w.highBit : Int)
  | unsigned, _ => 0

/-- the largest integer of a width -/
def highest : Signedness → Width → Int
  | signed, w => (w.highBit : Int) - 1
  | unsigned, w => 2 * (w.highBit : Int) - 1

/-- whether the integer is one of the width -/
def inRange (s : Signedness) (w : Width) (n : Int) : Bool :=
  s.lowest w ≤ n && n ≤ s.highest w

theorem inRange_iff {s : Signedness} {w : Width} {n : Int} :
    s.inRange w n = true ↔ s.lowest w ≤ n ∧ n ≤ s.highest w := by
  rw [inRange, Bool.and_eq_true, decide_eq_true_iff, decide_eq_true_iff]

theorem inRange_toInt {w : Width} (b : BitVec w.bits) : signed.inRange w b.toInt = true := by
  rw [inRange_iff]
  have hlo := b.le_toInt
  have hhi := b.toInt_lt
  generalize b.toInt = n at hlo hhi
  cases w with
  | w32 => exact ⟨hlo, Int.le_sub_one_of_lt hhi⟩
  | w64 => exact ⟨hlo, Int.le_sub_one_of_lt hhi⟩

end Signedness

/-- the type of a value -/
inductive ValType where
  | int (width : Width)
  | float (width : Width)
deriving DecidableEq, Repr

namespace ValType

@[match_pattern] abbrev i32 : ValType := int .w32
@[match_pattern] abbrev i64 : ValType := int .w64
@[match_pattern] abbrev f32 : ValType := float .w32
@[match_pattern] abbrev f64 : ValType := float .w64

def width : ValType → Width
  | int w => w
  | float w => w

def name : ValType → String
  | int w => w.intName
  | float w => w.floatName

/-- the byte that stands for the type in the binary format -/
def byte : ValType → UInt8
  | i32 => 0x7F
  | i64 => 0x7E
  | f32 => 0x7D
  | f64 => 0x7C

def all : List ValType := [i32, i64, f32, f64]

def ofByte? (b : UInt8) : Option ValType :=
  all.find? fun t => t.byte == b

def ofName? (s : String) : Option ValType :=
  all.find? fun t => t.name == s

theorem mem_all (t : ValType) : t ∈ all := by
  cases t with
  | int w => cases w <;> decide
  | float w => cases w <;> decide

end ValType

/-- a function signature; two signatures are the same type when their lists are equal element by element -/
structure FuncType where
  params : List ValType
  results : List ValType
deriving DecidableEq, Repr

namespace FuncType

/-- a signature that returns nothing -/
def isVoid (t : FuncType) : Bool :=
  t.results.isEmpty

/-- type names separated by blanks -/
def names (ts : List ValType) : String :=
  String.intercalate " " (ts.map ValType.name)

def text (t : FuncType) : String :=
  "(param " ++ names t.params ++ ") (result " ++ names t.results ++ ")"

end FuncType

end WasmCore
