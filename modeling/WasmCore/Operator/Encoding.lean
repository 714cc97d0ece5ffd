/-
Opcodes and names of the operators.

An operator is written as one byte, except the saturating truncations, which are a number after the byte `0xFC`. Within a
family the opcodes are consecutive, so an opcode is the first one of its family plus an index. The lists `all` enumerate
every operator once; reading an opcode is looking it up there.
-/
import WasmCore.Operator.Access

namespace WasmCore

/-- how an operator stands in the binary format -/
inductive Opcode where
  | byte (b : UInt8)
  /-- a number after the prefix byte -/
  | prefixed (n : UInt32)
deriving DecidableEq, Repr

namespace Opcode

/-- the byte before the number of a saturating truncation -/
def prefixByte : UInt8 := 0xFC

/-- the first byte -/
def lead : Opcode → UInt8
  | byte b => b
  | prefixed _ => prefixByte

end Opcode

/-! ## Indices within a family -/

def Signedness.ordinal : Signedness → UInt8
  | signed => 0
  | unsigned => 1

def Width.ordinal : Width → UInt8
  | w32 => 0
  | w64 => 1

/-- the one for 32 bits or the one for 64 bits -/
def Width.choose {α : Type} (w : Width) (narrow wide : α) : α :=
  match w with
  | .w32 => narrow
  | .w64 => wide

namespace IntBinOp

def ordinal : IntBinOp → UInt8
  | add => 0
  | sub => 1
  | mul => 2
  | div s => 3 + s.ordinal
  | rem s => 5 + s.ordinal
  | and => 7
  | or => 8
  | xor => 9
  | shl => 10
  | shr s => 11 + s.ordinal
  | rotl => 13
  | rotr => 14

def name : IntBinOp → String
  | add => "add"
  | sub => "sub"
  | mul => "mul"
  | div s => "div_" ++ s.letter
  | rem s => "rem_" ++ s.letter
  | and => "and"
  | or => "or"
  | xor => "xor"
  | shl => "shl"
  | shr s => "shr_" ++ s.letter
  | rotl => "rotl"
  | rotr => "rotr"

end IntBinOp

namespace IntRelOp

def ordinal : IntRelOp → UInt8
  | eq => 0
  | ne => 1
  | lt s => 2 + s.ordinal
  | gt s => 4 + s.ordinal
  | le s => 6 + s.ordinal
  | ge s => 8 + s.ordinal

def name : IntRelOp → String
  | eq => "eq"
  | ne => "ne"
  | lt s => "lt_" ++ s.letter
  | gt s => "gt_" ++ s.letter
  | le s => "le_" ++ s.letter
  | ge s => "ge_" ++ s.letter

end IntRelOp

namespace FloatUnOp

def ordinal : FloatUnOp → UInt8
  | abs => 0
  | neg => 1
  | ceil => 2
  | floor => 3
  | trunc => 4
  | nearest => 5
  | sqrt => 6

def name : FloatUnOp → String
  | abs => "abs"
  | neg => "neg"
  | ceil => "ceil"
  | floor => "floor"
  | trunc => "trunc"
  | nearest => "nearest"
  | sqrt => "sqrt"

end FloatUnOp

namespace FloatBinOp

def ordinal : FloatBinOp → UInt8
  | add => 0
  | sub => 1
  | mul => 2
  | div => 3
  | min => 4
  | max => 5
  | copysign => 6

def name : FloatBinOp → String
  | add => "add"
  | sub => "sub"
  | mul => "mul"
  | div => "div"
  | min => "min"
  | max => "max"
  | copysign => "copysign"

end FloatBinOp

namespace FloatRelOp

def ordinal : FloatRelOp → UInt8
  | eq => 0
  | ne => 1
  | lt => 2
  | gt => 3
  | le => 4
  | ge => 5

def name : FloatRelOp → String
  | eq => "eq"
  | ne => "ne"
  | lt => "lt"
  | gt => "gt"
  | le => "le"
  | ge => "ge"

end FloatRelOp

namespace IntUnOp

def opcode (w : Width) : IntUnOp → UInt8
  | clz => w.choose 0x67 0x79
  | ctz => w.choose 0x68 0x7A
  | popcnt => w.choose 0x69 0x7B
  | extend8 => w.choose 0xC0 0xC2
  | extend16 => w.choose 0xC1 0xC3

def name : IntUnOp → String
  | clz => "clz"
  | ctz => "ctz"
  | popcnt => "popcnt"
  | extend8 => "extend8_s"
  | extend16 => "extend16_s"

end IntUnOp

/-! ## Opcodes -/

def UnaryOp.opcode : UnaryOp → Opcode
  | eqz w => .byte (w.choose 0x45 0x50)
  | int w op => .byte (op.opcode w)
  | float w op => .byte (w.choose 0x8B 0x99 + op.ordinal)
  | extend32 => .byte 0xC4
  | wrap => .byte 0xA7
  | extend s => .byte (0xAC + s.ordinal)
  | trunc target source s => .byte (target.choose 0xA8 0xAE + 2 * source.ordinal + s.ordinal)
  | truncSat target source s => .prefixed (4 * target.ordinal + 2 * source.ordinal + s.ordinal).toUInt32
  | convert target source s => .byte (target.choose 0xB2 0xB7 + 2 * source.ordinal + s.ordinal)
  | demote => .byte 0xB6
  | promote => .byte 0xBB
  | reinterpretFloat w => .byte (w.choose 0xBC 0xBD)
  | reinterpretInt w => .byte (w.choose 0xBE 0xBF)

def BinaryOp.opcode : BinaryOp → UInt8
  | intRel w op => w.choose 0x46 0x51 + op.ordinal
  | floatRel w op => w.choose 0x5B 0x61 + op.ordinal
  | int w op => w.choose 0x6A 0x7C + op.ordinal
  | float w op => w.choose 0x92 0xA0 + op.ordinal

def LoadOp.opcode : LoadOp → UInt8
  | full (.int w) => w.choose 0x28 0x29
  | full (.float w) => w.choose 0x2A 0x2B
  | load8 w s => w.choose 0x2C 0x30 + s.ordinal
  | load16 w s => w.choose 0x2E 0x32 + s.ordinal
  | load32 s => 0x34 + s.ordinal

def StoreOp.opcode : StoreOp → UInt8
  | full (.int w) => w.choose 0x36 0x37
  | full (.float w) => w.choose 0x38 0x39
  | store8 w => w.choose 0x3A 0x3C
  | store16 w => w.choose 0x3B 0x3D
  | store32 => 0x3E

/-! ## Names -/

def UnaryOp.name : UnaryOp → String
  | eqz w => w.intName ++ ".eqz"
  | int w op => w.intName ++ "." ++ op.name
  | float w op => w.floatName ++ "." ++ op.name
  | extend32 => "i64.extend32_s"
  | wrap => "i32.wrap_i64"
  | extend s => "i64.extend_i32_" ++ s.letter
  | trunc target source s => target.intName ++ ".trunc_" ++ source.floatName ++ "_" ++ s.letter
  | truncSat target source s => target.intName ++ ".trunc_sat_" ++ source.floatName ++ "_" ++ s.letter
  | convert target source s => target.floatName ++ ".convert_" ++ source.intName ++ "_" ++ s.letter
  | demote => "f32.demote_f64"
  | promote => "f64.promote_f32"
  | reinterpretFloat w => w.intName ++ ".reinterpret_" ++ w.floatName
  | reinterpretInt w => w.floatName ++ ".reinterpret_" ++ w.intName

def BinaryOp.name : BinaryOp → String
  | int w op => w.intName ++ "." ++ op.name
  | intRel w op => w.intName ++ "." ++ op.name
  | float w op => w.floatName ++ "." ++ op.name
  | floatRel w op => w.floatName ++ "." ++ op.name

def LoadOp.name : LoadOp → String
  | full t => t.name ++ ".load"
  | load8 w s => w.intName ++ ".load8_" ++ s.letter
  | load16 w s => w.intName ++ ".load16_" ++ s.letter
  | load32 s => "i64.load32_" ++ s.letter

def StoreOp.name : StoreOp → String
  | full t => t.name ++ ".store"
  | store8 w => w.intName ++ ".store8"
  | store16 w => w.intName ++ ".store16"
  | store32 => "i64.store32"

/-! ## Enumerations -/

def Width.all : List Width := [.w32, .w64]

def Signedness.all : List Signedness := [.signed, .unsigned]

def IntUnOp.all : List IntUnOp := [.clz, .ctz, .popcnt, .extend8, .extend16]

def IntBinOp.all : List IntBinOp :=
  [.add, .sub, .mul, .and, .or, .xor, .shl, .rotl, .rotr] ++
    Signedness.all.map .div ++ Signedness.all.map .rem ++ Signedness.all.map .shr

def IntRelOp.all : List IntRelOp :=
  [.eq, .ne] ++ Signedness.all.map .lt ++ Signedness.all.map .gt ++ Signedness.all.map .le ++ Signedness.all.map .ge

def FloatUnOp.all : List FloatUnOp := [.abs, .neg, .ceil, .floor, .trunc, .nearest, .sqrt]

def FloatBinOp.all : List FloatBinOp := [.add, .sub, .mul, .div, .min, .max, .copysign]

def FloatRelOp.all : List FloatRelOp := [.eq, .ne, .lt, .gt, .le, .ge]

/-- the conversions of one kind between all widths, with and without a sign -/
def conversions (f : Width → Width → Signedness → UnaryOp) : List UnaryOp :=
  Width.all.flatMap fun target => Width.all.flatMap fun source => Signedness.all.map (f target source)

def UnaryOp.all : List UnaryOp :=
  Width.all.map .eqz ++
    (Width.all.flatMap fun w => IntUnOp.all.map (.int w)) ++
    (Width.all.flatMap fun w => FloatUnOp.all.map (.float w)) ++
    [.extend32, .wrap, .demote, .promote] ++
    Signedness.all.map .extend ++
    conversions .trunc ++ conversions .truncSat ++ conversions .convert ++
    Width.all.map .reinterpretFloat ++ Width.all.map .reinterpretInt

def BinaryOp.all : List BinaryOp :=
  Width.all.flatMap fun w =>
    IntBinOp.all.map (.int w) ++ IntRelOp.all.map (.intRel w) ++
      FloatBinOp.all.map (.float w) ++ FloatRelOp.all.map (.floatRel w)

def LoadOp.all : List LoadOp :=
  ValType.all.map .full ++
    (Width.all.flatMap fun w => Signedness.all.map (.load8 w) ++ Signedness.all.map (.load16 w)) ++
    Signedness.all.map .load32

def StoreOp.all : List StoreOp :=
  ValType.all.map .full ++ Width.all.map .store8 ++ Width.all.map .store16 ++ [.store32]

/-! ## Looking up -/

def UnaryOp.ofOpcode? (c : Opcode) : Option UnaryOp :=
  UnaryOp.all.find? fun op => op.opcode == c

def BinaryOp.ofByte? (b : UInt8) : Option BinaryOp :=
  BinaryOp.all.find? fun op => op.opcode == b

def LoadOp.ofByte? (b : UInt8) : Option LoadOp :=
  LoadOp.all.find? fun op => op.opcode == b

def StoreOp.ofByte? (b : UInt8) : Option StoreOp :=
  StoreOp.all.find? fun op => op.opcode == b

end WasmCore
