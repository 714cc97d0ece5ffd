/-
Instructions.

A body is a list of instructions; `block`, `loop` and `if` hold their bodies, so the structure of control is the structure
of the tree and no jump target is ever searched for.
-/
import WasmCore.Operator.Encoding
import WasmCore.Value

namespace WasmCore

/-- the immediates of a memory access: an alignment hint, which has no effect, and a constant offset -/
structure MemArg where
  align : UInt32
  offset : UInt32
deriving DecidableEq, Repr

/-- what a `block`, `loop` or `if` leaves behind -/
inductive BlockType where
  | empty
  | value (t : ValType)
deriving DecidableEq, Repr

namespace BlockType

/-- number of values left behind -/
def arity : BlockType → Nat
  | empty => 0
  | value _ => 1

/-- the byte that stands for the empty type in the binary format -/
def emptyByte : UInt8 := 0x40

def byte : BlockType → UInt8
  | empty => emptyByte
  | value t => t.byte

end BlockType

inductive Instr where
  | unreachable
  | nop
  | ret
  | drop
  | select
  | const (v : Val)
  | unary (op : UnaryOp)
  | binary (op : BinaryOp)
  | load (op : LoadOp) (arg : MemArg)
  | store (op : StoreOp) (arg : MemArg)
  | memorySize
  | memoryGrow
  | localGet (index : UInt32)
  | localSet (index : UInt32)
  | localTee (index : UInt32)
  | globalGet (index : UInt32)
  | globalSet (index : UInt32)
  | call (index : UInt32)
  | callIndirect (typeIndex tableIndex : UInt32)
  | block (type : BlockType) (body : List Instr)
  | loop (type : BlockType) (body : List Instr)
  | ite (type : BlockType) (body otherwise : List Instr)
  | br (depth : UInt32)
  | brIf (depth : UInt32)
  | brTable (targets : List UInt32) (fallback : UInt32)

/-! ## Opcodes -/

namespace Opcode

def block : UInt8 := 0x02
def loop : UInt8 := 0x03
def ite : UInt8 := 0x04
def otherwise : UInt8 := 0x05
def endMarker : UInt8 := 0x0B

end Opcode

namespace Instr

/-- the byte of a constant of the type -/
def constOpcode : ValType → UInt8
  | .i32 => 0x41
  | .i64 => 0x42
  | .f32 => 0x43
  | .f64 => 0x44

/-- the first byte of the instruction -/
def opcode : Instr → UInt8
  | unreachable => 0x00
  | nop => 0x01
  | block .. => Opcode.block
  | loop .. => Opcode.loop
  | ite .. => Opcode.ite
  | br _ => 0x0C
  | brIf _ => 0x0D
  | brTable .. => 0x0E
  | ret => 0x0F
  | call _ => 0x10
  | callIndirect .. => 0x11
  | drop => 0x1A
  | select => 0x1B
  | localGet _ => 0x20
  | localSet _ => 0x21
  | localTee _ => 0x22
  | globalGet _ => 0x23
  | globalSet _ => 0x24
  | load op _ => op.opcode
  | store op _ => op.opcode
  | memorySize => 0x3F
  | memoryGrow => 0x40
  | const v => constOpcode v.type
  | unary op => op.opcode.lead
  | binary op => op.opcode

/-- the instructions that are written as their opcode alone, the saturating truncations apart -/
def plain : List Instr :=
  [unreachable, nop, ret, drop, select] ++ BinaryOp.all.map binary

/-- the instruction that is written as one byte -/
def ofByte? (b : UInt8) : Option Instr :=
  ((UnaryOp.ofOpcode? (.byte b)).map unary).or (plain.find? fun i => i.opcode == b)

/-! ## Instructions within instructions -/

mutual

/-- the instruction and those in its bodies, in the order of the text -/
def flatten (i : Instr) : List Instr :=
  match i with
  | block _ body => i :: flattenAll body
  | loop _ body => i :: flattenAll body
  | ite _ body otherwise => i :: (flattenAll body ++ flattenAll otherwise)
  | _ => [i]

/-- all instructions of a body, in the order of the text -/
def flattenAll : List Instr → List Instr
  | [] => []
  | i :: rest => flatten i ++ flattenAll rest

end

end Instr

end WasmCore
