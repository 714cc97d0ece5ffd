/-
Function bodies and code entries in the binary format.

An instruction is its opcode and its immediates; the bodies of a block follow it up to the byte that ends them. A function
body has a length of its own, which counts the end marker after it, so its last instruction has to stop right before the
marker. A code entry puts a size and the declarations of the locals before the body.

Reading goes down a body one byte or more at a time and into nested bodies at most `maxNesting` deep; both recursions are
on what is left: of the bytes, and of the levels.
-/
import WasmCore.Binary.Number
import WasmCore.Instruction.Basic

namespace WasmCore

/-- what ended a nested body -/
inductive Terminator where
  | endMarker
  | otherwise
deriving DecidableEq

def Terminator.byte : Terminator → UInt8
  | endMarker => Opcode.endMarker
  | otherwise => Opcode.otherwise

/-- what can stand in a body -/
inductive Item where
  | instr (i : Instr)
  | terminator (t : Terminator)

/-- the locals and the body of a function -/
structure CodeEntry where
  locals : List ValType
  body : List Instr

namespace Reader

/-! ## Immediates -/

def readValType : Reader ValType := do
  let offset ← position
  let b ← readByte
  match ValType.ofByte? b with
  | some t => return t
  | none => throw (.invalidValueType b offset)

def readBlockType : Reader BlockType := do
  let offset ← position
  let b ← readByte
  if b = BlockType.emptyByte then return .empty
  else
    match ValType.ofByte? b with
    | some t => return .value t
    | none => throw (.invalidBlockType b offset)

def readMemArg : Reader MemArg := do
  let align ← readU32
  let offset ← readU32
  return ⟨align, offset⟩

/-- a byte that has to be zero -/
def readReserved : Reader Unit := do
  let offset ← position
  let b ← readByte
  if b ≠ 0 then throw (.invalidReserved b offset)

/-! ## Instructions -/

/-- a nested body and what ended it; `offset` is that of the opcode that opened it -/
abbrev NestedReader := (offset : Nat) → Reader (List Instr × Terminator)

/-- a nested body that ends with the end marker -/
def readClosed (nested : NestedReader) (offset : Nat) : Reader (List Instr) := do
  let (body, terminator) ← nested offset
  match terminator with
  | .endMarker => return body
  | .otherwise => throw (.unexpectedOpcode Opcode.otherwise ((← position) - 1))

/-- the second body of an `if`, empty if there is none -/
def readOtherwise (nested : NestedReader) (offset : Nat) : Terminator → Reader (List Instr)
  | .endMarker => return []
  | .otherwise => readClosed nested offset

/-- an operator without a prefix, whose opcode `b` stood at `offset` -/
def readOperator (b : UInt8) (offset : Nat) : Reader Instr := do
  match LoadOp.ofByte? b, StoreOp.ofByte? b, Instr.ofByte? b with
  | some op, _, _ => return .load op (← readMemArg)
  | _, some op, _ => return .store op (← readMemArg)
  | _, _, some i => return i
  | _, _, _ => throw (.unknownOpcode b offset)

/-- an operator after the prefix byte at `offset` -/
def readPrefixed (offset : Nat) : Reader Instr := do
  let sub ← readU32
  match UnaryOp.ofOpcode? (.prefixed sub) with
  | some op => return .unary op
  | none => throw (.unknownPrefixedOpcode Opcode.prefixByte sub offset)

/-- an instruction whose opcode `b` stood at `offset` -/
def readInstr (nested : NestedReader) (b : UInt8) (offset : Nat) : Reader Instr := do
  match b with
  | 0x02 => do
    let t ← readBlockType
    return .block t (← readClosed nested offset)
  | 0x03 => do
    let t ← readBlockType
    return .loop t (← readClosed nested offset)
  | 0x04 => do
    let t ← readBlockType
    let (body, terminator) ← nested offset
    return .ite t body (← readOtherwise nested offset terminator)
  | 0x0C => return .br (← readU32)
  | 0x0D => return .brIf (← readU32)
  | 0x0E => do
    let count ← readU32
    let targets ← replicate count.toNat readU32
    return .brTable targets (← readU32)
  | 0x10 => return .call (← readU32)
  | 0x11 => do
    let typeIndex ← readU32
    return .callIndirect typeIndex (← readU32)
  | 0x20 => return .localGet (← readU32)
  | 0x21 => return .localSet (← readU32)
  | 0x22 => return .localTee (← readU32)
  | 0x23 => return .globalGet (← readU32)
  | 0x24 => return .globalSet (← readU32)
  | 0x3F => do
    readReserved
    return .memorySize
  | 0x40 => do
    readReserved
    return .memoryGrow
  | 0x41 => return .const (.i32 (← readInt .w32))
  | 0x42 => return .const (.i64 (← readInt .w64))
  | 0x43 => return .const (.f32 (← readFloat .w32))
  | 0x44 => return .const (.f64 (← readFloat .w64))
  | 0xFC => readPrefixed offset
  | _ => readOperator b offset

def readItem (nested : NestedReader) : Reader Item := do
  let offset ← position
  let b ← readByte
  if b = Opcode.endMarker then return .terminator .endMarker
  else if b = Opcode.otherwise then return .terminator .otherwise
  else return .instr (← readInstr nested b offset)

/-! ## Sequences -/

/-- instructions up to a terminator; every item takes a byte of `fuel`, the bytes that are left at the start -/
def readUntilTerminator (item : Reader Item) (fuel : List UInt8) : Reader (List Instr × Terminator) := do
  match fuel with
  | [] => throw (.unexpectedEnd (← position))
  | _ :: fuel =>
    match ← item with
    | .terminator t => return ([], t)
    | .instr i => do
      let (rest, t) ← readUntilTerminator item fuel
      return (i :: rest, t)

/-- nested bodies, with so many levels left -/
def readNested (levels : Nat) : NestedReader := fun offset => do
  match levels with
  | 0 => throw (.nestingTooDeep offset)
  | levels + 1 => do
    modify fun c => { c with depth := c.depth + 1 }
    let result ← readUntilTerminator (readItem (readNested levels)) (← get).rest
    modify fun c => { c with depth := c.depth - 1 }
    return result

/-- instructions up to the position `stop` or beyond it -/
def readUntilPosition (item : Reader Item) (stop : Nat) (fuel : List UInt8) : Reader (List Instr) := do
  let offset ← position
  if stop ≤ offset then return []
  else
    match fuel with
    | [] => throw (.unexpectedEnd offset)
    | _ :: fuel =>
      match ← item with
      | .terminator t => throw (.unexpectedOpcode t.byte offset)
      | .instr i => return i :: (← readUntilPosition item stop fuel)

/-! ## Bodies -/

/-- instructions that end at the position `stop`, where the end marker of their body is; `start` and `expected` are where the
body began and how many bytes it has before its end marker -/
def readBodyTo (start expected stop : Nat) : Reader (List Instr) := do
  let cursor ← get
  let code ← readUntilPosition (readItem (readNested (maxNesting - cursor.depth))) stop cursor.rest
  let reached ← position
  if reached ≠ stop then throw (.lengthMismatch expected (reached - start))
  let marker ← peek?
  if marker ≠ some Opcode.endMarker then throw (.missingEndMarker marker stop)
  return code

/-- a body of `length` bytes together with its end marker, which is not read -/
def readBody (length : Nat) : Reader (List Instr) := do
  let start ← position
  match length with
  | 0 => throw (.missingEndMarker none start)
  | expected + 1 => readBodyTo start expected (start + expected)

/-- a body whose length is any word, and so is its end: where the sum is none it wraps around, to before the start -/
def readBodyWord (length : UInt64) : Reader (List Instr) := do
  let start ← position
  match length.toNat with
  | 0 => throw (.missingEndMarker none start)
  | expected + 1 => readBodyTo start expected ((start + expected) % UInt64.size)

/-- `groups` declarations of locals, after `total` locals so far -/
def readLocals (total groups : Nat) : Reader (List ValType) := do
  match groups with
  | 0 => return []
  | groups + 1 => do
    let offset ← position
    let count ← readU32
    let total := total + count.toNat
    if maxLocals < total then throw (.tooManyLocals total offset)
    let t ← readValType
    return List.replicate count.toNat t ++ (← readLocals total groups)

/-- a size, the declarations of the locals and a body, which fill the size exactly -/
def readCodeEntry : Reader CodeEntry := do
  let size ← readU32
  let start ← position
  let groups ← readU32
  let locals ← readLocals 0 groups.toNat
  let header := (← position) - start
  if size.toNat < header then throw (.lengthMismatch size.toNat header)
  let body ← readBody (size.toNat - header)
  let _ ← readByte
  return ⟨locals, body⟩

end Reader

/-- reads bytes that hold exactly one body and its end marker -/
def decodeBody (bytes : List UInt8) : Except DecodeError (List Instr) :=
  (Reader.readBody bytes.length).runOn bytes

/-- reads a code entry at the start of the bytes -/
def decodeCodeEntry (bytes : List UInt8) : Except DecodeError CodeEntry :=
  Reader.readCodeEntry.runOn bytes

end WasmCore
