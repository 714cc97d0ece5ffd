/-
Reading bytes, and the ways in which reading fails.

A `Reader` consumes bytes from a `Cursor` and keeps the cursor it reached even when it fails, so that the caller may go on
from there. Besides the bytes, the cursor counts the constructs that are open: a read that fails inside of nested blocks
leaves them counted.
-/
import WasmCore.Text.Numeral
import WasmCore.Types

namespace WasmCore

/-- most locals that one code entry may declare -/
def maxLocals : Nat := 50000

/-- deepest nesting of blocks that is read -/
def maxNesting : Nat := 128

inductive DecodeError where
  | unknownOpcode (byte : UInt8) (offset : Nat)
  | unknownPrefixedOpcode (lead : UInt8) (sub : UInt32) (offset : Nat)
  | unexpectedEnd (offset : Nat)
  | malformedLeb (offset : Nat)
  | invalidValueType (byte : UInt8) (offset : Nat)
  | invalidBlockType (byte : UInt8) (offset : Nat)
  | unexpectedOpcode (byte : UInt8) (offset : Nat)
  | missingEndMarker (found : Option UInt8) (offset : Nat)
  | invalidReserved (byte : UInt8) (offset : Nat)
  | lengthMismatch (expected consumed : Nat)
  | tooManyLocals (count offset : Nat)
  | nestingTooDeep (offset : Nat)
deriving DecidableEq

namespace DecodeError

/-- a byte that may be absent -/
def foundText : Option UInt8 → String
  | none => "None"
  | some b => s!"Some({b})"

def message : DecodeError → String
  | unknownOpcode byte offset => s!"unknown opcode {Numeral.hexByte byte} at offset {offset}"
  | unknownPrefixedOpcode lead sub offset =>
    s!"unknown sub-opcode {sub} after prefix {Numeral.hexByte lead} at offset {offset}"
  | unexpectedEnd offset => s!"unexpected end of stream at offset {offset}"
  | malformedLeb offset => s!"malformed LEB128 integer at offset {offset}"
  | invalidValueType byte offset => s!"invalid value type {Numeral.hexByte byte} at offset {offset}"
  | invalidBlockType byte offset => s!"invalid block type {Numeral.hexByte byte} at offset {offset}"
  | unexpectedOpcode byte offset => s!"unexpected {Numeral.hexByte byte} outside a block at offset {offset}"
  | missingEndMarker found offset => s!"expected end marker 0x0b at offset {offset}, found {foundText found}"
  | invalidReserved byte offset => s!"reserved byte must be zero, found {Numeral.hexByte byte} at offset {offset}"
  | lengthMismatch expected consumed => s!"body length mismatch: expected {expected} bytes, decoded {consumed}"
  | tooManyLocals count offset => s!"too many locals ({count}) at offset {offset}"
  | nestingTooDeep offset => s!"blocks nested deeper than {maxNesting} at offset {offset}"

end DecodeError

/-- a place in a stream of bytes -/
structure Cursor where
  /-- the bytes that have not been read -/
  rest : List UInt8
  /-- how many have been read -/
  position : Nat
  /-- how many blocks have been opened and not closed -/
  depth : Nat
deriving DecidableEq

namespace Cursor

/-- before the first byte -/
def start (bytes : List UInt8) : Cursor :=
  ⟨bytes, 0, 0⟩

/-- at the end of the stream -/
def isEmpty (c : Cursor) : Bool :=
  c.rest.isEmpty

end Cursor

/-- a computation that reads bytes; the cursor survives its failure -/
abbrev Reader := EStateM DecodeError Cursor

namespace Reader

def position : Reader Nat := do
  return (← get).position

/-- the next byte, without reading it -/
def peek? : Reader (Option UInt8) := do
  return (← get).rest.head?

def readByte : Reader UInt8 := fun c =>
  match c.rest with
  | [] => .error (.unexpectedEnd c.position) c
  | b :: rest => .ok b { c with rest, position := c.position + 1 }

/-- the next `n` bytes, or none of them if there are fewer -/
def readBytes (n : Nat) : Reader (List UInt8) := fun c =>
  let bytes := c.rest.take n
  if bytes.length = n then .ok bytes { c with rest := c.rest.drop n, position := c.position + n }
  else .error (.unexpectedEnd (c.position + bytes.length)) c

/-- runs the reader `n` times -/
def replicate {α : Type} (n : Nat) (item : Reader α) : Reader (List α) :=
  match n with
  | 0 => return []
  | n + 1 => do
    let x ← item
    let xs ← replicate n item
    return x :: xs

/-- the result of a read from the start of `bytes` -/
def runOn {α : Type} (r : Reader α) (bytes : List UInt8) : Except DecodeError α :=
  match r (.start bytes) with
  | .ok x _ => .ok x
  | .error e _ => .error e

end Reader

end WasmCore
