/-
Traps: the ways in which execution can fail, and where.

A trap names its cause; `Trap.message` words it. An `ExecError` adds the instruction at which a run stopped, if there is
one: its leading opcode byte and its index in the innermost sequence that was being run.
-/
import WasmCore.Types
import WasmCore.Text.Numeral

namespace WasmCore

inductive Trap where
  | divisionByZero
  | integerOverflow
  | memoryOutOfBounds (address length size : Nat)
  | outOfMemory
  | unreachable
  | stackUnderflow (needed depth : Nat)
  | callStackExhausted
  | undefinedElement (index : UInt32)
  | uninitializedElement (index : UInt32)
  | indirectCallTypeMismatch
  | undefinedFunction (index : UInt32)
  | undefinedType (index : UInt32)
  | undefinedTable (index : UInt32)
  | undefinedGlobal (index : UInt32)
  | undefinedLocal (index : UInt32)
  | immutableGlobal (index : UInt32)
  | invalidBranchDepth (depth : UInt32)
  | undefinedExport (name : String)
  /-- the arguments of a call do not have the types of the signature -/
  | argumentMismatch (signature : FuncType)
  /-- a value for a global does not have the type of the global -/
  | globalTypeMismatch (type : ValType)
  | hostSignatureMismatch
  /-- the embedder's function failed with a message of its own -/
  | hostError (message : String)
deriving DecidableEq

def Trap.message : Trap → String
  | divisionByZero => "integer divide by zero"
  | integerOverflow => "integer overflow"
  | memoryOutOfBounds address length size =>
    s!"out of bounds memory access: {length} bytes at {Numeral.hexMarked 1 address} (memory size {size})"
  | outOfMemory => "out of memory"
  | unreachable => "unreachable executed"
  | stackUnderflow needed depth => s!"operand stack underflow: need {needed}, have {depth}"
  | callStackExhausted => "call stack exhausted"
  | undefinedElement index => s!"undefined element {index}"
  | uninitializedElement index => s!"uninitialized element {index}"
  | indirectCallTypeMismatch => "indirect call type mismatch"
  | undefinedFunction index => s!"undefined function {index}"
  | undefinedType index => s!"undefined type {index}"
  | undefinedTable index => s!"undefined table {index}"
  | undefinedGlobal index => s!"undefined global {index}"
  | undefinedLocal index => s!"undefined local {index}"
  | immutableGlobal index => s!"global {index} is immutable"
  | invalidBranchDepth depth => s!"branch depth {depth} exceeds enclosing labels"
  | undefinedExport name => s!"undefined export: {name}"
  | argumentMismatch signature => s!"arguments do not match signature {signature.text}"
  | globalTypeMismatch type => s!"arguments do not match signature {type.name}"
  | hostSignatureMismatch => "host function returned values not matching its signature"
  | hostError message => s!"host error: {message}"

/-- the instruction at which a run stopped -/
structure Site where
  opcode : UInt8
  index : Nat
deriving DecidableEq

def Site.text (s : Site) : String :=
  s!"opcode {Numeral.hexByte s.opcode} at instruction {s.index}"

/-- a trap that ended a run, with its site if an instruction raised it -/
structure ExecError where
  trap : Trap
  site : Option Site
deriving DecidableEq

namespace ExecError

def message (e : ExecError) : String :=
  match e.site with
  | some site => s!"trap: {e.trap.message} ({site.text})"
  | none => s!"trap: {e.trap.message}"

/-- a trap raised outside the instructions of a body -/
def unlocated (t : Trap) : ExecError :=
  ⟨t, none⟩

def located (t : Trap) (site : Site) : ExecError :=
  ⟨t, some site⟩

end ExecError

end WasmCore
