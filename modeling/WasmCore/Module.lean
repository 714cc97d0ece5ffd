/-
Modules: what a machine is instantiated from.

A module is put together piece by piece. Adding something answers its index, which stays valid whatever is added later.
Signatures are kept once each, so equal signatures have equal indices.
-/
import WasmCore.Binary.Body
import WasmCore.Function
import WasmCore.Table
import WasmCore.Variable

namespace WasmCore

structure Module where
  /-- signatures that indirect calls refer to -/
  types : Array FuncType
  functions : Array Function
  /-- names of functions, with their indices -/
  exports : Array (String × UInt32)
  /-- bytes that the memory starts with, with their addresses -/
  data : Array (UInt32 × List UInt8)
  pages : Nat
  maxPages : Option Nat
  tables : Array Table
  globals : Array Global

/-- the function index that the first of the exports with a name has -/
def findExport (exports : Array (String × UInt32)) (name : String) : Option UInt32 :=
  (exports.find? fun e => e.1 == name).map Prod.snd

namespace Module

/-- no contents and one page of memory -/
def empty : Module :=
  ⟨#[], #[], #[], #[], 1, none, #[], #[]⟩

/-- adds a signature unless it is there already -/
def addType (m : Module) (t : FuncType) : UInt32 × Module :=
  match m.types.idxOf? t with
  | some i => (UInt32.ofNat i, m)
  | none => (UInt32.ofNat m.types.size, { m with types := m.types.push t })

def addFunction (m : Module) (f : Function) : UInt32 × Module :=
  (UInt32.ofNat m.functions.size, { m with functions := m.functions.push f })

def addHost (m : Module) (name : String) (h : HostFunc) : UInt32 × Module :=
  m.addFunction (.ofHost name h)

/-- adds the function that a code entry holds -/
def addCodeEntry (m : Module) (name : String) (type : FuncType) (bytes : List UInt8) :
    Except DecodeError (UInt32 × Module) :=
  (decodeCodeEntry bytes).map fun e => m.addFunction (.guest name type e.locals e.body)

def addExport (m : Module) (name : String) (index : UInt32) : Module :=
  { m with exports := m.exports.push (name, index) }

def addTable (m : Module) (t : Table) : UInt32 × Module :=
  (UInt32.ofNat m.tables.size, { m with tables := m.tables.push t })

def addGlobal (m : Module) (init : Val) (isMutable : Bool) : UInt32 × Module :=
  (UInt32.ofNat m.globals.size, { m with globals := m.globals.push (.new init isMutable) })

def addData (m : Module) (offset : UInt32) (bytes : List UInt8) : Module :=
  { m with data := m.data.push (offset, bytes) }

def findExport (m : Module) (name : String) : Option UInt32 :=
  WasmCore.findExport m.exports name

end Module

/-- limits for the machines of an embedding -/
structure Limits where
  /-- most pages of memory, if it is less than the module's own limit -/
  maxMemoryPages : Option Nat
  /-- room on the operand stack at the start -/
  stackCapacity : Nat
  /-- most calls that may be nested -/
  maxCallDepth : Nat
deriving DecidableEq

def Limits.default : Limits :=
  ⟨none, OperandStack.defaultCapacity, 1024⟩

end WasmCore
