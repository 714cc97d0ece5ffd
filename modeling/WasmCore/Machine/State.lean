/-
The state of a machine.

What a run can change is the `Store`; what stays fixed during a run is the `Instance`. An instruction also sees the frame of
the function that it belongs to, and works on both in the monad `Exec`, which keeps the state even when it traps: cells
that were popped before the trap stay popped.
-/
import WasmCore.Memory
import WasmCore.Module

namespace WasmCore

/-- what runs on a machine change -/
structure Store where
  stack : OperandStack
  memory : Memory
  globals : Array Global
  /-- how many guest functions are active -/
  depth : Nat

namespace Store

def global (s : Store) (i : UInt32) : Except Trap Global :=
  match s.globals[i.toNat]? with
  | some g => .ok g
  | none => .error (.undefinedGlobal i)

/-- a global that may be written -/
def mutableGlobal (s : Store) (i : UInt32) : Except Trap Global := do
  let g ← s.global i
  if g.isMutable then return g else throw (.immutableGlobal i)

/-- the store with a global changed; one that does not exist stays so -/
def writeGlobal (s : Store) (i : UInt32) (c : Cell) : Store :=
  { s with globals := s.globals.modify i.toNat fun g => g.write c }

end Store

/-- what runs on a machine refer to -/
structure Instance where
  types : Array FuncType
  functions : Array Function
  tables : Array Table
  /-- most guest functions that may be active at a time -/
  maxCallDepth : Nat

namespace Instance

def function (inst : Instance) (i : UInt32) : Except Trap Function :=
  match inst.functions[i.toNat]? with
  | some f => .ok f
  | none => .error (.undefinedFunction i)

def table (inst : Instance) (i : UInt32) : Except Trap Table :=
  match inst.tables[i.toNat]? with
  | some t => .ok t
  | none => .error (.undefinedTable i)

def type (inst : Instance) (i : UInt32) : Except Trap FuncType :=
  match inst.types[i.toNat]? with
  | some t => .ok t
  | none => .error (.undefinedType i)

/-- the function in a slot of a table, which has to have the declared signature -/
def resolve (inst : Instance) (tableIndex slot : UInt32) (declared : FuncType) : Except Trap UInt32 := do
  match ← (← inst.table tableIndex).get slot with
  | none => throw (.uninitializedElement slot)
  | some i =>
    let f ← inst.function i
    if f.type = declared then return i else throw .indirectCallTypeMismatch

end Instance

/-- calls a host function: takes its arguments off the stack, runs it and pushes its results -/
def HostFunc.call (h : HostFunc) (stack : OperandStack) : Except Trap Unit × OperandStack :=
  match stack.popMany h.type.params.length with
  | .error t => (.error t, stack)
  | .ok (args, stack) =>
    match h.invoke (List.zipWith Val.ofCell h.type.params args) with
    | .error t => (.error t, stack)
    | .ok results => (.ok (), stack.pushAll (results.map Val.toCell))

/-- the store, and the locals of the function that is being run -/
structure State where
  store : Store
  frame : Frame

/-- a computation of the machine that may trap; the state survives a trap -/
abbrev Exec := EStateM Trap State

namespace Exec

/-! ## Stack -/

def push (c : Cell) : Exec Unit :=
  modify fun s => { s with store.stack := s.store.stack.push c }

def pop : Exec Cell := do
  let (c, stack) ← ofExcept (← get).store.stack.pop
  modify fun s => { s with store.stack := stack }
  return c

def peek : Exec Cell := do
  ofExcept (← get).store.stack.peek

/-! ## Memory -/

def readMemory (address length : Nat) : Exec Nat := do
  ofExcept ((← get).store.memory.read address length)

def writeMemory (address length n : Nat) : Exec Unit := do
  ofExcept ((← get).store.memory.check address length)
  modify fun s => { s with store.memory := s.store.memory.patch address (toLittleEndian length n) }

def pages : Exec Nat := do
  return (← get).store.memory.pages

/-- adds pages and answers how many there were, or answers nothing -/
def growMemory (delta : Nat) : Exec (Option Nat) := do
  let memory := (← get).store.memory
  if memory.canGrow delta then
    let before := memory.pages
    modify fun s => { s with store.memory := s.store.memory.extend delta }
    return some before
  else
    return none

/-! ## Variables -/

def readLocal (i : UInt32) : Exec Cell := do
  ofExcept ((← get).frame.get i)

def writeLocal (i : UInt32) (c : Cell) : Exec Unit := do
  if i.toNat < (← get).frame.size then modify fun s => { s with frame := s.frame.write i c }
  else throw (.undefinedLocal i)

def readGlobal (i : UInt32) : Exec Cell := do
  return (← ofExcept ((← get).store.global i)).cell

def writeGlobal (i : UInt32) (c : Cell) : Exec Unit := do
  let _ ← ofExcept ((← get).store.mutableGlobal i)
  modify fun s => { s with store := s.store.writeGlobal i c }

end Exec

end WasmCore
