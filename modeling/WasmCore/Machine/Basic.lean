/-
Machines: live instances of a module.

A machine is called by export name, by function index or through a table, or runs a sequence of its own. Whatever can loop
takes a bound on the number of steps and answers `none` if it is not done by then; the machine lives on after a trap.
-/
import WasmCore.Machine.Control

namespace WasmCore

structure Machine where
  inst : Instance
  exports : Array (String × UInt32)
  store : Store

/-- the answer of a call and the machine after it, or nothing if the steps did not suffice -/
abbrev Bounded (α : Type) := Option (Except ExecError α × Machine)

namespace Machine

/-! ## Instantiation -/

/-- the smaller of two limits that may be absent -/
def smallerLimit : Option Nat → Option Nat → Option Nat
  | some a, some b => some (min a b)
  | some a, none => some a
  | none, b => b

/-- writes the segments into the memory, one after another -/
def writeSegments (memory : Memory) (data : List (UInt32 × List UInt8)) : Except Trap Memory :=
  data.foldlM (fun m (offset, bytes) => m.store offset.toNat bytes) memory

def instantiate (m : Module) (limits : Limits) : Except Trap Machine := do
  let memory ← writeSegments (.new m.pages (smallerLimit m.maxPages limits.maxMemoryPages)) m.data.toList
  return {
    inst := ⟨m.types, m.functions, m.tables, limits.maxCallDepth⟩
    exports := m.exports
    store := ⟨.empty limits.stackCapacity, memory, m.globals, 0⟩ }

def findExport (m : Machine) (name : String) : Option UInt32 :=
  WasmCore.findExport m.exports name

/-! ## Access by the embedding program -/

def withStack (m : Machine) (stack : OperandStack) : Machine :=
  { m with store.stack := stack }

def stack (m : Machine) : OperandStack :=
  m.store.stack

def memory (m : Machine) : Memory :=
  m.store.memory

def withMemory (m : Machine) (memory : Memory) : Machine :=
  { m with store.memory := memory }

def global (m : Machine) (i : UInt32) : Except Trap Global :=
  m.store.global i

/-- writes a global, if it is mutable and the value has its type -/
def setGlobal (m : Machine) (i : UInt32) (v : Val) : Except Trap Machine := do
  let g ← m.store.mutableGlobal i
  if g.type ≠ v.type then throw (.globalTypeMismatch g.type)
  return { m with store := m.store.writeGlobal i v.toCell }

def table (m : Machine) (i : UInt32) : Except Trap Table :=
  m.inst.table i

def withTable (m : Machine) (i : UInt32) (t : Table) : Machine :=
  { m with inst.tables := m.inst.tables.setIfInBounds i.toNat t }

/-! ## Calls -/

/-- runs a sequence as the body of a function with the given locals; its values stay on the stack -/
def execute (fuel : Nat) (m : Machine) (code : List Instr) (frame : Frame) :
    Option (Except ExecError Unit × Frame × Machine) :=
  (Config.run m.inst fuel (.start ⟨m.store, frame⟩ code)).map fun o =>
    (o.result, o.state.frame, { m with store := o.state.store })

/-- a failure that left the machine as it is -/
def failed {α : Type} (m : Machine) (t : Trap) : Bounded α :=
  some (.error (.unlocated t), m)

/-- runs a guest function whose body is `code`, and cuts the stack to its results -/
def callGuest (fuel : Nat) (m : Machine) (f : Function) (code : List Instr) : Bounded Unit :=
  if m.inst.maxCallDepth ≤ m.store.depth then m.failed .callStackExhausted
  else
    match Frame.enter m.stack f.type.params f.locals with
    | .error t => m.failed t
    | .ok (frame, stack) =>
      let entered := { m with store := { m.store with stack, depth := m.store.depth + 1 } }
      (entered.execute fuel code frame).bind fun (result, _, m) =>
      let m := { m with store.depth := m.store.depth - 1 }
      match result with
      | .error e => some (.error e, m)
      | .ok () =>
        match m.stack.unwind stack.height f.type.results.length with
        | .error t => m.failed t
        | .ok stack => some (.ok (), m.withStack stack)

/-- runs a function, whose arguments are on the stack, and leaves its results there -/
def callFunction (fuel : Nat) (m : Machine) (index : UInt32) : Bounded Unit :=
  match m.inst.function index with
  | .error t => m.failed t
  | .ok f =>
    match f.body with
    | .host h =>
      let (result, stack) := h.call m.stack
      some (result.mapError .unlocated, m.withStack stack)
    | .code code => m.callGuest fuel f code

/-- takes values of the given types off the stack -/
def popValues (m : Machine) (ts : List ValType) : Except Trap (List Val × Machine) :=
  (m.stack.popMany ts.length).map fun (cs, stack) => (List.zipWith Val.ofCell ts cs, m.withStack stack)

/-- calls a function whose arguments are on the stack and takes its results off -/
def call (fuel : Nat) (m : Machine) (index : UInt32) : Bounded (List Val) :=
  match m.inst.function index with
  | .error t => m.failed t
  | .ok f =>
    (m.callFunction fuel index).bind fun (result, m) =>
    match result with
    | .error e => some (.error e, m)
    | .ok () =>
      match m.popValues f.type.results with
      | .error t => m.failed t
      | .ok (vs, m) => some (.ok vs, m)

/-- takes a slot number off the stack and calls the function in that slot of a table -/
def callIndirect (fuel : Nat) (m : Machine) (tableIndex : UInt32) (declared : FuncType) :
    Bounded (List Val) :=
  match m.stack.pop with
  | .error t => m.failed t
  | .ok (slot, stack) =>
    let m := m.withStack stack
    match m.inst.resolve tableIndex slot.index declared with
    | .error t => m.failed t
    | .ok index => m.call fuel index

/-- calls an exported function; a call that fails leaves the stack as it was before the arguments -/
def invoke (fuel : Nat) (m : Machine) (name : String) (args : List Val) : Bounded (List Val) :=
  match m.findExport name with
  | none => m.failed (.undefinedExport name)
  | some index =>
    match m.inst.function index with
    | .error t => m.failed t
    | .ok f =>
      if args.map Val.type ≠ f.type.params then m.failed (.argumentMismatch f.type)
      else
        let height := m.stack.height
        let pushed := m.withStack (m.stack.pushAll (args.map Val.toCell))
        (pushed.call fuel index).bind fun (result, m) =>
        match result with
        | .ok vs => some (.ok vs, m)
        | .error e => some (.error e, m.withStack (m.stack.truncate height))

end Machine

/-- a failure of whoever decodes and runs in one go -/
inductive PhaseError where
  | decode (e : DecodeError)
  | exec (e : ExecError)
deriving DecidableEq

def PhaseError.message : PhaseError → String
  | decode e => s!"decode error: {e.message}"
  | exec e => e.message

end WasmCore
