/-
Variables: globals, and the locals of a function.

A variable is a type and a cell. Whatever is written to it is cut to as many bits as the type has, so that reading a variable
of 32 bits gives a cell with a clear high half.
-/
import WasmCore.OperandStack
import WasmCore.Value

namespace WasmCore

/-! ## Globals -/

structure Global where
  type : ValType
  isMutable : Bool
  cell : Cell
deriving DecidableEq

namespace Global

def new (init : Val) (isMutable : Bool) : Global :=
  ⟨init.type, isMutable, init.toCell⟩

def value (g : Global) : Val :=
  .ofCell g.type g.cell

/-- the global with another cell of its type; whether it may be written is for the caller to check -/
def write (g : Global) (c : Cell) : Global :=
  { g with cell := c.mask g.type.width }

end Global

/-! ## Frames -/

/-- a local variable -/
structure Variable where
  type : ValType
  cell : Cell
deriving DecidableEq

namespace Variable

def value (v : Variable) : Val :=
  .ofCell v.type v.cell

/-- the variable with another cell of its type -/
def write (v : Variable) (c : Cell) : Variable :=
  { v with cell := c.mask v.type.width }

/-- a variable of the type that holds what an argument's cell does -/
def argument (t : ValType) (c : Cell) : Variable :=
  ⟨t, c.mask t.width⟩

/-- a variable that starts from zero -/
def zero (t : ValType) : Variable :=
  ⟨t, 0⟩

/-- the variable that a value is kept in -/
def holding (v : Val) : Variable :=
  ⟨v.type, v.toCell⟩

/-- of an argument's cell only the value is kept -/
theorem argument_eq (t : ValType) (c : Cell) : argument t c = holding (.ofCell t c) := by
  rw [argument, Cell.mask_eq]
  rfl

theorem arguments_eq (ts : List ValType) (cs : List Cell) :
    List.zipWith argument ts cs = (List.zipWith Val.ofCell ts cs).map holding := by
  rw [List.map_zipWith]
  exact congrArg (List.zipWith · ts cs) (funext fun t => funext fun c => argument_eq t c)

end Variable

/-- the local variables of a function that is being run: its parameters, then its declared locals -/
structure Frame where
  vars : Array Variable
deriving DecidableEq

namespace Frame

def empty : Frame := ⟨#[]⟩

def size (f : Frame) : Nat :=
  f.vars.size

/-- takes the arguments off the stack, the first of them pushed first, and starts the other locals from zero -/
def enter (s : OperandStack) (params locals : List ValType) : Except Trap (Frame × OperandStack) :=
  (s.popMany params.length).map fun (args, s) =>
    (⟨(List.zipWith Variable.argument params args ++ locals.map Variable.zero).toArray⟩, s)

def variableAt (f : Frame) (i : UInt32) : Except Trap Variable :=
  match f.vars[i.toNat]? with
  | some v => .ok v
  | none => .error (.undefinedLocal i)

def value (f : Frame) (i : UInt32) : Except Trap Val :=
  (f.variableAt i).map Variable.value

def get (f : Frame) (i : UInt32) : Except Trap Cell :=
  (f.variableAt i).map Variable.cell

/-- the frame with a variable changed; one that does not exist stays so -/
def write (f : Frame) (i : UInt32) (c : Cell) : Frame :=
  ⟨f.vars.modify i.toNat fun v => v.write c⟩

def set (f : Frame) (i : UInt32) (c : Cell) : Except Trap Frame :=
  if i.toNat < f.size then .ok (f.write i c) else .error (.undefinedLocal i)

end Frame

end WasmCore
