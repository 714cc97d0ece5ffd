/-
Functions: of the guest, which are bodies of instructions, and of the host, which are functions of the embedding program.

A host function takes its arguments as typed values in parameter order. What it returns, in whatever shape, is flattened and
checked against the declared results before it reaches the operand stack.
-/
import WasmCore.Instruction.Basic
import WasmCore.Trap

namespace WasmCore

/-- what a host function returns -/
inductive HostReturn where
  | unit
  | single (v : Val)
  /-- values of one type -/
  | sequence (t : ValType) (bits : List (BitVec t.width.bits))
  /-- values of any types, in the order of the results -/
  | tuple (vs : List Val)

def HostReturn.values : HostReturn → List Val
  | unit => []
  | single v => [v]
  | sequence t bits => bits.map fun b => ⟨t, b⟩
  | tuple vs => vs

structure HostFunc where
  type : FuncType
  run : List Val → Except Trap HostReturn

namespace HostFunc

/-- runs the function; its results have the declared types -/
def invoke (h : HostFunc) (args : List Val) : Except Trap (List Val) := do
  let vs := (← h.run args).values
  if vs.map Val.type = h.type.results then return vs else throw .hostSignatureMismatch

/-- the names of types in a description -/
def typeList (ts : List ValType) : String :=
  "[" ++ String.intercalate ", " (ts.map fun t => t.name.toUpper) ++ "]"

/-- a description for debugging, which cannot show what the function does -/
def description (h : HostFunc) : String :=
  "HostFunc \x7b ty: FuncType \x7b params: " ++ typeList h.type.params ++ ", results: " ++
    typeList h.type.results ++ " \x7d, .. \x7d"

end HostFunc

inductive FuncBody where
  | code (body : List Instr)
  | host (h : HostFunc)

structure Function where
  name : String
  type : FuncType
  /-- types of the locals beyond the parameters -/
  locals : List ValType
  body : FuncBody

namespace Function

def guest (name : String) (type : FuncType) (locals : List ValType) (body : List Instr) : Function :=
  ⟨name, type, locals, .code body⟩

def ofHost (name : String) (h : HostFunc) : Function :=
  ⟨name, h.type, [], .host h⟩

def isHost (f : Function) : Bool :=
  match f.body with
  | .code _ => false
  | .host _ => true

end Function

end WasmCore
