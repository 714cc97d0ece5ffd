/-
Single instructions.

`Instr.exec` does all that an instruction does by itself, and answers as a `Flow` what happens to control. Entering a body,
branching, returning and calling are left to whoever runs the sequence.
-/
import WasmCore.Machine.State

namespace WasmCore

/-- where a branch to an open construct goes, and what it keeps -/
structure Label where
  /-- a branch starts the body again instead of leaving it -/
  restarts : Bool
  /-- height of the stack when the construct was entered -/
  height : Nat
  /-- number of values that the construct leaves behind -/
  arity : Nat
deriving DecidableEq

/-- number of values that a branch carries; starting again takes none along -/
def Label.branchArity (l : Label) : Nat :=
  if l.restarts then 0 else l.arity

/-- what happens to control after an instruction -/
inductive Flow where
  | next
  | enter (label : Label) (body : List Instr)
  | branch (depth : UInt32)
  | ret
  | call (index : UInt32)

/-- entering a body at the present height of the stack -/
def enterBody (restarts : Bool) (type : BlockType) (body : List Instr) : Exec Flow := do
  return .enter ⟨restarts, (← get).store.stack.height, type.arity⟩ body

open Exec in
def Instr.exec (inst : Instance) : Instr → Exec Flow
  | unreachable => throw .unreachable
  | nop => return .next
  | drop => do
    let _ ← pop
    return .next
  | select => do
    let condition ← pop
    let b ← pop
    let a ← pop
    push (if condition.isTrue then a else b)
    return .next
  | const v => do
    push v.toCell
    return .next
  | unary op => do
    let a ← pop
    push (op.eval a)
    return .next
  | binary op => do
    let b ← pop
    let a ← pop
    push (← ofExcept (op.eval a b))
    return .next
  | load op m => do
    let base ← pop
    let n ← readMemory (Memory.effectiveAddress base.index m.offset) op.bytes
    push (op.extend (BitVec.ofNat 64 n))
    return .next
  | store op m => do
    let value ← pop
    let base ← pop
    writeMemory (Memory.effectiveAddress base.index m.offset) op.bytes value.toNat
    return .next
  | memorySize => do
    push (.of (w := .w32) (BitVec.ofNat 32 (← pages)))
    return .next
  | memoryGrow => do
    let delta ← pop
    match ← growMemory delta.index.toNat with
    | some before => push (.of (w := .w32) (BitVec.ofNat 32 before))
    | none => push (.of (w := .w32) (-1))
    return .next
  | localGet i => do
    push (← readLocal i)
    return .next
  | localSet i => do
    writeLocal i (← pop)
    return .next
  | localTee i => do
    writeLocal i (← peek)
    return .next
  | globalGet i => do
    push (← readGlobal i)
    return .next
  | globalSet i => do
    writeGlobal i (← pop)
    return .next
  | call i => return .call i
  | callIndirect typeIndex tableIndex => do
    let slot ← pop
    let declared ← ofExcept (inst.type typeIndex)
    return .call (← ofExcept (inst.resolve tableIndex slot.index declared))
  | block type body => enterBody false type body
  | loop type body => enterBody true type body
  | ite type body otherwise => do
    let condition ← pop
    enterBody false type (if condition.isTrue then body else otherwise)
  | br depth => return .branch depth
  | brIf depth => do
    let condition ← pop
    return if condition.isTrue then .branch depth else .next
  | brTable targets fallback => do
    let i ← pop
    return .branch (targets[i.index.toNat]?.getD fallback)
  | ret => return .ret

end WasmCore
