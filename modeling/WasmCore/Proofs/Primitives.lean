/-
What instructions are made of.

An instruction works on the state through a few operations, one after another, and answers a flow at the end
(`Instr.exec_built`). Whatever holds of each of these operations, and passes from one to the next, therefore holds of
every instruction, and does not have to be looked for in each of them.
-/
import WasmCore.Proofs.Exec

namespace WasmCore

namespace Exec

/-- an operation on the state, or a check that does not look at it -/
inductive Primitive : {α : Type} → Exec α → Prop
  | ofExcept {α : Type} (r : Except Trap α) : Primitive (ofExcept r)
  | push (c : Cell) : Primitive (push c)
  | pop : Primitive pop
  | peek : Primitive peek
  | readMemory (address length : Nat) : Primitive (readMemory address length)
  | writeMemory (address length n : Nat) : Primitive (writeMemory address length n)
  | pages : Primitive pages
  | growMemory (delta : Nat) : Primitive (growMemory delta)
  | readLocal (i : UInt32) : Primitive (readLocal i)
  | writeLocal (i : UInt32) (c : Cell) : Primitive (writeLocal i c)
  | readGlobal (i : UInt32) : Primitive (readGlobal i)
  | writeGlobal (i : UInt32) (c : Cell) : Primitive (writeGlobal i c)

/-- Operations one after another, and a flow at the end. What follows an operation depends on its answer only; just the
label of a body that is entered depends on the state. -/
inductive Built : Exec Flow → Prop
  | next : Built (pure .next)
  | branch (depth : UInt32) : Built (pure (.branch depth))
  | ret : Built (pure .ret)
  | call (i : UInt32) : Built (pure (.call i))
  | enter (restarts : Bool) (type : BlockType) (body : List Instr) : Built (enterBody restarts type body)
  | throw (t : Trap) : Built (throw t)
  | after {α : Type} {x : Exec α} {f : α → Exec Flow} (hx : Primitive x) (hf : ∀ a, Built (f a)) : Built (x >>= f)

end Exec

open Exec.Built in
/-- **Every instruction is built in this way**, in valid and in invalid code -/
theorem Instr.exec_built (inst : Instance) (i : Instr) : (i.exec inst).Built := by
  cases i with
  | unreachable => exact .throw _
  | nop => exact next
  | drop => exact after .pop fun _ => next
  | select => exact after .pop fun _ => after .pop fun _ => after .pop fun _ => after (.push _) fun _ => next
  | const v => exact after (.push _) fun _ => next
  | unary op => exact after .pop fun _ => after (.push _) fun _ => next
  | binary op =>
    exact after .pop fun _ => after .pop fun _ => after (.ofExcept _) fun _ => after (.push _) fun _ => next
  | load op arg => exact after .pop fun _ => after (.readMemory _ _) fun _ => after (.push _) fun _ => next
  | store op arg => exact after .pop fun _ => after .pop fun _ => after (.writeMemory _ _ _) fun _ => next
  | memorySize => exact after .pages fun _ => after (.push _) fun _ => next
  | memoryGrow =>
    refine after .pop fun _ => after (.growMemory _) fun before => ?_
    cases before with
    | none => exact after (.push _) fun _ => next
    | some before => exact after (.push _) fun _ => next
  | localGet i => exact after (.readLocal i) fun _ => after (.push _) fun _ => next
  | localSet i => exact after .pop fun _ => after (.writeLocal i _) fun _ => next
  | localTee i => exact after .peek fun _ => after (.writeLocal i _) fun _ => next
  | globalGet i => exact after (.readGlobal i) fun _ => after (.push _) fun _ => next
  | globalSet i => exact after .pop fun _ => after (.writeGlobal i _) fun _ => next
  | call i => exact .call i
  | callIndirect typeIndex tableIndex =>
    exact after .pop fun _ => after (.ofExcept _) fun _ => after (.ofExcept _) fun _ => .call _
  | block type body => exact enter _ _ _
  | loop type body => exact enter _ _ _
  | ite type body otherwise => exact after .pop fun _ => enter _ _ _
  | br depth => exact branch depth
  | brIf depth =>
    refine after .pop fun condition => ?_
    cases condition.isTrue with
    | true => exact branch depth
    | false => exact next
  | brTable targets fallback => exact after .pop fun _ => branch _
  | ret => exact .ret

end WasmCore
