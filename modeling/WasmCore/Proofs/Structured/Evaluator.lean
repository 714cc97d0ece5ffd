/-
A reference evaluator: structured control flow by recursion.

Where a machine keeps its open constructs and waiting functions on lists, the evaluator keeps nothing: it recurs into
bodies and into called functions, and what ends a sequence early travels outwards as a `Completion`. A construct catches
the branches that are meant for it and passes on the others, one level less deep; a function ends at every completion
but a trap. `Task.evalWith` says how each task is made up of others, `Task.eval` ties the knot for as many levels of
recursion as its fuel allows.
-/
import WasmCore.Machine.Basic

namespace WasmCore

/-- how an instruction or a sequence ends -/
inductive Completion where
  | normal
  /-- a branch that leaves `depth` more constructs before it reaches its target; `site` is the instruction it began with
  -/
  | branch (depth : Nat) (site : Site)
  | ret (site : Site)
  | trap (e : ExecError)

namespace Completion

/-- the instruction that ended a sequence before its end -/
def site? : Completion → Option Site
  | normal => none
  | branch _ site => some site
  | ret site => some site
  | trap e => e.site

/-- a branch from within `nesting` constructs, at most out of the function -/
def pending (nesting : Nat) (depth : UInt32) (site : Site) : Completion :=
  if nesting < depth.toNat then trap (.located (.invalidBranchDepth depth) site) else branch depth.toNat site

/-- what ends a run; at the outermost level a branch and a return end it in success -/
def result : Completion → Except ExecError Unit
  | trap e => .error e
  | _ => .ok ()

end Completion

/-- what a construct or a run ends with, and the state then -/
abbrev Ending := Completion × State

/-- the stack with its lowest `height` cells and its top `keep` ones, and those between them cut out; a trap if there are
not as many -/
def OperandStack.trim (s : OperandStack) (height keep : Nat) : Except Trap OperandStack :=
  if height + keep ≤ s.cells.length then
    .ok (s.withCells (s.cells.take keep ++ s.cells.drop (s.cells.length - height)))
  else .error (.stackUnderflow (height + keep) s.cells.length)

namespace Ending

/-- the trap of the instruction at `site` -/
def trapped (t : Trap) (site : Site) (s : State) : Ending :=
  (.trap (.located t site), s)

/-- an instruction that does all its work by itself -/
def own (site : Site) : EStateM.Result Trap State Completion → Ending
  | .ok c s => (c, s)
  | .error t s => trapped t site s

/-- the end of a `block` or `if` that was entered at `height`: it catches the branches to itself -/
def leaveBlock (height arity : Nat) : Ending → Ending
  | (.branch 0 site, s) =>
    match s.store.stack.trim height arity with
    | .ok stack => (.normal, { s with store.stack := stack })
    | .error t => trapped t site s
  | (.branch (depth + 1) site, s) => (.branch depth site, s)
  | ending => ending

/-- the end of a function, back in the frame of its caller -/
def leaveFunction (caller : Frame) (height arity : Nat) : Ending → Ending
  | (c, s) =>
    let s := ⟨{ s.store with depth := s.store.depth - 1 }, caller⟩
    match c with
    | .trap e => (.trap e, s)
    | c =>
      match s.store.stack.trim height arity with
      | .ok stack => (.normal, { s with store.stack := stack })
      | .error t => (.trap ⟨t, c.site?⟩, s)

end Ending

open Exec in
/-- the function that `call_indirect` calls -/
def indirectTarget (inst : Instance) (typeIndex tableIndex : UInt32) : Exec UInt32 := do
  let slot ← pop
  let declared ← ofExcept (inst.type typeIndex)
  ofExcept (inst.resolve tableIndex slot.index declared)

/-! ## Tasks -/

/-- what the evaluator recurs over -/
inductive Task where
  /-- a sequence whose first instruction is number `index`, within `nesting` constructs of its function -/
  | sequence (nesting index : Nat) (code : List Instr)
  /-- the instruction at `site` -/
  | instr (nesting : Nat) (site : Site) (i : Instr)
  /-- a loop that was entered at `height`, from the start of its body on -/
  | loop (nesting height : Nat) (body : List Instr)
  /-- a call of a function from `site` -/
  | call (site : Site) (index : UInt32)

namespace Task

open Exec Completion Ending

/-- evaluates a task by means of the tasks it consists of -/
def evalWith (inst : Instance) (eval : Task → State → Option Ending) : Task → State → Option Ending
  | sequence _ _ [], s => some (normal, s)
  | sequence nesting index (i :: rest), s =>
    (eval (instr nesting ⟨i.opcode, index⟩ i) s).bind fun
      | (normal, s) => eval (sequence nesting (index + 1) rest) s
      | ending => some ending
  | loop nesting height body, s =>
    (eval (sequence (nesting + 1) 0 body) s).bind fun
      | (branch 0 site, s) =>
        match s.store.stack.trim height 0 with
        | .ok stack => eval (loop nesting height body) { s with store.stack := stack }
        | .error t => some (trapped t site s)
      | (branch (depth + 1) site, s) => some (branch depth site, s)
      | ending => some ending
  | call site index, s =>
    match inst.function index with
    | .error t => some (trapped t site s)
    | .ok f =>
      match f.body with
      | .host h =>
        let (result, stack) := h.call s.store.stack
        let s := { s with store.stack := stack }
        match result with
        | .error t => some (trapped t site s)
        | .ok () => some (normal, s)
      | .code body =>
        if inst.maxCallDepth ≤ s.store.depth then some (trapped .callStackExhausted site s)
        else
          match Frame.enter s.store.stack f.type.params f.locals with
          | .error t => some (trapped t site s)
          | .ok (frame, stack) =>
            (eval (sequence 0 0 body) ⟨{ s.store with stack, depth := s.store.depth + 1 }, frame⟩).map
              (leaveFunction s.frame stack.height f.type.results.length)
  | instr nesting site i, s =>
    match i with
    | .block type body =>
      (eval (sequence (nesting + 1) 0 body) s).map (leaveBlock s.store.stack.height type.arity)
    | .loop _ body => eval (loop nesting s.store.stack.height body) s
    | .ite type body otherwise =>
      match pop s with
      | .error t s => some (trapped t site s)
      | .ok condition s =>
        (eval (sequence (nesting + 1) 0 (if condition.isTrue then body else otherwise)) s).map
          (leaveBlock s.store.stack.height type.arity)
    | .br depth => some (pending nesting depth site, s)
    | .brIf depth =>
      some (own site ((do
        let condition ← pop
        return if condition.isTrue then pending nesting depth site else normal) s))
    | .brTable targets fallback =>
      some (own site ((do
        let i ← pop
        return pending nesting (targets[i.index.toNat]?.getD fallback) site) s))
    | .ret => some (ret site, s)
    | .call index => eval (call site index) s
    | .callIndirect typeIndex tableIndex =>
      match indirectTarget inst typeIndex tableIndex s with
      | .error t s => some (trapped t site s)
      | .ok index s => eval (call site index) s
    -- every other instruction goes on to the next one, or traps
    | i =>
      some (own site ((do
        let _ ← i.exec inst
        return normal) s))

/-- evaluates a task, unless it recurs deeper than the fuel -/
def eval (inst : Instance) : Nat → Task → State → Option Ending
  | 0 => fun _ _ => none
  | fuel + 1 => evalWith inst (eval inst fuel)

end Task

/-- the evaluator in the place of `Machine.execute` -/
def Machine.evaluate (fuel : Nat) (m : Machine) (code : List Instr) (frame : Frame) :
    Option (Except ExecError Unit × Frame × Machine) :=
  (Task.eval m.inst fuel (.sequence 0 0 code) ⟨m.store, frame⟩).map fun (c, s) =>
    (c.result, s.frame, { m with store := s.store })

end WasmCore
