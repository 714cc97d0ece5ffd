/-
Runs: control over sequences of instructions.

A configuration is the state, what the active function has still to run, and the callers that wait for it. The constructs
that are open in a function are a list, the innermost first, apart from the function's own body; so a branch counts open
constructs, and counting exactly all of them leaves the function. A function called within a run cuts the stack to its
results when it ends. The outermost sequence is not cut: whoever started it does that.

`Config.step` runs one instruction, or ends one sequence. `Config.run` repeats it a bounded number of times; without an
outcome by then it answers `none`, which is neither success nor a trap.
-/
import WasmCore.Machine.Exec

namespace WasmCore

/-- a sequence that is being run -/
structure Sequence where
  code : List Instr
  /-- what has not been run yet, the end of `code` -/
  rest : List Instr

namespace Sequence

def start (code : List Instr) : Sequence :=
  ⟨code, code⟩

/-- index of the instruction before the rest, which is the one being run -/
def index (q : Sequence) : Nat :=
  q.code.length - q.rest.length - 1

end Sequence

/-- a `block`, `loop` or `if` whose body is being run -/
structure OpenBlock where
  label : Label
  body : Sequence

/-- what a function has still to run -/
structure Control where
  /-- the open constructs, the innermost first -/
  blocks : List OpenBlock
  /-- the function's own sequence -/
  body : Sequence

namespace Control

def start (code : List Instr) : Control :=
  ⟨[], .start code⟩

/-- the innermost sequence -/
def innermost (k : Control) : Sequence :=
  match k.blocks with
  | [] => k.body
  | b :: _ => b.body

/-- the next instruction of the innermost sequence, and control after it -/
def next? (k : Control) : Option (Instr × Control) :=
  match k.blocks with
  | [] =>
    match k.body.rest with
    | [] => none
    | i :: rest => some (i, { k with body := { k.body with rest } })
  | b :: blocks =>
    match b.body.rest with
    | [] => none
    | i :: rest => some (i, { k with blocks := { b with body := { b.body with rest } } :: blocks })

end Control

/-- a function that waits for a call to return -/
structure Caller where
  frame : Frame
  control : Control
  /-- height of the stack under the call, once its arguments were taken -/
  height : Nat
  /-- number of values that the call leaves behind -/
  arity : Nat

structure Config where
  state : State
  control : Control
  /-- the waiting functions, the innermost first -/
  callers : List Caller

/-- how a run ended, with the frame of its outermost sequence -/
structure Outcome where
  result : Except ExecError Unit
  state : State

/-- what a step leads to -/
inductive Progress where
  | running (c : Config)
  | ended (o : Outcome)

namespace Config

/-- before the first instruction -/
def start (state : State) (code : List Instr) : Config :=
  ⟨state, .start code, []⟩

/-- the frame of the outermost sequence -/
def outermostFrame (c : Config) : Frame :=
  match c.callers.getLast? with
  | none => c.state.frame
  | some caller => caller.frame

/-- ends the run with an error; the functions called within it are no longer active -/
def fail (c : Config) (e : ExecError) : Progress :=
  .ended ⟨.error e,
    ⟨{ c.state.store with depth := c.state.store.depth - c.callers.length }, c.outermostFrame⟩⟩

/-- leaves the active function; `site` is the instruction that does, if it is not the end of the body -/
def leave (c : Config) (site : Option Site) : Progress :=
  match c.callers with
  | [] => .ended ⟨.ok (), c.state⟩
  | caller :: callers =>
    let store := { c.state.store with depth := c.state.store.depth - 1 }
    match store.stack.unwind caller.height caller.arity with
    | .ok stack => .running ⟨⟨{ store with stack }, caller.frame⟩, caller.control, callers⟩
    | .error t => fail ⟨⟨store, caller.frame⟩, caller.control, callers⟩ ⟨t, site⟩

/-- branches to the open construct number `depth`, counted from the innermost one, or out of the function -/
def branch (c : Config) (depth : UInt32) (site : Site) : Progress :=
  match c.control.blocks.drop depth.toNat with
  | [] =>
    if depth.toNat = c.control.blocks.length then c.leave (some site)
    else c.fail (.located (.invalidBranchDepth depth) site)
  | target :: outer =>
    match c.state.store.stack.unwind target.label.height target.label.branchArity with
    | .error t => c.fail (.located t site)
    | .ok stack =>
      let blocks :=
        if target.label.restarts then { target with body := .start target.body.code } :: outer else outer
      .running { c with state.store.stack := stack, control.blocks := blocks }

/-- calls a function: one of the host runs at once, one of the guest becomes the active function -/
def call (inst : Instance) (c : Config) (index : UInt32) (site : Site) : Progress :=
  match inst.function index with
  | .error t => c.fail (.located t site)
  | .ok f =>
    match f.body with
    | .host h =>
      let (result, stack) := h.call c.state.store.stack
      let c := { c with state.store.stack := stack }
      match result with
      | .error t => c.fail (.located t site)
      | .ok () => .running c
    | .code body =>
      if inst.maxCallDepth ≤ c.state.store.depth then c.fail (.located .callStackExhausted site)
      else
        match Frame.enter c.state.store.stack f.type.params f.locals with
        | .error t => c.fail (.located t site)
        | .ok (frame, stack) =>
          .running ⟨⟨{ c.state.store with stack, depth := c.state.store.depth + 1 }, frame⟩, .start body,
            ⟨c.state.frame, c.control, stack.height, f.type.results.length⟩ :: c.callers⟩

/-- the end of the innermost sequence -/
def finishSequence (c : Config) : Progress :=
  match c.control.blocks with
  | [] => c.leave none
  | _ :: blocks => .running { c with control.blocks := blocks }

/-- what follows an instruction, with control already after it -/
def follow (inst : Instance) (c : Config) (site : Site) : Flow → Progress
  | .next => .running c
  | .enter label body => .running { c with control.blocks := ⟨label, .start body⟩ :: c.control.blocks }
  | .branch depth => c.branch depth site
  | .ret => c.leave (some site)
  | .call index => c.call inst index site

/-- runs the next instruction, or ends the innermost sequence -/
def step (inst : Instance) (c : Config) : Progress :=
  match c.control.next? with
  | none => c.finishSequence
  | some (i, control) =>
    match i.exec inst c.state with
    | .error t state =>
      fail ⟨state, control, c.callers⟩ (.located t ⟨i.opcode, control.innermost.index⟩)
    | .ok flow state =>
      follow inst ⟨state, control, c.callers⟩ ⟨i.opcode, control.innermost.index⟩ flow

/-- the outcome, if there is one within so many steps -/
def run (inst : Instance) : Nat → Config → Option Outcome
  | 0, _ => none
  | fuel + 1, c =>
    match c.step inst with
    | .running c => run inst fuel c
    | .ended o => some o

end Config

end WasmCore
