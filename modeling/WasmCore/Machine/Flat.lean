/-
Runs on one control stack.

A loop that does not call itself keeps control in two stacks. On `ctrl` are the sequences of all active functions, one
above the other: each function has an entry for its own sequence, and above it one for each construct that is open in it.
On `calls` are the functions that were called within the run, and each of these knows where its own entry is. Nothing but
the numbers keeps one function's entries apart from another's: a branch counts down from the uppermost entry, and has to
stop at the entry of the active function (`Flat.floor`); whatever leaves a function cuts the stack there.

`Config` has the same run with the functions kept apart (`Flat.run_start`).
-/
import WasmCore.Machine.Control

namespace WasmCore

namespace Flat

/-- what has an entry on the control stack -/
inductive Owner where
  /-- a function, for its own sequence -/
  | function
  | construct (label : Label)

structure Entry where
  code : List Instr
  /-- index of the next instruction -/
  pc : Nat
  owner : Owner

/-- a function that was called within the run -/
structure Activation where
  frame : Frame
  /-- height of the stack under the call, once the arguments were taken -/
  base : Nat
  /-- number of values that the call leaves behind -/
  arity : Nat
  /-- where the function has its own entry on the control stack -/
  labelIndex : Nat

end Flat

structure Flat where
  store : Store
  /-- the locals of the outermost sequence -/
  outer : Frame
  /-- the outermost entry first -/
  ctrl : List Flat.Entry
  /-- the function first that was called first -/
  calls : List Flat.Activation

namespace Flat

/-- part of a round of the loop; what it has done stays done if it traps -/
abbrev Part := EStateM Trap Flat

/-- before the first instruction -/
def start (state : State) (code : List Instr) : Flat :=
  ⟨state.store, state.frame, [⟨code, 0, .function⟩], []⟩

/-! ## The active function -/

/-- the locals of the active function -/
def frame (m : Flat) : Frame :=
  match m.calls.getLast? with
  | none => m.outer
  | some act => act.frame

/-- where the active function has its own entry -/
def floor (m : Flat) : Nat :=
  match m.calls.getLast? with
  | none => 0
  | some act => act.labelIndex

/-- with another store, and other locals of the active function -/
def withState (m : Flat) (s : State) : Flat :=
  match m.calls.getLast? with
  | none => { m with store := s.store, outer := s.frame }
  | some act => { m with store := s.store, calls := m.calls.dropLast ++ [{ act with frame := s.frame }] }

/-- what an instruction does by itself -/
def exec (inst : Instance) (i : Instr) : Part Flow := fun m =>
  match i.exec inst ⟨m.store, m.frame⟩ with
  | .ok flow s => .ok flow (m.withState s)
  | .error t s => .error t (m.withState s)

/-! ## Control -/

def unwindTo (height keep : Nat) : Part Unit := do
  let stack ← ofExcept ((← get).store.stack.unwind height keep)
  modify fun m => { m with store.stack := stack }

/-- takes away the entry of a function and all above it; if the function was called within the run, this completes the
call -/
def leaveFunction (idx : Nat) : Part Unit := do
  modify fun m => { m with ctrl := m.ctrl.take idx }
  if idx ≠ 0 then
    match (← get).calls.getLast? with
    | none => return
    | some act =>
      modify fun m => { m with store.depth := m.store.depth - 1, calls := m.calls.dropLast }
      unwindTo act.base act.arity

/-- where the entry is that a branch of a depth goes to, if it is one of the active function -/
def target? (m : Flat) (depth : Nat) : Option (Nat × Entry) :=
  if 1 + depth ≤ m.ctrl.length ∧ m.floor ≤ m.ctrl.length - (1 + depth) then
    m.ctrl[m.ctrl.length - (1 + depth)]?.map (m.ctrl.length - (1 + depth), ·)
  else none

/-- goes to the entry that a branch has found: out of the function or the construct, or to the beginning of a loop -/
def branchTo (idx : Nat) (entry : Entry) : Part Unit := do
  match entry.owner with
  | .function => leaveFunction idx
  | .construct label =>
    unwindTo label.height label.branchArity
    if label.restarts then modify fun m => { m with ctrl := m.ctrl.take idx ++ [{ entry with pc := 0 }] }
    else modify fun m => { m with ctrl := m.ctrl.take idx }

def branch (depth : UInt32) : Part Unit := do
  match (← get).target? depth.toNat with
  | none => throw (.invalidBranchDepth depth)
  | some (idx, entry) => branchTo idx entry

/-- a function of the host runs at once -/
def callHost (h : HostFunc) : Part Unit := do
  let (result, stack) := h.call (← get).store.stack
  modify fun m => { m with store.stack := stack }
  ofExcept result

/-- a function of the guest gets an entry on either stack -/
def enterGuest (inst : Instance) (f : Function) (code : List Instr) : Part Unit := do
  if inst.maxCallDepth ≤ (← get).store.depth then throw .callStackExhausted
  let (frame, stack) ← ofExcept (Frame.enter (← get).store.stack f.type.params f.locals)
  modify fun m => { m with
    store := { m.store with stack, depth := m.store.depth + 1 }
    ctrl := m.ctrl ++ [⟨code, 0, .function⟩]
    calls := m.calls ++ [⟨frame, stack.height, f.type.results.length, m.ctrl.length⟩] }

def enterCall (inst : Instance) (index : UInt32) : Part Unit := do
  let f ← ofExcept (inst.function index)
  match f.body with
  | .host h => callHost h
  | .code code => enterGuest inst f code

/-- what follows an instruction -/
def follow (inst : Instance) : Flow → Part Unit
  | .next => return
  | .enter label body => modify fun m => { m with ctrl := m.ctrl ++ [⟨body, 0, .construct label⟩] }
  | .branch depth => branch depth
  | .ret => do leaveFunction (← get).floor
  | .call index => enterCall inst index

/-- the end of the uppermost sequence -/
def finishSequence (top : Entry) : Part Unit := do
  match top.owner with
  | .function => leaveFunction ((← get).ctrl.length - 1)
  | .construct _ => modify fun m => { m with ctrl := m.ctrl.dropLast }

/-! ## The loop -/

/-- with the uppermost sequence one instruction further -/
def advance (m : Flat) (top : Entry) : Flat :=
  { m with ctrl := m.ctrl.dropLast ++ [{ top with pc := top.pc + 1 }] }

/-- a round of the loop, for the uppermost entry: the next instruction of its sequence, or the end of that -/
def round (inst : Instance) (top : Entry) : EStateM ExecError Flat Unit :=
  match top.code[top.pc]? with
  | none => EStateM.adaptExcept .unlocated (finishSequence top)
  | some i => EStateM.adaptExcept (.located · ⟨i.opcode, top.pc⟩) do
    modify fun m => m.advance top
    follow inst (← exec inst i)

/-- what a step leads to -/
inductive Progress where
  | running (m : Flat)
  | ended (o : Outcome)

/-- the end of the run; the functions that were called within it are no longer active -/
def finish (m : Flat) (result : Except ExecError Unit) : Outcome :=
  ⟨result, ⟨{ m.store with depth := m.store.depth - m.calls.length }, m.outer⟩⟩

/-- goes on as long as there is an entry -/
def goOn (m : Flat) : Progress :=
  match m.ctrl with
  | [] => .ended (m.finish (.ok ()))
  | _ => .running m

def step (inst : Instance) (m : Flat) : Progress :=
  match m.ctrl.getLast? with
  | none => .ended (m.finish (.ok ()))
  | some top =>
    match round inst top m with
    | .ok () m => m.goOn
    | .error e m => .ended (m.finish (.error e))

/-- the outcome, if there is one within so many steps -/
def run (inst : Instance) : Nat → Flat → Option Outcome
  | 0, _ => none
  | fuel + 1, m =>
    match m.step inst with
    | .running m => run inst fuel m
    | .ended o => some o

end Flat

end WasmCore
