/-
Room on the operand stack.

The stack carries along how many cells it has room for, and a machine is told how much to start with. Nothing is decided by
it. With other room, an instruction, a step, a run and whatever an embedding program asks of a machine do the same, and all
that they leave is the same but for the room of the stack: `f (s.withRoom room)` is `f s` with some other room, for each `f`
of these, from the stack (`OperandStack.withRoom`) up to any number of operations (`Machine.operateAll_withRoom`).

Together with the limit on nested calls (`Proofs.Embedding.CallLimit`), which shows only where it refuses a call, this is
`Machine.limits_immaterial`.
-/
import WasmCore.Proofs.Embedding.CallLimit
import WasmCore.Proofs.Embedding.Operations

namespace WasmCore

variable {inst : Instance} {room : Nat}

/-! ## Stacks -/

namespace OperandStack

/-- the same cells with other room -/
def withRoom (s : OperandStack) (room : Nat) : OperandStack :=
  { s with capacity := room }

theorem pop_withRoom (s : OperandStack) : (s.withRoom room).pop = s.pop.map (Prod.map id (withRoom · room)) := by
  obtain ⟨cells, height, capacity, hheight⟩ := s
  cases cells <;> rfl

theorem popMany_withRoom (s : OperandStack) (n : Nat) :
    (s.withRoom room).popMany n = (s.popMany n).map (Prod.map id (withRoom · room)) := by
  have htop : (s.withRoom room).top n = s.top n := rfl
  rw [popMany, popMany, htop]
  cases s.top n <;> rfl

theorem pushAll_withRoom (s : OperandStack) (room : Nat) (cs : List Cell) :
    ∃ room', (s.withRoom room).pushAll cs = (s.pushAll cs).withRoom room' := by
  induction cs generalizing s room with
  | nil => exact ⟨room, rfl⟩
  | cons c cs ih => exact ih (s.push c) (grownCapacity s.height room)

theorem dropKeep_withRoom (s : OperandStack) (drop keep : Nat) :
    (s.withRoom room).dropKeep drop keep = (s.dropKeep drop keep).map (withRoom · room) := by
  rw [dropKeep_eq, dropKeep_eq]
  by_cases hdrop : drop = 0
  · rw [if_pos hdrop, if_pos hdrop]
    rfl
  · rw [if_neg hdrop, if_neg hdrop]
    have hheight : (s.withRoom room).height = s.height := rfl
    rw [hheight]
    by_cases hfew : s.height < drop + keep
    · rw [if_pos hfew, if_pos hfew]
      rfl
    · rw [if_neg hfew, if_neg hfew]
      rfl

theorem unwind_withRoom (s : OperandStack) (height keep : Nat) :
    (s.withRoom room).unwind height keep = (s.unwind height keep).map (withRoom · room) := by
  unfold unwind
  have hheight : (s.withRoom room).height = s.height := rfl
  rw [hheight]
  by_cases hfew : s.height < height + keep
  · rw [if_pos hfew, if_pos hfew]
    rfl
  · rw [if_neg hfew, if_neg hfew, dropKeep_withRoom]

end OperandStack

/-! ## Instructions -/

def Store.withRoom (s : Store) (room : Nat) : Store :=
  { s with stack := s.stack.withRoom room }

def State.withRoom (s : State) (room : Nat) : State :=
  { s with store := s.store.withRoom room }

namespace Exec

variable {α β : Type} {x : Exec α}

/-- the same end of a computation, with other room -/
def endWithRoom (room : Nat) : EStateM.Result Trap State α → EStateM.Result Trap State α
  | .ok a s => .ok a (s.withRoom room)
  | .error t s => .error t (s.withRoom room)

/-- The computation does the same with any room. The room that it leaves may differ from the one it was given: a push makes
more when the stack is full. -/
def Roomless (x : Exec α) : Prop :=
  ∀ s room, ∃ room', x (s.withRoom room) = endWithRoom room' (x s)

theorem roomless_pure (a : α) : Roomless (pure a) :=
  fun _ room => ⟨room, rfl⟩

theorem roomless_throw (t : Trap) : Roomless (throw t : Exec α) :=
  fun _ room => ⟨room, rfl⟩

theorem roomless_ofExcept (r : Except Trap α) : Roomless (ofExcept r) := by
  cases r with
  | ok a => exact roomless_pure a
  | error t => exact roomless_throw t

theorem roomless_bind {f : α → Exec β} (hx : Roomless x) (hf : ∀ a, Roomless (f a)) : Roomless (x >>= f) := by
  intro s room
  obtain ⟨room', h⟩ := hx s room
  simp only [bind, EStateM.bind, h]
  cases x s with
  | ok a t => exact hf a t room'
  | error t s => exact ⟨room', rfl⟩

theorem roomless_modify {f : State → State} (h : ∀ s room, ∃ room', f (s.withRoom room) = (f s).withRoom room') :
    Roomless (modify f) := by
  intro s room
  obtain ⟨room', hf⟩ := h s room
  exact ⟨room', congrArg (EStateM.Result.ok ()) hf⟩

theorem roomless_get {f : State → Exec α}
    (h : ∀ s room, ∃ room', f (s.withRoom room) (s.withRoom room) = endWithRoom room' (f s s)) : Roomless (get >>= f) :=
  h

theorem roomless_pop : Roomless pop := by
  apply roomless_get
  intro s room
  have hpop : (s.withRoom room).store.stack.pop = s.store.stack.pop.map (Prod.map id (OperandStack.withRoom · room)) :=
    s.store.stack.pop_withRoom
  rw [hpop]
  cases s.store.stack.pop with
  | error t => exact ⟨room, rfl⟩
  | ok popped => exact ⟨room, rfl⟩

theorem roomless_changeMemory (f : Memory → Memory) :
    Roomless (modify fun s : State => { s with store.memory := f s.store.memory }) :=
  roomless_modify fun _ room => ⟨room, rfl⟩

theorem roomless_writeMemory (address length n : Nat) : Roomless (writeMemory address length n) := by
  apply roomless_get
  intro s room
  have hwrite := roomless_changeMemory (Memory.patch · address (toLittleEndian length n))
  exact roomless_bind (roomless_ofExcept (s.store.memory.check address length)) (fun _ => hwrite) s room

theorem roomless_growMemory (delta : Nat) : Roomless (growMemory delta) := by
  apply roomless_get
  intro s room
  have hgrow := roomless_changeMemory (Memory.extend · delta)
  have hmemory : (s.withRoom room).store.memory = s.store.memory := rfl
  rw [hmemory]
  by_cases h : s.store.memory.canGrow delta
  · rw [if_pos h]
    exact roomless_bind hgrow (fun _ => roomless_pure (some s.store.memory.pages)) s room
  · rw [if_neg h]
    exact ⟨room, rfl⟩

theorem roomless_writeLocal (i : UInt32) (c : Cell) : Roomless (writeLocal i c) := by
  apply roomless_get
  intro s room
  have hframe : (s.withRoom room).frame = s.frame := rfl
  rw [hframe]
  by_cases h : i.toNat < s.frame.size
  · rw [if_pos h]
    exact ⟨room, rfl⟩
  · rw [if_neg h]
    exact ⟨room, rfl⟩

theorem roomless_writeGlobal (i : UInt32) (c : Cell) : Roomless (writeGlobal i c) := by
  apply roomless_get
  intro s room
  have hwrite : Roomless (modify fun s : State => { s with store := s.store.writeGlobal i c }) :=
    roomless_modify fun _ room => ⟨room, rfl⟩
  exact roomless_bind (roomless_ofExcept (s.store.mutableGlobal i)) (fun _ => hwrite) s room

theorem Primitive.roomless (h : Primitive x) : Roomless x := by
  cases h with
  | ofExcept r => exact roomless_ofExcept r
  | push c => exact roomless_modify fun _ _ => ⟨_, rfl⟩
  | pop => exact roomless_pop
  | peek => exact roomless_get fun s room => roomless_ofExcept s.store.stack.peek s room
  | readMemory address length => exact roomless_get fun s room => roomless_ofExcept (s.store.memory.read address length) s room
  | writeMemory address length n => exact roomless_writeMemory address length n
  | pages => exact roomless_get fun _ room => ⟨room, rfl⟩
  | growMemory delta => exact roomless_growMemory delta
  | readLocal i => exact roomless_get fun s room => roomless_ofExcept (s.frame.get i) s room
  | writeLocal i c => exact roomless_writeLocal i c
  | readGlobal i =>
    exact roomless_get fun s room =>
      roomless_bind (roomless_ofExcept (s.store.global i)) (fun g => roomless_pure g.cell) s room
  | writeGlobal i c => exact roomless_writeGlobal i c

theorem Built.roomless {x : Exec Flow} (h : Built x) : Roomless x := by
  induction h with
  | next | branch | ret | call => exact roomless_pure _
  | throw t => exact roomless_throw t
  | enter restarts type body => exact roomless_get fun _ room => ⟨room, rfl⟩
  | after hx _ ih => exact roomless_bind hx.roomless ih

end Exec

/-- **An instruction does the same with any room** -/
theorem Instr.exec_roomless (inst : Instance) (i : Instr) : (i.exec inst).Roomless :=
  (i.exec_built inst).roomless

/-! ## Steps and runs -/

theorem HostFunc.call_withRoom (h : HostFunc) (s : OperandStack) (room : Nat) :
    ∃ room', h.call (s.withRoom room) = Prod.map id (OperandStack.withRoom · room') (h.call s) := by
  simp only [call, OperandStack.popMany_withRoom]
  cases s.popMany h.type.params.length with
  | error t => exact ⟨room, rfl⟩
  | ok popped =>
    obtain ⟨args, rest⟩ := popped
    simp only [Except.map, Prod.map, id]
    cases h.invoke (List.zipWith Val.ofCell h.type.params args) with
    | error t => exact ⟨room, rfl⟩
    | ok results =>
      obtain ⟨room', hpushed⟩ := rest.pushAll_withRoom room (results.map Val.toCell)
      exact ⟨room', congrArg (Prod.mk (Except.ok ())) hpushed⟩

theorem Function.enter_withRoom (f : Function) (s : Store) (room : Nat) :
    f.enter inst (s.withRoom room) = (f.enter inst s).map (Prod.map id (Store.withRoom · room)) := by
  have hdepth : (s.withRoom room).depth = s.depth := rfl
  have hpop : (s.withRoom room).stack.popMany f.type.params.length =
      (s.stack.popMany f.type.params.length).map (Prod.map id (OperandStack.withRoom · room)) :=
    s.stack.popMany_withRoom _
  rw [enter, enter, hdepth, Frame.enter, Frame.enter, hpop]
  by_cases hfull : inst.maxCallDepth ≤ s.depth
  · rw [if_pos hfull, if_pos hfull]
    rfl
  · rw [if_neg hfull, if_neg hfull]
    cases s.stack.popMany f.type.params.length <;> rfl

def Outcome.withRoom (o : Outcome) (room : Nat) : Outcome :=
  { o with state := o.state.withRoom room }

namespace Config

def withRoom (c : Config) (room : Nat) : Config :=
  { c with state := c.state.withRoom room }

end Config

def Progress.withRoom (room : Nat) : Progress → Progress
  | .running c => .running (c.withRoom room)
  | .ended o => .ended (o.withRoom room)

namespace Config

variable (inst : Instance) (c : Config) (room : Nat)

theorem leave_withRoom (site : Option Site) : (c.withRoom room).leave site = (c.leave site).withRoom room := by
  obtain ⟨s, k, callers⟩ := c
  cases callers with
  | nil => rfl
  | cons caller callers =>
    have hunwind : (s.withRoom room).store.stack.unwind caller.height caller.arity =
        (s.store.stack.unwind caller.height caller.arity).map (OperandStack.withRoom · room) :=
      s.store.stack.unwind_withRoom _ _
    simp only [leave, withRoom, hunwind]
    cases s.store.stack.unwind caller.height caller.arity <;> rfl

theorem branch_withRoom (depth : UInt32) (site : Site) :
    (c.withRoom room).branch depth site = (c.branch depth site).withRoom room := by
  have hblocks : (c.withRoom room).control.blocks = c.control.blocks := rfl
  unfold branch
  rw [hblocks]
  cases c.control.blocks.drop depth.toNat with
  | nil =>
    dsimp only
    by_cases hd : depth.toNat = c.control.blocks.length
    · rw [if_pos hd, if_pos hd]
      exact c.leave_withRoom room _
    · rw [if_neg hd, if_neg hd]
      rfl
  | cons target outer =>
    have hunwind : (c.withRoom room).state.store.stack.unwind target.label.height target.label.branchArity =
        (c.state.store.stack.unwind target.label.height target.label.branchArity).map (OperandStack.withRoom · room) :=
      c.state.store.stack.unwind_withRoom _ _
    dsimp only
    rw [hunwind]
    cases c.state.store.stack.unwind target.label.height target.label.branchArity <;> rfl

theorem call_withRoom (i : UInt32) (site : Site) :
    ∃ room', (c.withRoom room).call inst i site = (c.call inst i site).withRoom room' := by
  cases hf : inst.function i with
  | error t =>
    rw [call_missing hf, call_missing hf]
    exact ⟨room, rfl⟩
  | ok f =>
    cases hbody : f.body with
    | host host =>
      obtain ⟨room', hcall⟩ := host.call_withRoom c.state.store.stack room
      have hcall : host.call (c.withRoom room).state.store.stack = _ := hcall
      rw [call_host hf hbody, call_host hf hbody, hcall]
      rcases host.call c.state.store.stack with ⟨_ | _, stack⟩ <;> exact ⟨room', rfl⟩
    | code code =>
      have henter : f.enter inst (c.withRoom room).state.store = _ := f.enter_withRoom c.state.store room
      rw [call_code hf hbody, call_code hf hbody, henter]
      cases f.enter inst c.state.store <;> exact ⟨room, rfl⟩

/-- **A step does the same with any room** -/
theorem step_withRoom : ∃ room', (c.withRoom room).step inst = (c.step inst).withRoom room' := by
  have hnext : (c.withRoom room).control.next? = c.control.next? := rfl
  unfold step
  rw [hnext]
  cases c.control.next? with
  | none =>
    refine ⟨room, ?_⟩
    have hblocks : (c.withRoom room).control.blocks = c.control.blocks := rfl
    dsimp only
    unfold finishSequence
    rw [hblocks]
    cases c.control.blocks with
    | nil => exact c.leave_withRoom room none
    | cons b blocks => rfl
  | some next =>
    obtain ⟨i, control⟩ := next
    obtain ⟨room', hexec⟩ := i.exec_roomless inst c.state room
    have hexec : i.exec inst (c.withRoom room).state = _ := hexec
    dsimp only
    rw [hexec]
    cases i.exec inst c.state with
    | error t s => exact ⟨room', rfl⟩
    | ok flow s =>
      cases flow with
      | next | enter => exact ⟨room', rfl⟩
      | branch depth => exact ⟨room', branch_withRoom ⟨s, control, c.callers⟩ room' depth _⟩
      | ret => exact ⟨room', leave_withRoom ⟨s, control, c.callers⟩ room' _⟩
      | call i => exact call_withRoom inst ⟨s, control, c.callers⟩ room' i _

/-- **A run does the same with any room**, for as many steps as it is given -/
theorem run_withRoom (fuel : Nat) :
    ∃ room', run inst fuel (c.withRoom room) = (run inst fuel c).map (Outcome.withRoom · room') := by
  induction fuel generalizing c room with
  | zero => exact ⟨room, rfl⟩
  | succ fuel ih =>
    obtain ⟨room', hstep⟩ := step_withRoom inst c room
    simp only [run, hstep]
    cases c.step inst with
    | running d => exact ih d room'
    | ended o => exact ⟨room', rfl⟩

end Config

/-! ## Machines -/

namespace Machine

def withRoom (m : Machine) (room : Nat) : Machine :=
  m.withStack (m.stack.withRoom room)

/-- an answer, with other room on the stack of the machine after it -/
def answerWithRoom {α : Type} (room : Nat) : Bounded α → Bounded α :=
  Option.map (Prod.map id (withRoom · room))

/-- the room that a machine starts with is the only thing that depends on the capacity that it is told -/
theorem instantiate_withRoom (mod : Module) (limits : Limits) (capacity : Nat) :
    ∃ room, instantiate mod { limits with stackCapacity := capacity } = (instantiate mod limits).map (withRoom · room) := by
  refine ⟨max capacity 1, ?_⟩
  unfold instantiate
  simp only [bind, Except.bind]
  cases writeSegments _ mod.data.toList <;> rfl

variable (m : Machine) (room fuel : Nat)

theorem execute_withRoom (code : List Instr) (frame : Frame) :
    ∃ room', (m.withRoom room).execute fuel code frame =
      (m.execute fuel code frame).map fun (result, frame, m') => (result, frame, m'.withRoom room') := by
  obtain ⟨room', hrun⟩ := Config.run_withRoom m.inst (.start ⟨m.store, frame⟩ code) room fuel
  refine ⟨room', ?_⟩
  have hexec : (m.withRoom room).execute fuel code frame =
      (Config.run m.inst fuel (Config.withRoom (.start ⟨m.store, frame⟩ code) room)).map fun o =>
        (o.result, o.state.frame, { m with store := o.state.store }) := rfl
  rw [hexec, hrun, execute, Option.map_map, Option.map_map]
  rfl

theorem returned_withRoom (height arity : Nat) (o : Outcome) (room' : Nat) :
    (m.withRoom room).returned height arity (o.withRoom room') =
      Prod.map id (withRoom · room') (m.returned height arity o) := by
  have hresult : (o.withRoom room').result = o.result := rfl
  unfold returned
  rw [hresult]
  cases o.result with
  | error e => rfl
  | ok _ =>
    have hunwind : (o.withRoom room').state.store.stack.unwind height arity =
        (o.state.store.stack.unwind height arity).map (OperandStack.withRoom · room') :=
      o.state.store.stack.unwind_withRoom _ _
    simp only [Machine.stack, hunwind]
    cases o.state.store.stack.unwind height arity <;> rfl

theorem callFunction_withRoom (i : UInt32) :
    ∃ room', (m.withRoom room).callFunction fuel i = answerWithRoom room' (m.callFunction fuel i) := by
  have hfunction : (m.withRoom room).inst.function i = m.inst.function i := rfl
  unfold callFunction
  rw [hfunction]
  cases m.inst.function i with
  | error t => exact ⟨room, rfl⟩
  | ok f =>
    dsimp only
    cases f.body with
    | host host =>
      obtain ⟨room', hcall⟩ := host.call_withRoom m.stack room
      have hcall : host.call (m.withRoom room).stack = _ := hcall
      dsimp only
      rw [hcall]
      exact ⟨room', rfl⟩
    | code code =>
      have henter : f.enter (m.withRoom room).inst (m.withRoom room).store =
          (f.enter m.inst m.store).map (Prod.map id (Store.withRoom · room)) := f.enter_withRoom m.store room
      simp only [callGuest_eq, henter]
      cases f.enter m.inst m.store with
      | error t => exact ⟨room, rfl⟩
      | ok entered =>
        obtain ⟨frame, store⟩ := entered
        obtain ⟨room', hrun⟩ := Config.run_withRoom m.inst (.start ⟨store, frame⟩ code) room fuel
        have hrun : Config.run (m.withRoom room).inst fuel (.start ⟨store.withRoom room, frame⟩ code) = _ := hrun
        refine ⟨room', ?_⟩
        simp only [Except.map, Prod.map, id, hrun, answerWithRoom, Option.map_map]
        exact congrArg (Option.map · _) (funext fun o => m.returned_withRoom room _ _ o room')

theorem popValues_withRoom (ts : List ValType) :
    (m.withRoom room).popValues ts = (m.popValues ts).map (Prod.map id (withRoom · room)) := by
  have hpop : (m.withRoom room).stack.popMany ts.length =
      (m.stack.popMany ts.length).map (Prod.map id (OperandStack.withRoom · room)) := m.stack.popMany_withRoom _
  rw [popValues, popValues, hpop]
  cases m.stack.popMany ts.length <;> rfl

theorem call_withRoom (i : UInt32) :
    ∃ room', (m.withRoom room).call fuel i = answerWithRoom room' (m.call fuel i) := by
  have hfunction : (m.withRoom room).inst.function i = m.inst.function i := rfl
  obtain ⟨room', hcall⟩ := m.callFunction_withRoom room fuel i
  unfold call
  rw [hfunction, hcall]
  cases m.inst.function i with
  | error t => exact ⟨room, rfl⟩
  | ok f =>
    refine ⟨room', ?_⟩
    cases m.callFunction fuel i with
    | none => rfl
    | some called =>
      obtain ⟨answer, m'⟩ := called
      cases answer with
      | error e => rfl
      | ok _ =>
        simp only [answerWithRoom, Option.map_some, Option.bind_some, Prod.map, id, popValues_withRoom]
        cases m'.popValues f.type.results <;> rfl

theorem callIndirect_withRoom (tableIndex : UInt32) (declared : FuncType) :
    ∃ room', (m.withRoom room).callIndirect fuel tableIndex declared =
      answerWithRoom room' (m.callIndirect fuel tableIndex declared) := by
  have hpop : (m.withRoom room).stack.pop = m.stack.pop.map (Prod.map id (OperandStack.withRoom · room)) :=
    m.stack.pop_withRoom
  unfold callIndirect
  rw [hpop]
  cases m.stack.pop with
  | error t => exact ⟨room, rfl⟩
  | ok popped =>
    obtain ⟨slot, stack⟩ := popped
    have hsame : (m.withRoom room).withStack (stack.withRoom room) = (m.withStack stack).withRoom room := rfl
    simp only [Except.map, Prod.map, id, hsame]
    have hresolve : ((m.withStack stack).withRoom room).inst.resolve tableIndex slot.index declared =
        (m.withStack stack).inst.resolve tableIndex slot.index declared := rfl
    rw [hresolve]
    cases (m.withStack stack).inst.resolve tableIndex slot.index declared with
    | error t => exact ⟨room, rfl⟩
    | ok i => exact (m.withStack stack).call_withRoom room fuel i

theorem invoke_withRoom (name : String) (args : List Val) :
    ∃ room', (m.withRoom room).invoke fuel name args = answerWithRoom room' (m.invoke fuel name args) := by
  have hname : (m.withRoom room).findExport name = m.findExport name := rfl
  unfold invoke
  rw [hname]
  cases m.findExport name with
  | none => exact ⟨room, rfl⟩
  | some i =>
    have hfunction : (m.withRoom room).inst.function i = m.inst.function i := rfl
    dsimp only
    rw [hfunction]
    cases m.inst.function i with
    | error t => exact ⟨room, rfl⟩
    | ok f =>
      dsimp only
      by_cases hargs : args.map Val.type ≠ f.type.params
      · rw [if_pos hargs, if_pos hargs]
        exact ⟨room, rfl⟩
      · rw [if_neg hargs, if_neg hargs]
        obtain ⟨room₁, hpushed⟩ := m.stack.pushAll_withRoom room (args.map Val.toCell)
        have hstart : (m.withRoom room).withStack ((m.withRoom room).stack.pushAll (args.map Val.toCell)) =
            (m.withStack (m.stack.pushAll (args.map Val.toCell))).withRoom room₁ :=
          congrArg m.withStack hpushed
        obtain ⟨room', hcall⟩ := (m.withStack (m.stack.pushAll (args.map Val.toCell))).call_withRoom room₁ fuel i
        rw [hstart, hcall]
        refine ⟨room', ?_⟩
        cases (m.withStack (m.stack.pushAll (args.map Val.toCell))).call fuel i with
        | none => rfl
        | some called =>
          obtain ⟨answer, m'⟩ := called
          cases answer <;> rfl

theorem perform_withRoom (request : Request) :
    ∃ room', (m.withRoom room).perform fuel request = answerWithRoom room' (m.perform fuel request) := by
  cases request with
  | invoke name args => exact m.invoke_withRoom room fuel name args
  | call i => exact m.call_withRoom room fuel i
  | callIndirect tableIndex declared => exact m.callIndirect_withRoom room fuel tableIndex declared
  | execute code frame =>
    obtain ⟨room', hexec⟩ := m.execute_withRoom room fuel code frame
    refine ⟨room', ?_⟩
    simp only [perform, hexec, answerWithRoom, Option.map_map]
    rfl

theorem setGlobal_withRoom (i : UInt32) (v : Val) :
    (m.withRoom room).setGlobal i v = (m.setGlobal i v).map (withRoom · room) := by
  have hglobal : (m.withRoom room).store.mutableGlobal i = m.store.mutableGlobal i := rfl
  unfold setGlobal
  rw [hglobal]
  cases m.store.mutableGlobal i with
  | error t => rfl
  | ok g =>
    simp only [bind, Except.bind]
    by_cases htype : g.type ≠ v.type
    · rw [if_pos htype, if_pos htype]
      rfl
    · rw [if_neg htype, if_neg htype]
      rfl

theorem operate_withRoom (operation : Operation) :
    ∃ room', (m.withRoom room).operate fuel operation = answerWithRoom room' (m.operate fuel operation) := by
  cases operation with
  | request request => exact m.perform_withRoom room fuel request
  | setGlobal i v =>
    refine ⟨room, ?_⟩
    rw [operate, operate, setGlobal_withRoom]
    cases m.setGlobal i v <;> rfl
  | push c => exact ⟨_, rfl⟩
  | pop =>
    refine ⟨room, ?_⟩
    have hpop : (m.withRoom room).stack.pop = _ := m.stack.pop_withRoom
    rw [operate, operate, hpop]
    cases m.stack.pop <;> rfl
  | dropKeep drop keep =>
    refine ⟨room, ?_⟩
    have hcut : (m.withRoom room).stack.dropKeep drop keep = _ := m.stack.dropKeep_withRoom drop keep
    rw [operate, operate, hcut]
    cases m.stack.dropKeep drop keep <;> rfl

/-- **Any operations are answered in the same way with any room** -/
theorem operateAll_withRoom (operations : List Operation) :
    ∃ room', (m.withRoom room).operateAll fuel operations =
      (m.operateAll fuel operations).map (Prod.map id (withRoom · room')) := by
  induction operations generalizing m room with
  | nil => exact ⟨room, rfl⟩
  | cons operation operations ih =>
    obtain ⟨room₁, hoperation⟩ := m.operate_withRoom room fuel operation
    rw [operateAll, operateAll, hoperation]
    cases m.operate fuel operation with
    | none => exact ⟨room, rfl⟩
    | some answered =>
      obtain ⟨answer, m₁⟩ := answered
      obtain ⟨room', hrest⟩ := ih m₁ room₁
      refine ⟨room', ?_⟩
      simp only [answerWithRoom, Option.map_some, Option.bind_some, Prod.map, id, hrest, Option.map_map]
      rfl

/-! ## Both limits -/

/-- **The limits of a machine decide nothing but where calls are refused.** A module is instantiated in the same way under
any of them. Under a higher limit on nested calls a request is answered in the same way, by the same values or the same trap
at the same site, and leaves the same machine, unless the machine refuses a call for it; a request for which it does ends
with that trap. Whatever room there is on the stack, any operations are answered in the same way, and leave the same machine
and the same frame, but for the room. -/
theorem limits_immaterial (m : Machine) :
    (∀ mod limits depth capacity, ∃ room,
      instantiate mod { limits with maxCallDepth := depth, stackCapacity := capacity } =
        (instantiate mod limits).map fun m => (m.withLimit depth).withRoom room) ∧
    (∀ limit request fuel, m.inst.maxCallDepth ≤ limit → ¬ m.Exhausts request →
      (m.withLimit limit).perform fuel request = (m.perform fuel request).map (Prod.map id (withLimit · limit))) ∧
    (∀ request fuel result m', m.Exhausts request → m.perform fuel request = some (result, m') →
      ∃ site, result = .error ⟨.callStackExhausted, site⟩) ∧
    (∀ room operations fuel, ∃ room', (m.withRoom room).operateAll fuel operations =
      (m.operateAll fuel operations).map (Prod.map id (withRoom · room'))) ∧
    ∀ room code frame fuel, ∃ room', (m.withRoom room).execute fuel code frame =
      (m.execute fuel code frame).map fun (result, frame, m') => (result, frame, m'.withRoom room') := by
  refine ⟨fun mod limits depth capacity => ?_, ?_, ?_, ?_, ?_⟩
  · obtain ⟨room, hroom⟩ := instantiate_withRoom mod { limits with maxCallDepth := depth } capacity
    refine ⟨room, ?_⟩
    rw [hroom, instantiate_withLimit]
    cases instantiate mod limits <;> rfl
  · exact fun limit request fuel hle h => perform_withLimit hle h
  · exact fun request fuel result m' h hanswer => perform_exhausted h hanswer
  · exact fun room operations fuel => m.operateAll_withRoom room fuel operations
  · exact fun room code frame fuel => m.execute_withRoom room fuel code frame

/-- A function that calls another one, where two calls may be nested: it answers the same where three may be, and with more
room on the stack. -/
theorem limits_immaterial_nested : ∃ m m' : Machine,
    instantiate { Module.empty with
      pages := 0, functions := #[.guest "outer" ⟨[], [.i32]⟩ [] [.call 1], .guest "inner" ⟨[], [.i32]⟩ [] [.const (.i32 7)]] }
      ⟨none, 1, 2⟩ = .ok m ∧
    m.perform 9 (.call 0) = some (.ok [.i32 7], m') ∧
    (m.withLimit 3).perform 9 (.call 0) = some (.ok [.i32 7], m'.withLimit 3) ∧
    ∃ room, (m.withRoom 8).operateAll 9 [.request (.call 0)] = some ([.ok [.i32 7]], m'.withRoom room) := by
  obtain ⟨m, m', hm, hlimit, hanswer, hall⟩ : ∃ m m' : Machine,
      instantiate { Module.empty with
        pages := 0, functions := #[.guest "outer" ⟨[], [.i32]⟩ [] [.call 1], .guest "inner" ⟨[], [.i32]⟩ [] [.const (.i32 7)]] }
        ⟨none, 1, 2⟩ = .ok m ∧
      m.inst.maxCallDepth ≤ 3 ∧ m.perform 9 (.call 0) = some (.ok [.i32 7], m') ∧
      m.operateAll 9 [.request (.call 0)] = some ([.ok [.i32 7]], m') := ⟨_, _, rfl, by decide, rfl, rfl⟩
  obtain ⟨-, hhigher, hexhausted, hroom, -⟩ := limits_immaterial m
  have hfree : ¬ m.Exhausts (.call 0) := by
    intro h
    obtain ⟨site, hresult⟩ := hexhausted _ _ _ _ h hanswer
    cases hresult
  have hsame := hhigher 3 (.call 0) 9 hlimit hfree
  obtain ⟨room, hops⟩ := hroom 8 [.request (.call 0)] 9
  rw [hanswer] at hsame
  rw [hall] at hops
  exact ⟨m, m', hm, hanswer, hsame, room, hops⟩

end Machine

end WasmCore
