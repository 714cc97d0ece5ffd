/-
One call deeper.

A run cannot tell how many functions were active when it began, only how many more may be. Where one more is active under a
limit that is higher by one, an instruction, a step and a run do the same, and so does a function that is called: `f` of a
machine that is one call deeper (`Machine.deeper`) is `f` of the machine, one call deeper. The functions that a run has
entered are counted down on its way out, so this rests on the count being exact (`Config.Counted`).
-/
import WasmCore.Proofs.Embedding.CallLimit

namespace WasmCore

/-! ## Instructions -/

/-- one more function may be active -/
def Instance.deeper (inst : Instance) : Instance :=
  inst.withLimit (inst.maxCallDepth + 1)

/-- one more function is active -/
def Store.deeper (s : Store) : Store :=
  { s with depth := s.depth + 1 }

def State.deeper (s : State) : State :=
  { s with store := s.store.deeper }

namespace Exec

variable {α β : Type} {x : Exec α}

/-- the same end of a computation, one call deeper -/
def endDeeper : EStateM.Result Trap State α → EStateM.Result Trap State α
  | .ok a s => .ok a s.deeper
  | .error t s => .error t s.deeper

/-- the computation does the same, one call deeper -/
def Levelless (x : Exec α) : Prop :=
  ∀ s, x s.deeper = endDeeper (x s)

theorem levelless_ofExcept (r : Except Trap α) : Levelless (ofExcept r) := by
  cases r <;> exact fun _ => rfl

theorem levelless_bind {f : α → Exec β} (hx : Levelless x) (hf : ∀ a, Levelless (f a)) : Levelless (x >>= f) := by
  intro s
  simp only [bind, EStateM.bind, hx s]
  cases x s with
  | ok a t => exact hf a t
  | error t s => rfl

theorem levelless_get {f : State → Exec α} (h : ∀ s, f s.deeper s.deeper = endDeeper (f s s)) : Levelless (get >>= f) :=
  h

theorem levelless_modify {f : State → State} (h : ∀ s, f s.deeper = (f s).deeper) : Levelless (modify f) :=
  fun s => congrArg (EStateM.Result.ok ()) (h s)

theorem levelless_changeMemory (f : Memory → Memory) :
    Levelless (modify fun s : State => { s with store.memory := f s.store.memory }) :=
  levelless_modify fun _ => rfl

theorem Primitive.levelless (h : Primitive x) : Levelless x := by
  cases h with
  | ofExcept r => exact levelless_ofExcept r
  | push c => exact levelless_modify fun _ => rfl
  | pop =>
    refine levelless_get fun s => levelless_bind (levelless_ofExcept s.store.stack.pop) (fun popped => ?_) s
    exact levelless_bind (levelless_modify fun _ => rfl) fun _ => fun _ => rfl
  | peek => exact levelless_get fun s => levelless_ofExcept s.store.stack.peek s
  | readMemory address length => exact levelless_get fun s => levelless_ofExcept (s.store.memory.read address length) s
  | writeMemory address length n =>
    have hwrite := levelless_changeMemory (Memory.patch · address (toLittleEndian length n))
    exact levelless_get fun s =>
      levelless_bind (levelless_ofExcept (s.store.memory.check address length)) (fun _ => hwrite) s
  | pages => exact fun _ => rfl
  | growMemory delta =>
    have hextend := levelless_changeMemory (Memory.extend · delta)
    apply levelless_get
    intro s
    have hmemory : s.deeper.store.memory = s.store.memory := rfl
    rw [hmemory]
    by_cases h : s.store.memory.canGrow delta
    · rw [if_pos h]
      have hbefore : Levelless (pure (some s.store.memory.pages)) := fun _ => rfl
      exact levelless_bind hextend (fun _ => hbefore) s
    · rw [if_neg h]
      rfl
  | readLocal i => exact levelless_get fun s => levelless_ofExcept (s.frame.get i) s
  | writeLocal i c =>
    apply levelless_get
    intro s
    have hframe : s.deeper.frame = s.frame := rfl
    rw [hframe]
    by_cases h : i.toNat < s.frame.size
    · rw [if_pos h]
      rfl
    · rw [if_neg h]
      rfl
  | readGlobal i =>
    exact levelless_get fun s => levelless_bind (levelless_ofExcept (s.store.global i)) (fun _ => fun _ => rfl) s
  | writeGlobal i c =>
    have hwrite : Levelless (modify fun s : State => { s with store := s.store.writeGlobal i c }) :=
      levelless_modify fun _ => rfl
    exact levelless_get fun s => levelless_bind (levelless_ofExcept (s.store.mutableGlobal i)) (fun _ => hwrite) s

theorem Built.levelless {x : Exec Flow} (h : Built x) : Levelless x := by
  induction h with
  | next | branch | ret | call | throw | enter => exact fun _ => rfl
  | after hx _ ih => exact levelless_bind hx.levelless ih

end Exec

/-- **An instruction does the same one call deeper** -/
theorem Instr.exec_levelless (inst : Instance) (i : Instr) : (i.exec inst).Levelless :=
  (i.exec_built inst).levelless

/-! ## Steps and runs -/

theorem Function.enter_deeper (inst : Instance) (f : Function) (s : Store) :
    f.enter inst.deeper s.deeper = (f.enter inst s).map (Prod.map id Store.deeper) := by
  have hlimit : inst.deeper.maxCallDepth ≤ s.deeper.depth ↔ inst.maxCallDepth ≤ s.depth := Nat.succ_le_succ_iff
  unfold enter
  simp only [hlimit]
  by_cases hd : inst.maxCallDepth ≤ s.depth
  · rw [if_pos hd, if_pos hd]
    rfl
  · rw [if_neg hd, if_neg hd]
    have hstack : s.deeper.stack = s.stack := rfl
    rw [hstack]
    cases Frame.enter s.stack f.type.params f.locals <;> rfl

def Outcome.deeper (o : Outcome) : Outcome :=
  { o with state := o.state.deeper }

namespace Config

def deeper (c : Config) : Config :=
  { c with state := c.state.deeper }

end Config

def Progress.deeper : Progress → Progress
  | .running c => .running c.deeper
  | .ended o => .ended o.deeper

namespace Config

variable {inst : Instance} {entered : Nat} {c : Config}

/-- all functions that were called within the run are counted off -/
theorem fail_deeper (h : c.callers.length ≤ c.state.store.depth) (e : ExecError) : c.deeper.fail e = (c.fail e).deeper := by
  have hdepth : c.state.store.depth + 1 - c.callers.length = c.state.store.depth - c.callers.length + 1 := by omega
  simp only [fail, Progress.deeper, Outcome.deeper, State.deeper, Store.deeper, deeper, hdepth]
  rfl

theorem leave_deeper (h : c.callers.length ≤ c.state.store.depth) (site : Option Site) :
    c.deeper.leave site = (c.leave site).deeper := by
  obtain ⟨state, control, callers⟩ := c
  cases callers with
  | nil => rfl
  | cons caller callers =>
    have h : callers.length + 1 ≤ state.store.depth := h
    have hdepth : state.deeper.store.depth - 1 = state.store.depth - 1 + 1 := by
      show state.store.depth + 1 - 1 = _
      omega
    cases hunwind : state.store.stack.unwind caller.height caller.arity with
    | ok stack =>
      have hdeeper : state.deeper.store.stack.unwind caller.height caller.arity = .ok stack := hunwind
      simp only [leave, deeper, hunwind, hdeeper, hdepth]
      rfl
    | error t =>
      have hdeeper : state.deeper.store.stack.unwind caller.height caller.arity = .error t := hunwind
      have hfail := fail_deeper
        (c := ⟨⟨{ state.store with depth := state.store.depth - 1 }, caller.frame⟩, caller.control, callers⟩)
        (Nat.le_sub_one_of_lt h) ⟨t, site⟩
      simp only [leave, deeper, hunwind, hdeeper, hdepth]
      exact hfail

theorem branch_deeper (h : c.callers.length ≤ c.state.store.depth) (depth : UInt32) (site : Site) :
    c.deeper.branch depth site = (c.branch depth site).deeper := by
  have hcontrol : c.deeper.control = c.control := rfl
  unfold branch
  rw [hcontrol]
  cases c.control.blocks.drop depth.toNat with
  | nil =>
    dsimp only
    by_cases hd : depth.toNat = c.control.blocks.length
    · rw [if_pos hd, if_pos hd]
      exact leave_deeper h _
    · rw [if_neg hd, if_neg hd]
      exact fail_deeper h _
  | cons target outer =>
    have hstack : c.deeper.state.store.stack = c.state.store.stack := rfl
    dsimp only
    rw [hstack]
    cases c.state.store.stack.unwind target.label.height target.label.branchArity with
    | ok stack => rfl
    | error t => exact fail_deeper h _

theorem call_deeper (h : c.callers.length ≤ c.state.store.depth) (i : UInt32) (site : Site) :
    c.deeper.call inst.deeper i site = (c.call inst i site).deeper := by
  have hfunction : inst.deeper.function i = inst.function i := rfl
  cases hf : inst.function i with
  | error t =>
    rw [call_missing hf, call_missing (hfunction.trans hf)]
    exact fail_deeper h _
  | ok f =>
    cases hbody : f.body with
    | host host =>
      rw [call_host hf hbody, call_host (hfunction.trans hf) hbody]
      have hstack : c.deeper.state.store.stack = c.state.store.stack := rfl
      rw [hstack]
      obtain ⟨answer, stack⟩ := host.call c.state.store.stack
      cases answer with
      | error t => exact fail_deeper (c := { c with state.store.stack := stack }) h _
      | ok _ => rfl
    | code body =>
      rw [call_code hf hbody, call_code (hfunction.trans hf) hbody]
      have henter : f.enter inst.deeper c.deeper.state.store = _ := Function.enter_deeper inst f c.state.store
      rw [henter]
      cases f.enter inst c.state.store with
      | error t => exact fail_deeper h _
      | ok entered => rfl

theorem follow_deeper (h : c.callers.length ≤ c.state.store.depth) (site : Site) (flow : Flow) :
    follow inst.deeper c.deeper site flow = (follow inst c site flow).deeper := by
  cases flow with
  | next | enter => rfl
  | branch depth => exact branch_deeper h depth site
  | ret => exact leave_deeper h (some site)
  | call i => exact call_deeper h i site

/-- **A step does the same one call deeper** -/
theorem step_deeper (h : c.Counted inst entered) : c.deeper.step inst.deeper = (c.step inst).deeper := by
  have hcontrol : c.deeper.control = c.control := rfl
  have hle : c.callers.length ≤ c.state.store.depth := by
    rw [h.depth]
    exact Nat.le_add_left _ _
  unfold step
  rw [hcontrol]
  cases c.control.next? with
  | none =>
    simp only [finishSequence, hcontrol]
    cases c.control.blocks with
    | nil => exact leave_deeper hle none
    | cons b blocks => rfl
  | some next =>
    obtain ⟨i, control⟩ := next
    have hdeeper : i.exec inst.deeper c.deeper.state = Exec.endDeeper (i.exec inst c.state) := by
      rw [Instance.deeper, i.exec_withLimit]
      exact i.exec_levelless inst c.state
    have hexec := i.exec_evolves inst c.state
    unfold Exec.Ends at hexec
    dsimp only
    rw [hdeeper]
    cases hx : i.exec inst c.state with
    | error t state =>
      rw [hx] at hexec
      refine fail_deeper (c := ⟨state, control, c.callers⟩) ?_ _
      show c.callers.length ≤ state.store.depth
      rwa [hexec.depth]
    | ok flow state =>
      rw [hx] at hexec
      refine follow_deeper (c := ⟨state, control, c.callers⟩) ?_ _ flow
      show c.callers.length ≤ state.store.depth
      rwa [hexec.depth]

theorem run_deeper (h : c.Counted inst entered) (fuel : Nat) :
    run inst.deeper fuel c.deeper = (run inst fuel c).map Outcome.deeper := by
  induction fuel generalizing c with
  | zero => rfl
  | succ fuel ih =>
    have hcounted := step_counted c h
    rw [run, run, step_deeper h]
    cases hs : c.step inst with
    | ended o => rfl
    | running d =>
      rw [hs] at hcounted
      exact ih hcounted

end Config

/-! ## Functions -/

namespace Machine

def deeper (m : Machine) : Machine :=
  { m with inst := m.inst.deeper, store := m.store.deeper }

theorem returned_deeper (m : Machine) {o : Outcome} (h : 0 < o.state.store.depth) (height arity : Nat) :
    m.deeper.returned height arity o.deeper = Prod.map id deeper (m.returned height arity o) := by
  have hdepth : o.state.store.depth + 1 - 1 = o.state.store.depth - 1 + 1 := by omega
  have hstore : { o.deeper.state.store with depth := o.deeper.state.store.depth - 1 } =
      ({ o.state.store with depth := o.state.store.depth - 1 } : Store).deeper := by
    simp only [Outcome.deeper, State.deeper, Store.deeper, hdepth]
  have hresult : o.deeper.result = o.result := rfl
  have hstack : o.deeper.state.store.stack = o.state.store.stack := rfl
  simp only [returned, hstore, hresult, Machine.stack]
  rw [hstack]
  cases o.result with
  | error e => rfl
  | ok _ =>
    dsimp only
    cases o.state.store.stack.unwind height arity <;> rfl

/-- **A function does the same one call deeper** -/
theorem callFunction_deeper (m : Machine) (fuel : Nat) (i : UInt32) :
    m.deeper.callFunction fuel i = (m.callFunction fuel i).map (Prod.map id deeper) := by
  have hfunction : m.deeper.inst.function i = m.inst.function i := rfl
  unfold callFunction
  rw [hfunction]
  cases m.inst.function i with
  | error t => rfl
  | ok f =>
    dsimp only
    cases f.body with
    | host h => rfl
    | code code =>
      have henter : f.enter m.deeper.inst m.deeper.store = _ := Function.enter_deeper m.inst f m.store
      simp only [callGuest_eq, henter]
      cases hentered : f.enter m.inst m.store with
      | error t => rfl
      | ok entered =>
        obtain ⟨frame, store⟩ := entered
        obtain ⟨hroom, stack, -, hstore⟩ := Function.enter_ok hentered
        have hcounted : (Config.start ⟨store, frame⟩ code).Counted m.inst (m.store.depth + 1) := by
          rw [hstore]
          exact ⟨rfl, hroom⟩
        have hrun : Config.run m.deeper.inst fuel (.start ⟨store.deeper, frame⟩ code) = _ :=
          Config.run_deeper hcounted fuel
        simp only [Except.map, Prod.map, id, hrun, Option.map_map]
        cases ho : Config.run m.inst fuel (.start ⟨store, frame⟩ code) with
        | none => rfl
        | some o =>
          have hpos : 0 < o.state.store.depth := by
            rw [Config.run_counted hcounted ho]
            exact Nat.succ_pos _
          exact congrArg some (m.returned_deeper hpos store.stack.height f.type.results.length)

end Machine

end WasmCore
