/-
Steps and runs.

A step goes on within the active function, enters a function or leaves one; or the run fails, or comes to its end. That is
all (`Config.step_cases`), in valid and in invalid code, so what runs keep is looked for in these few cases. The invariants
of a run follow from those of its steps (`Config.run_holds`, `Config.reaches_holds`).

The first result of this kind is about sites. Whatever an instruction traps on carries its site, and the one failure that
belongs to no instruction is at the natural end of a function that has not left its results (`Config.run_sited`).
-/
import WasmCore.Proofs.Effects
import WasmCore.Proofs.Entry

namespace WasmCore

variable {inst : Instance}

/-! ## What a step can do -/

/-- What a step comes to. In each case an instruction has first made its changes to the state, if there was one. -/
inductive Config.Steps (inst : Instance) (c : Config) : Progress → Prop
  | within {s : State} {control : Control} (changes : c.state.Evolves s) :
      Steps inst c (.running ⟨s, control, c.callers⟩)
  | entered {s : State} {stack : OperandStack} {params locals : List ValType} {frame : Frame} {code : List Instr}
      {caller : Caller} (changes : c.state.Evolves s) (room : s.store.depth < inst.maxCallDepth)
      (enter : Frame.enter s.store.stack params locals = .ok (frame, stack)) (waits : caller.frame = s.frame) :
      Steps inst c (.running
        ⟨⟨{ s.store with stack, depth := s.store.depth + 1 }, frame⟩, .start code, caller :: c.callers⟩)
  | left {s : State} {stack : OperandStack} {caller : Caller} {callers : List Caller}
      (changes : c.state.Evolves s) (waiting : c.callers = caller :: callers) :
      Steps inst c (.running
        ⟨⟨{ s.store with stack, depth := s.store.depth - 1 }, caller.frame⟩, caller.control, callers⟩)
  | failed {s : State} {control : Control} {t : Trap} {site : Site} (changes : c.state.Evolves s) :
      Steps inst c (fail ⟨s, control, c.callers⟩ (.located t site))
  /-- a function that was left has not left its results -/
  | short {s : State} {caller : Caller} {callers : List Caller} {needed depth : Nat} {site : Option Site}
      (changes : c.state.Evolves s) (waiting : c.callers = caller :: callers) :
      Steps inst c (fail
        ⟨⟨{ s.store with depth := s.store.depth - 1 }, caller.frame⟩, caller.control, callers⟩
        ⟨.stackUnderflow needed depth, site⟩)
  | ended {s : State} (changes : c.state.Evolves s) (outermost : c.callers = []) : Steps inst c (.ended ⟨.ok (), s⟩)

namespace Config

/-- an instruction has made its changes before the rest of the step -/
theorem Steps.after {c : Config} {s : State} {control : Control} {p : Progress}
    (h : Steps inst ⟨s, control, c.callers⟩ p) (before : c.state.Evolves s) : c.Steps inst p := by
  cases h with
  | within changes => exact .within (before.trans changes)
  | entered changes room enter waits => exact .entered (before.trans changes) room enter waits
  | left changes waiting => exact .left (before.trans changes) waiting
  | failed changes => exact .failed (before.trans changes)
  | short changes waiting => exact .short (before.trans changes) waiting
  | ended changes outermost => exact .ended (before.trans changes) outermost

theorem leave_cases (c : Config) (site : Option Site) : c.Steps inst (c.leave site) := by
  unfold leave
  cases hcallers : c.callers with
  | nil => exact .ended .refl hcallers
  | cons caller callers =>
    dsimp only
    cases hu : OperandStack.unwind _ caller.height caller.arity with
    | ok stack => exact .left .refl hcallers
    | error t =>
      rw [(OperandStack.error_unwind hu).1]
      exact .short .refl hcallers

theorem branch_cases (c : Config) (depth : UInt32) (site : Site) : c.Steps inst (c.branch depth site) := by
  unfold branch
  cases c.control.blocks.drop depth.toNat with
  | nil =>
    dsimp only
    by_cases hd : depth.toNat = c.control.blocks.length
    · rw [if_pos hd]
      exact c.leave_cases _
    · rw [if_neg hd]
      exact .failed .refl
  | cons target outer =>
    dsimp only
    cases c.state.store.stack.unwind target.label.height target.label.branchArity with
    | ok stack => exact .within (.of_store (.stack stack) rfl)
    | error t => exact .failed .refl

theorem call_cases (c : Config) (i : UInt32) (site : Site) : c.Steps inst (c.call inst i site) := by
  cases hf : inst.function i with
  | error t =>
    rw [call_missing hf]
    exact .failed .refl
  | ok f =>
    cases hbody : f.body with
    | host h =>
      rw [call_host hf hbody]
      obtain ⟨result, stack⟩ := h.call c.state.store.stack
      have hstack : c.state.Evolves { c.state with store.stack := stack } := .of_store (.stack stack) rfl
      cases result with
      | error t => exact .failed hstack
      | ok _ => exact .within hstack
    | code body =>
      rw [call_code hf hbody]
      cases henter : f.enter inst c.state.store with
      | error t => exact .failed .refl
      | ok entered =>
        obtain ⟨frame, store⟩ := entered
        obtain ⟨room, stack, hstack, rfl⟩ := Function.enter_ok henter
        exact .entered .refl room hstack rfl

theorem finishSequence_cases (c : Config) : c.Steps inst c.finishSequence := by
  unfold finishSequence
  cases c.control.blocks with
  | nil => exact c.leave_cases none
  | cons b blocks => exact .within .refl

theorem follow_cases (c : Config) (site : Site) (flow : Flow) : c.Steps inst (follow inst c site flow) := by
  cases flow with
  | next => exact .within .refl
  | enter label body => exact .within .refl
  | branch depth => exact c.branch_cases depth site
  | ret => exact c.leave_cases (some site)
  | call i => exact c.call_cases i site

/-- **A step does one of these things**, in valid and in invalid code -/
theorem step_cases (c : Config) : c.Steps inst (c.step inst) := by
  unfold step
  cases c.control.next? with
  | none => exact c.finishSequence_cases
  | some next =>
    obtain ⟨i, control⟩ := next
    have hexec := i.exec_evolves inst c.state
    unfold Exec.Ends at hexec
    dsimp only
    cases hx : i.exec inst c.state with
    | error t state =>
      rw [hx] at hexec
      exact .failed hexec
    | ok flow state =>
      rw [hx] at hexec
      exact (follow_cases ⟨state, control, c.callers⟩ _ flow).after hexec

end Config

/-! ## Calls -/

/-- called over this stack, the host function fails with a trap of its own -/
def HostFunc.Raises (h : HostFunc) (stack : OperandStack) (t : Trap) : Prop :=
  ∃ args rest, stack.popMany h.type.params.length = .ok (args, rest) ∧
    h.run (List.zipWith Val.ofCell h.type.params args) = .error t

namespace Config

variable {c : Config}

/-- The next instruction calls the function of an index, and `c'` is where it has done its own part of this: an indirect
call has taken the slot number off the stack. -/
inductive Calls (inst : Instance) (c : Config) : UInt32 → Config → Site → Prop
  | mk {instr : Instr} {control : Control} {i : UInt32} {state : State}
      (next : c.control.next? = some (instr, control)) (exec : instr.exec inst c.state = .ok (.call i) state) :
      Calls inst c i ⟨state, control, c.callers⟩ ⟨instr.opcode, control.innermost.index⟩

theorem Calls.step {i : UInt32} {c' : Config} {site : Site} (h : c.Calls inst i c' site) :
    c.step inst = c'.call inst i site := by
  cases h with
  | mk next exec => simp only [Config.step, next, exec, follow]

theorem Calls.depth {i : UInt32} {c' : Config} {site : Site} (h : c.Calls inst i c' site) :
    c'.state.store.depth = c.state.store.depth := by
  cases h with
  | @mk instr _ _ _ _ exec =>
    have hexec := instr.exec_evolves inst c.state
    unfold Exec.Ends at hexec
    rw [exec] at hexec
    exact hexec.depth

/-- the next instruction calls a host function, which fails with a trap of its own -/
def Raises (inst : Instance) (c : Config) (t : Trap) : Prop :=
  ∃ i c' site f h, c.Calls inst i c' site ∧ inst.function i = .ok f ∧ f.body = .host h ∧
    h.Raises c'.state.store.stack t

end Config

/-! ## Runs -/

/-- a property of the configurations of a run, and one of its outcome -/
def Progress.Holds (P : Config → Prop) (Q : Outcome → Prop) : Progress → Prop
  | .running c => P c
  | .ended o => Q o

namespace Config

variable {P : Config → Prop} {Q : Outcome → Prop} {c : Config}

/-- what every step keeps holds at the end of a run -/
theorem run_holds (hstep : ∀ c, P c → (c.step inst).Holds P Q) {fuel : Nat} {o : Outcome} (h : P c)
    (hr : run inst fuel c = some o) : Q o := by
  induction fuel generalizing c with
  | zero => cases hr
  | succ fuel ih =>
    have hnext := hstep c h
    unfold run at hr
    cases hs : c.step inst with
    | running c' =>
      rw [hs] at hr hnext
      exact ih hnext hr
    | ended o' =>
      rw [hs] at hr hnext
      cases hr
      exact hnext

/-- the configurations that a run comes through -/
abbrev Reaches (inst : Instance) : Config → Config → Prop :=
  Relation.ReflTransGen fun c c' => c.step inst = .running c'

theorem reaches_holds (hstep : ∀ c, P c → (c.step inst).Holds P Q) {c' : Config} (h : P c) (hr : c.Reaches inst c') :
    P c' := by
  induction hr with
  | refl => exact h
  | tail _ hs ih =>
    have hnext := hstep _ ih
    rw [hs] at hnext
    exact hnext

/-! ## The store -/

/-- one step changes the store only as instructions do -/
theorem step_evolves {s : Store} (c : Config) (h : s.Evolves c.state.store) :
    (c.step inst).Holds (s.Evolves ·.state.store) (s.Evolves ·.state.store) := by
  have hsteps := @step_cases inst c
  generalize c.step inst = p at hsteps ⊢
  cases hsteps with
  | within changes => exact h.trans changes.store
  | entered changes => exact ((h.trans changes.store).tail (.stack _)).tail (.depth _)
  | left changes _ => exact ((h.trans changes.store).tail (.stack _)).tail (.depth _)
  | failed changes => exact (h.trans changes.store).tail (.depth _)
  | short changes _ => exact ((h.trans changes.store).tail (.depth _)).tail (.depth _)
  | ended changes _ => exact h.trans changes.store

theorem reaches_evolves {c' : Config} (h : c.Reaches inst c') : c.state.store.Evolves c'.state.store :=
  reaches_holds step_evolves .refl h

/-- a whole run does -/
theorem run_evolves {fuel : Nat} {o : Outcome} (h : run inst fuel c = some o) : c.state.store.Evolves o.state.store :=
  run_holds step_evolves .refl h

end Config

/-! ## Traps without a site -/

/-- without a site, it is a want of cells -/
def ExecError.Sited (e : ExecError) : Prop :=
  e.site = none → ∃ needed depth, e.trap = .stackUnderflow needed depth

def Outcome.Sited (o : Outcome) : Prop :=
  ∀ e, o.result = .error e → e.Sited

theorem ExecError.located_sited (t : Trap) (site : Site) : (ExecError.located t site).Sited := by
  intro h
  cases h

theorem Outcome.error_sited {e : ExecError} {s : State} (h : e.Sited) : Sited ⟨.error e, s⟩ := by
  intro e' he
  cases he
  exact h

namespace Config

theorem step_sited (c : Config) : (c.step inst).Holds (fun _ => True) Outcome.Sited := by
  have hsteps := @step_cases inst c
  generalize c.step inst = p at hsteps ⊢
  cases hsteps with
  | within | entered | left => trivial
  | failed => exact Outcome.error_sited (ExecError.located_sited _ _)
  | short => exact Outcome.error_sited fun _ => ⟨_, _, rfl⟩
  | ended =>
    intro e he
    cases he

/-- **A run that fails without a site failed for want of cells** -/
theorem run_sited {fuel : Nat} {c : Config} {o : Outcome} (h : run inst fuel c = some o) : o.Sited :=
  run_holds (fun c _ => c.step_sited) trivial h

end Config

/-- also once the results were cut out of what the run left -/
theorem Machine.returned_sited {m m' : Machine} {height arity : Nat} {o : Outcome} {e : ExecError} (h : o.Sited)
    (hr : m.returned height arity o = (.error e, m')) : e.Sited := by
  unfold returned at hr
  cases hresult : o.result with
  | error e' =>
    rw [hresult] at hr
    cases hr
    exact h e hresult
  | ok _ =>
    simp only [hresult] at hr
    split at hr
    · rename_i t hu
      cases hr
      intro _
      exact ⟨_, _, (OperandStack.error_unwind hu).1⟩
    · cases hr

end WasmCore
