/-
Where a step traps.

`c.TrapsAt inst e c'` says that the step from `c` ends the run with the error `e`, and that `c'` is how things stand when it
does: what the instruction has done by then, and which functions are still active. An instruction traps by itself, or in what
it does to control afterwards; and the end of a body traps if its function has not left its results. There is no other way
(`Config.step_error_iff`).
-/
import WasmCore.Proofs.Entry

namespace WasmCore

variable {inst : Instance}

namespace Config

/-- a function that was called within the run is left without its results; its caller is the active function again -/
inductive LeaveTraps (c : Config) (site : Option Site) : ExecError → Config → Prop
  | short {caller : Caller} {callers : List Caller} {t : Trap} (waiting : c.callers = caller :: callers)
      (unwind : c.state.store.stack.unwind caller.height caller.arity = .error t) :
      LeaveTraps c site ⟨t, site⟩
        ⟨⟨{ c.state.store with depth := c.state.store.depth - 1 }, caller.frame⟩, caller.control, callers⟩

/-- What follows an instruction traps. A host function has taken its arguments by then; other calls and branches have done
nothing. -/
inductive FollowTraps (inst : Instance) (c : Config) (site : Site) : Flow → ExecError → Config → Prop
  | beyond {depth : UInt32} (blocks : c.control.blocks.length < depth.toNat) :
      FollowTraps inst c site (.branch depth) (.located (.invalidBranchDepth depth) site) c
  | cells {depth : UInt32} {target : OpenBlock} {outer : List OpenBlock} {t : Trap}
      (blocks : c.control.blocks.drop depth.toNat = target :: outer)
      (unwind : c.state.store.stack.unwind target.label.height target.label.branchArity = .error t) :
      FollowTraps inst c site (.branch depth) (.located t site) c
  | out {depth : UInt32} {e : ExecError} {c' : Config} (blocks : c.control.blocks.length = depth.toNat)
      (leave : c.LeaveTraps (some site) e c') : FollowTraps inst c site (.branch depth) e c'
  | ret {e : ExecError} {c' : Config} (leave : c.LeaveTraps (some site) e c') : FollowTraps inst c site .ret e c'
  | missing {i : UInt32} {t : Trap} (function : inst.function i = .error t) :
      FollowTraps inst c site (.call i) (.located t site) c
  | host {i : UInt32} {f : Function} {h : HostFunc} {t : Trap} {stack : OperandStack} (function : inst.function i = .ok f)
      (body : f.body = .host h) (call : h.call c.state.store.stack = (.error t, stack)) :
      FollowTraps inst c site (.call i) (.located t site) { c with state.store.stack := stack }
  | refused {i : UInt32} {f : Function} {code : List Instr} {t : Trap} (function : inst.function i = .ok f)
      (body : f.body = .code code) (enter : f.enter inst c.state.store = .error t) :
      FollowTraps inst c site (.call i) (.located t site) c

/-- the step traps, at the instruction itself, in what follows it or at the end of a body -/
inductive TrapsAt (inst : Instance) (c : Config) : ExecError → Config → Prop
  | instr {i : Instr} {control : Control} {t : Trap} {state : State} (next : c.control.next? = some (i, control))
      (exec : i.exec inst c.state = .error t state) :
      TrapsAt inst c (.located t ⟨i.opcode, control.innermost.index⟩) ⟨state, control, c.callers⟩
  | follow {i : Instr} {control : Control} {flow : Flow} {state : State} {e : ExecError} {c' : Config}
      (next : c.control.next? = some (i, control)) (exec : i.exec inst c.state = .ok flow state)
      (traps : FollowTraps inst ⟨state, control, c.callers⟩ ⟨i.opcode, control.innermost.index⟩ flow e c') :
      TrapsAt inst c e c'
  | finish {e : ExecError} {c' : Config} (next : c.control.next? = none) (blocks : c.control.blocks = [])
      (leave : c.LeaveTraps none e c') : TrapsAt inst c e c'

variable {c c' : Config} {e : ExecError} {s : State} {site : Site}

/-! ## Such a step fails at that point -/

theorem LeaveTraps.leave {site : Option Site} (h : c.LeaveTraps site e c') : c.leave site = c'.fail e := by
  cases h with
  | short waiting unwind => simp only [Config.leave, waiting, unwind]

theorem FollowTraps.follow {flow : Flow} (h : c.FollowTraps inst site flow e c') :
    follow inst c site flow = c'.fail e := by
  cases h with
  | @beyond depth blocks =>
    have hdrop : c.control.blocks.drop depth.toNat = [] := List.drop_eq_nil_of_le (Nat.le_of_lt blocks)
    simp [Config.follow, branch, hdrop, Nat.ne_of_gt blocks]
  | cells blocks unwind => simp only [Config.follow, branch, blocks, unwind]
  | @out depth _ _ blocks leave =>
    have hdrop : c.control.blocks.drop depth.toNat = [] := List.drop_eq_nil_of_le (Nat.le_of_eq blocks)
    simp only [Config.follow, branch, hdrop, blocks, if_true]
    exact leave.leave
  | ret leave => exact leave.leave
  | missing function => exact call_missing function site
  | host function body call => simp only [Config.follow, call_host function body, call]
  | refused function body enter => simp only [Config.follow, call_code function body, enter]

theorem TrapsAt.step (h : c.TrapsAt inst e c') : c.step inst = c'.fail e := by
  cases h with
  | instr next exec => simp only [Config.step, next, exec]
  | follow next exec traps =>
    simp only [Config.step, next, exec]
    exact traps.follow
  | finish next blocks leave =>
    simp only [Config.step, next, finishSequence, blocks]
    exact leave.leave

/-! ## There is no other way to fail -/

theorem leave_error {site : Option Site} (h : c.leave site = .ended ⟨.error e, s⟩) : ∃ c', c.LeaveTraps site e c' := by
  unfold leave at h
  cases hcallers : c.callers with
  | nil =>
    rw [hcallers] at h
    cases h
  | cons caller callers =>
    simp only [hcallers] at h
    cases hu : c.state.store.stack.unwind caller.height caller.arity with
    | ok stack =>
      rw [hu] at h
      cases h
    | error t =>
      rw [hu] at h
      cases h
      exact ⟨_, .short hcallers hu⟩

theorem branch_error {depth : UInt32} (h : c.branch depth site = .ended ⟨.error e, s⟩) :
    ∃ c', c.FollowTraps inst site (.branch depth) e c' := by
  unfold branch at h
  cases hdrop : c.control.blocks.drop depth.toNat with
  | nil =>
    simp only [hdrop] at h
    by_cases hd : depth.toNat = c.control.blocks.length
    · rw [if_pos hd] at h
      obtain ⟨c', leave⟩ := leave_error h
      exact ⟨c', .out hd.symm leave⟩
    · rw [if_neg hd] at h
      cases h
      have hle := List.drop_eq_nil_iff.1 hdrop
      exact ⟨c, .beyond (by omega)⟩
  | cons target outer =>
    simp only [hdrop] at h
    cases hu : c.state.store.stack.unwind target.label.height target.label.branchArity with
    | ok stack =>
      rw [hu] at h
      cases h
    | error t =>
      rw [hu] at h
      cases h
      exact ⟨c, .cells hdrop hu⟩

theorem call_error {i : UInt32} (h : c.call inst i site = .ended ⟨.error e, s⟩) :
    ∃ c', c.FollowTraps inst site (.call i) e c' := by
  cases hf : inst.function i with
  | error t =>
    rw [call_missing hf] at h
    cases h
    exact ⟨c, .missing hf⟩
  | ok f =>
    cases hbody : f.body with
    | host host =>
      rw [call_host hf hbody] at h
      rcases hcall : host.call c.state.store.stack with ⟨t | _, stack⟩
      · rw [hcall] at h
        cases h
        exact ⟨_, .host hf hbody hcall⟩
      · rw [hcall] at h
        cases h
    | code code =>
      rw [call_code hf hbody] at h
      cases henter : f.enter inst c.state.store with
      | ok entered =>
        rw [henter] at h
        cases h
      | error t =>
        rw [henter] at h
        cases h
        exact ⟨c, .refused hf hbody henter⟩

theorem follow_error {flow : Flow} (h : follow inst c site flow = .ended ⟨.error e, s⟩) :
    ∃ c', c.FollowTraps inst site flow e c' := by
  cases flow with
  | next => cases h
  | enter label body => cases h
  | branch depth => exact branch_error h
  | ret =>
    obtain ⟨c', leave⟩ := leave_error h
    exact ⟨c', .ret leave⟩
  | call i => exact call_error h

/-- **A step fails exactly where it traps**, in valid and in invalid code -/
theorem step_error_iff : (∃ s, c.step inst = .ended ⟨.error e, s⟩) ↔ ∃ c', c.TrapsAt inst e c' := by
  constructor
  · rintro ⟨s, h⟩
    unfold step at h
    cases hnext : c.control.next? with
    | none =>
      simp only [hnext, finishSequence] at h
      cases hblocks : c.control.blocks with
      | nil =>
        rw [hblocks] at h
        obtain ⟨c', leave⟩ := leave_error h
        exact ⟨c', .finish hnext hblocks leave⟩
      | cons b blocks =>
        rw [hblocks] at h
        cases h
    | some next =>
      obtain ⟨i, control⟩ := next
      simp only [hnext] at h
      cases hexec : i.exec inst c.state with
      | error t state =>
        rw [hexec] at h
        cases h
        exact ⟨_, .instr hnext hexec⟩
      | ok flow state =>
        rw [hexec] at h
        obtain ⟨c', traps⟩ := follow_error h
        exact ⟨c', .follow hnext hexec traps⟩
  · rintro ⟨c', h⟩
    exact ⟨_, h.step⟩

end Config

end WasmCore
