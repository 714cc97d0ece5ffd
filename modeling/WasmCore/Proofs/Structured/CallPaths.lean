/-
Two ways to call a function.

An embedding program calls a function at the top: the body is a run of its own, and the stack is cut to the results when
that run has ended. Code calls it within a run, where leaving the function is a step of the run and cuts the stack there.
Either way the body has the same `Ending` (`Task.ends_iff`), since this does not depend on what surrounds it; what is left
to compare is what becomes of one and the same ending (`Ending.leaveFunction_returned`). `Machine.call_paths_agree` draws
the conclusion for any function, valid or not.
-/
import WasmCore.Proofs.Entry
import WasmCore.Proofs.Structured.Agreement

namespace WasmCore

variable {inst : Instance}

/-! ## Where a task ends -/

theorem Progress.Leads.ends_iff {p q : Progress} (h : p.Leads inst q) {o : Outcome} :
    (∃ fuel, p.run inst fuel = some o) ↔ ∃ fuel, q.run inst fuel = some o := by
  constructor
  · rintro ⟨fuel, hp⟩
    exact ⟨fuel, h.ends hp⟩
  · rintro ⟨fuel, hq⟩
    obtain ⟨n, hn⟩ := h
    exact ⟨n + fuel, (hn fuel).trans hq⟩

theorem Progress.Leads.ended_iff {p : Progress} {last o : Outcome} (h : p.Leads inst (.ended last)) :
    (∃ fuel, p.run inst fuel = some o) ↔ last = o := by
  rw [h.ends_iff]
  constructor
  · rintro ⟨fuel, heq⟩
    exact Option.some.inj heq
  · intro heq
    exact ⟨0, congrArg some heq⟩

/-- the evaluator answers with this ending, on some fuel -/
def Task.Ends (inst : Instance) (t : Task) (s : State) (ending : Ending) : Prop :=
  ∃ fuel, t.eval inst fuel s = some ending

/-- A run that starts with a task ends if and only if the task does and what follows it does. -/
theorem Task.Starts.ends_iff {t : Task} {s : State} {k : Control} {callers : List Caller} {p : Progress} {o : Outcome}
    (hp : Starts inst k callers t s p) :
    (∃ fuel, p.run inst fuel = some o) ↔
      ∃ ending, t.Ends inst s ending ∧ ∃ fuel, (t.after k callers ending).run inst fuel = some o := by
  constructor
  · rintro ⟨steps, hrun⟩
    obtain ⟨fuel, ending, he⟩ := Task.answers steps t s k callers p o hp hrun
    exact ⟨ending, ⟨fuel, he⟩, steps, (Task.eval_simulated he k callers p hp).ends hrun⟩
  · rintro ⟨ending, ⟨fuel, he⟩, hafter⟩
    exact (Task.eval_simulated he k callers p hp).ends_iff.2 hafter

/-- the same for a body that has been entered -/
theorem Task.body_ends_iff {s : State} {body : List Instr} {callers : List Caller} {o : Outcome} :
    (∃ fuel, (Progress.running ⟨s, .start body, callers⟩).run inst fuel = some o) ↔
      ∃ ending, Task.Ends inst (.sequence 0 0 body) s ending ∧
        ∃ fuel, (ending.complete (.start body) callers).run inst fuel = some o := by
  have hstart : Starts inst (.start body) callers (.sequence 0 0 body) s (Config.step inst ⟨s, .start body, callers⟩) :=
    .function body
  exact (Progress.leads_step _).ends_iff.trans hstart.ends_iff

namespace Ending

/-- what follows the last instruction of the outermost sequence -/
theorem resume_outermost (ending : Ending) (code : List Instr) :
    (ending.resume ⟨[], ⟨code, []⟩⟩ []).Leads inst (.ended ⟨ending.1.result, ending.2⟩) := by
  obtain ⟨c, s⟩ := ending
  cases c with
  | normal => exact Progress.leads_step ⟨s, ⟨[], ⟨code, []⟩⟩, []⟩
  | branch depth site =>
    have h : resume ⟨[], ⟨code, []⟩⟩ [] (.branch depth site, s) = .ended ⟨.ok (), s⟩ := by
      simp only [resume, complete, Config.jump, List.drop_nil]
      rfl
    exact .of_eq h
  | ret site => exact .refl _
  | trap e => exact .refl _

end Ending

/-! ## The answer without its site -/

/-- the site of a failure tells which way the call was made -/
abbrev unsited {α : Type} : Except ExecError α → Except Trap α :=
  Except.mapError ExecError.trap

/-- leaving a function within a run comes to the same as leaving one that was called at the top -/
theorem Ending.leaveFunction_returned (ending : Ending) (m : Machine) (frame : Frame) (height arity : Nat) :
    let left := ending.leaveFunction frame height arity
    let returned := m.returned height arity ⟨ending.1.result, ending.2⟩
    unsited left.1.result = unsited returned.1 ∧ left.2.frame = frame ∧ { m with store := left.2.store } = returned.2 := by
  obtain ⟨c, s⟩ := ending
  cases c with
  | trap e => exact ⟨rfl, rfl, rfl⟩
  | normal | branch | ret =>
    simp only [leaveFunction, Completion.result, Machine.returned, Machine.stack, OperandStack.trim_eq_unwind]
    cases s.store.stack.unwind height arity <;> exact ⟨rfl, rfl, rfl⟩

namespace Machine

variable {m : Machine} {i : UInt32} {frame : Frame}

/-- the point of a run at which a sequence of one call is about to make it -/
def calling (m : Machine) (i : UInt32) (frame : Frame) : Progress :=
  Config.call m.inst ⟨⟨m.store, frame⟩, ⟨[], ⟨[.call i], []⟩⟩, []⟩ i ⟨0x10, 0⟩

theorem execute_call_iff {result : Except ExecError Unit} {frame' : Frame} {m' : Machine} :
    (∃ fuel, m.execute fuel [.call i] frame = some (result, frame', m')) ↔
      ∃ o, (∃ fuel, (m.calling i frame).run m.inst fuel = some o) ∧
        (o.result, o.state.frame, { m with store := o.state.store }) = (result, frame', m') := by
  have hstep : (Progress.running (.start ⟨m.store, frame⟩ [.call i])).Leads m.inst (m.calling i frame) :=
    Progress.leads_step _
  constructor
  · rintro ⟨fuel, h⟩
    obtain ⟨o, hrun, heq⟩ := Option.map_eq_some_iff.1 h
    exact ⟨o, hstep.ends_iff.1 ⟨fuel, hrun⟩, heq⟩
  · rintro ⟨o, hrun, heq⟩
    obtain ⟨fuel, hrun⟩ := hstep.ends_iff.2 hrun
    exact ⟨fuel, Option.map_eq_some_iff.2 ⟨o, hrun, heq⟩⟩

/-- the two ways agree on these outcomes, up to the site -/
def Agree (m : Machine) (frame : Frame) (o : Outcome) (called : Except ExecError Unit × Machine) : Prop :=
  unsited o.result = unsited called.1 ∧ o.state.frame = frame ∧ { m with store := o.state.store } = called.2

/-- Either both ways are done at once, or both enter the same body. -/
theorem call_cases (m : Machine) (i : UInt32) (frame : Frame) :
    (∃ o called, (m.calling i frame).Leads m.inst (.ended o) ∧ (∀ fuel, m.callFunction fuel i = some called) ∧
      m.Agree frame o called) ∨
    ∃ s code height arity,
      m.calling i frame = .running ⟨s, .start code, [⟨frame, ⟨[], ⟨[.call i], []⟩⟩, height, arity⟩]⟩ ∧
      ∀ fuel, m.callFunction fuel i = (Config.run m.inst fuel (.start s code)).map (m.returned height arity) := by
  have hfail {t : Trap} (hcalling : m.calling i frame =
      Config.fail ⟨⟨m.store, frame⟩, ⟨[], ⟨[.call i], []⟩⟩, []⟩ (.located t ⟨0x10, 0⟩))
      (hcall : ∀ fuel, m.callFunction fuel i = m.failed t) :
      ∃ o called, (m.calling i frame).Leads m.inst (.ended o) ∧ (∀ fuel, m.callFunction fuel i = some called) ∧
        m.Agree frame o called :=
    ⟨_, _, .of_eq hcalling, hcall, rfl, rfl, rfl⟩
  cases hf : m.inst.function i with
  | error t =>
    have hcall (fuel : Nat) : m.callFunction fuel i = m.failed t := by simp only [callFunction, hf]
    exact .inl (hfail (Config.call_missing hf _) hcall)
  | ok f =>
    cases hbody : f.body with
    | host h =>
      have hcalling : m.calling i frame = _ := Config.call_host hf hbody _
      have hcall (fuel : Nat) : m.callFunction fuel i =
          some ((h.call m.stack).1.mapError .unlocated, m.withStack (h.call m.stack).2) := by
        simp only [callFunction, hf, hbody]
      simp only [Machine.stack] at hcalling hcall
      generalize h.call m.store.stack = called at hcalling hcall
      obtain ⟨result, stack⟩ := called
      cases result with
      | error t => exact .inl ⟨_, _, .of_eq hcalling, hcall, rfl, rfl, rfl⟩
      | ok _ =>
        have hleads := @Ending.resume_outermost m.inst (.normal, ⟨{ m.store with stack }, frame⟩) [.call i]
        exact .inl ⟨_, _, (Progress.Leads.of_eq hcalling).trans hleads, hcall, rfl, rfl, rfl⟩
    | code code =>
      have hcall (fuel : Nat) : m.callFunction fuel i = m.callGuest fuel f code := by
        simp only [callFunction, hf, hbody]
      cases henter : f.enter m.inst m.store with
      | error t =>
        have hcall (fuel : Nat) : m.callFunction fuel i = m.failed t := by
          rw [hcall, callGuest_eq, henter]
        have hcalling : m.calling i frame = _ := Config.call_code hf hbody _
        simp only [henter] at hcalling
        exact .inl (hfail hcalling hcall)
      | ok entered =>
        obtain ⟨frame', store⟩ := entered
        right
        have hcalling : m.calling i frame = _ := Config.call_code hf hbody _
        simp only [henter] at hcalling
        refine ⟨_, code, _, _, hcalling, ?_⟩
        intro fuel
        rw [hcall, callGuest_eq, henter]

/-- within a run, each ending of the body is followed by leaving the function -/
theorem calling_ends_iff {s : State} {code : List Instr} {height arity : Nat} {o : Outcome}
    (h : m.calling i frame = .running ⟨s, .start code, [⟨frame, ⟨[], ⟨[.call i], []⟩⟩, height, arity⟩]⟩) :
    (∃ fuel, (m.calling i frame).run m.inst fuel = some o) ↔
      ∃ ending, Task.Ends m.inst (.sequence 0 0 code) s ending ∧
        ⟨(ending.leaveFunction frame height arity).1.result, (ending.leaveFunction frame height arity).2⟩ = o := by
  rw [h, Task.body_ends_iff]
  have hafter (ending : Ending) : (ending.complete (.start code) [⟨frame, ⟨[], ⟨[.call i], []⟩⟩, height, arity⟩]) =
      (ending.leaveFunction frame height arity).resume ⟨[], ⟨[.call i], []⟩⟩ [] :=
    Ending.complete_function ending _ _ _ _
  simp only [hafter, (Ending.resume_outermost _ _).ended_iff]

/-- at the top, each ending of the body is the end of a run -/
theorem callFunction_ends_iff {s : State} {code : List Instr} {height arity : Nat}
    {called : Except ExecError Unit × Machine}
    (h : ∀ fuel, m.callFunction fuel i = (Config.run m.inst fuel (.start s code)).map (m.returned height arity)) :
    (∃ fuel, m.callFunction fuel i = some called) ↔
      ∃ ending, Task.Ends m.inst (.sequence 0 0 code) s ending ∧
        m.returned height arity ⟨ending.1.result, ending.2⟩ = called := by
  have hruns (o : Outcome) : (∃ fuel, Config.run m.inst fuel (.start s code) = some o) ↔
      ∃ ending, Task.Ends m.inst (.sequence 0 0 code) s ending ∧ ⟨ending.1.result, ending.2⟩ = o := by
    have hafter (ending : Ending) : (∃ fuel, (ending.complete (.start code) []).run m.inst fuel = some o) ↔
        ⟨ending.1.result, ending.2⟩ = o :=
      (Progress.Leads.of_eq (ending.complete_outermost code)).ended_iff
    have hbody := @Task.body_ends_iff m.inst s code [] o
    simp only [hafter] at hbody
    exact hbody
  constructor
  · rintro ⟨fuel, hcall⟩
    rw [h, Option.map_eq_some_iff] at hcall
    obtain ⟨o, hrun, hreturned⟩ := hcall
    obtain ⟨ending, hends, rfl⟩ := (hruns o).1 ⟨fuel, hrun⟩
    exact ⟨ending, hends, hreturned⟩
  · rintro ⟨ending, hends, hreturned⟩
    obtain ⟨fuel, hrun⟩ := (hruns _).2 ⟨ending, hends, rfl⟩
    exact ⟨fuel, by rw [h, hrun, ← hreturned]; rfl⟩

/-- whatever one way ends with, the other way ends with, up to the site -/
theorem call_agrees (m : Machine) (i : UInt32) (frame : Frame) :
    (∀ o, (∃ fuel, (m.calling i frame).run m.inst fuel = some o) →
      ∃ called, (∃ fuel, m.callFunction fuel i = some called) ∧ m.Agree frame o called) ∧
    ∀ called, (∃ fuel, m.callFunction fuel i = some called) →
      ∃ o, (∃ fuel, (m.calling i frame).run m.inst fuel = some o) ∧ m.Agree frame o called := by
  rcases m.call_cases i frame with ⟨last, called, hcalling, hcall, hagree⟩ | ⟨s, code, height, arity, hcalling, hcall⟩
  · constructor
    · intro o ho
      obtain rfl := hcalling.ended_iff.1 ho
      exact ⟨called, ⟨0, hcall 0⟩, hagree⟩
    · rintro called' ⟨fuel, hcall'⟩
      obtain rfl := Option.some.inj ((hcall fuel).symm.trans hcall')
      exact ⟨last, hcalling.ended_iff.2 rfl, hagree⟩
  · constructor
    · intro o ho
      obtain ⟨ending, hends, rfl⟩ := (calling_ends_iff hcalling).1 ho
      exact ⟨_, (callFunction_ends_iff hcall).2 ⟨ending, hends, rfl⟩, ending.leaveFunction_returned m frame height arity⟩
    · intro called hcalled
      obtain ⟨ending, hends, rfl⟩ := (callFunction_ends_iff hcall).1 hcalled
      exact ⟨_, (calling_ends_iff hcalling).2 ⟨ending, hends, rfl⟩, ending.leaveFunction_returned m frame height arity⟩

/-! ## Results -/

variable {m' : Machine} {f : Function} {fuel : Nat}

/-- A call leaves as many cells as it has results, unless it is of a host function under a signature not its own. -/
theorem results_le (hf : m.inst.function i = .ok f) (h : m.callFunction fuel i = some (.ok (), m'))
    (hhost : ∀ host, f.body = .host host → host.type = f.type) : f.type.results.length ≤ m'.stack.height := by
  obtain ⟨n, -, hheight⟩ := callFunction_heights hf h hhost
  omega

/-- the results are read off the stack as values of the declared types, the last one from the top -/
theorem call_of_results (hf : m.inst.function i = .ok f) (h : m.callFunction fuel i = some (.ok (), m'))
    (hle : f.type.results.length ≤ m'.stack.height) :
    ∃ cs rest stack, cs.length = f.type.results.length ∧ m'.stack.cells = cs.reverse ++ rest ∧ stack.cells = rest ∧
      m.call fuel i = some (.ok (List.zipWith Val.ofCell f.type.results cs), m'.withStack stack) := by
  have hlen : (m'.stack.cells.take f.type.results.length).length = f.type.results.length := by
    rw [List.length_take, ← m'.stack.height_eq]
    exact Nat.min_eq_left hle
  obtain ⟨stack, hpop, hcells⟩ := OperandStack.popMany_append (List.take_append_drop f.type.results.length _).symm
  rw [hlen] at hpop
  refine ⟨_, _, stack, (List.length_reverse).trans hlen, ?_, hcells, ?_⟩
  · rw [List.reverse_reverse, List.take_append_drop]
  · simp only [call, hf, h, Option.bind_some, popValues, hpop]
    rfl

theorem call_of_few (hf : m.inst.function i = .ok f) (h : m.callFunction fuel i = some (.ok (), m'))
    (hlt : m'.stack.height < f.type.results.length) :
    m.call fuel i = m'.failed (.stackUnderflow f.type.results.length m'.stack.height) := by
  simp only [call, hf, h, Option.bind_some, popValues, OperandStack.popMany_short hlt]
  rfl

theorem call_of_error {e : ExecError} (h : m.callFunction fuel i = some (.error e, m')) :
    m.call fuel i = some (.error e, m') := by
  cases hf : m.inst.function i with
  | error t =>
    simp only [callFunction, hf] at h
    cases h
    simp only [call, hf]
    rfl
  | ok f => simp only [call, hf, h, Option.bind_some]

theorem call_of_none (h : m.callFunction fuel i = none) : m.call fuel i = none := by
  cases hf : m.inst.function i with
  | error t =>
    simp only [callFunction, hf] at h
    cases h
  | ok f => simp only [call, hf, h, Option.bind_none]

/-- **The two ways to call a function agree**, whether it is of the guest or of the host and whether its body is valid: a
sequence of one call and a call at the top end together, with the same success or the same trap, and leave the same
machine. What the call at the top adds is to read the declared results off the stack, in the order of their declaration;
they are there, unless a host function stands under a signature that is not its own. -/
theorem call_paths_agree (m : Machine) (i : UInt32) (frame : Frame) :
    (∀ answer frame' m', (∃ fuel result, m.execute fuel [.call i] frame = some (result, frame', m') ∧
        unsited result = answer) ↔
      frame' = frame ∧ ∃ fuel result, m.callFunction fuel i = some (result, m') ∧ unsited result = answer) ∧
    ∀ fuel,
      (m.callFunction fuel i = none → m.call fuel i = none) ∧
      (∀ e m', m.callFunction fuel i = some (.error e, m') → m.call fuel i = some (.error e, m')) ∧
      ∀ f m', m.inst.function i = .ok f → m.callFunction fuel i = some (.ok (), m') →
        (∃ cs rest stack, cs.length = f.type.results.length ∧ m'.stack.cells = cs.reverse ++ rest ∧ stack.cells = rest ∧
          m.call fuel i = some (.ok (List.zipWith Val.ofCell f.type.results cs), m'.withStack stack)) ∨
        (∃ host, f.body = .host host ∧ host.type ≠ f.type) ∧ m'.stack.height < f.type.results.length ∧
          m.call fuel i = m'.failed (.stackUnderflow f.type.results.length m'.stack.height) := by
  obtain ⟨hinner, htop⟩ := m.call_agrees i frame
  refine ⟨?_, fun fuel => ⟨call_of_none, fun e m' => call_of_error, ?_⟩⟩
  · intro answer frame' m'
    constructor
    · rintro ⟨fuel, result, hexec, rfl⟩
      obtain ⟨o, ho, heq⟩ := execute_call_iff.1 ⟨fuel, hexec⟩
      obtain ⟨called, ⟨fuel', hcalled⟩, hresult, hframe, hmachine⟩ := hinner o ho
      cases heq
      exact ⟨hframe, fuel', called.1, by rw [hcalled, hmachine], hresult.symm⟩
    · rintro ⟨rfl, fuel, result, hcall, rfl⟩
      obtain ⟨o, ho, hresult, hframe, hmachine⟩ := htop _ ⟨fuel, hcall⟩
      have heq : (o.result, o.state.frame, { m with store := o.state.store }) = (o.result, frame', m') := by
        rw [hframe, hmachine]
      obtain ⟨fuel', hexec⟩ := execute_call_iff.2 ⟨o, ho, heq⟩
      exact ⟨fuel', o.result, hexec, hresult⟩
  · intro f m' hf hcall
    by_cases hle : f.type.results.length ≤ m'.stack.height
    · exact .inl (call_of_results hf hcall hle)
    · have hlt := Nat.lt_of_not_le hle
      refine .inr ⟨?_, hlt, call_of_few hf hcall hlt⟩
      cases hbody : f.body with
      | code code => exact absurd (results_le hf hcall (by simp [hbody])) hle
      | host host =>
        refine ⟨host, rfl, fun hty => hle (results_le hf hcall ?_)⟩
        intro host' hbody'
        rw [hbody] at hbody'
        cases hbody'
        exact hty

end Machine

end WasmCore
