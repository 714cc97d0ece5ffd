/-
Calls through a table.

An embedding program gives the signature that it expects; code names it by an index into the types. From there on the two
ways are one: the slot number is taken off the stack, the slot is resolved (`Proofs.Resolve`), and what follows is the call of
the function that it refers to, or a trap that leaves everything but the slot number (`Machine.indirect_calls`). So whatever
a table holds, no function is entered through it under any other signature than its own.
-/
import WasmCore.Proofs.Embedding.CallDepth
import WasmCore.Proofs.Resolve
import WasmCore.Proofs.Structured.CallPaths

namespace WasmCore

variable {inst : Instance} {slot : Cell} {stack : OperandStack} {typeIndex tableIndex : UInt32}

/-- the function that an instruction with these indices calls, given the slot number -/
def Instance.target (inst : Instance) (typeIndex tableIndex slot : UInt32) : Except Trap UInt32 := do
  inst.resolve tableIndex slot (← inst.type typeIndex)

theorem Instance.target_eq {declared : FuncType} (h : inst.types[typeIndex.toNat]? = some declared) (slot : UInt32) :
    inst.target typeIndex tableIndex slot = inst.resolve tableIndex slot declared := by
  simp only [target, Instance.type, h, bind, Except.bind]

/-- a missing signature is found out before anything is looked for in the table -/
theorem Instance.target_missing (h : inst.types[typeIndex.toNat]? = none) (tableIndex slot : UInt32) :
    inst.target typeIndex tableIndex slot = .error (.undefinedType typeIndex) := by
  simp only [target, Instance.type, h, bind, Except.bind]

/-! ## The instruction -/

/-- what is called, once the slot number has been taken off the stack -/
theorem indirectTarget_eq {s : State} (hpop : s.store.stack.pop = .ok (slot, stack)) (typeIndex tableIndex : UInt32) :
    indirectTarget inst typeIndex tableIndex s =
      match inst.target typeIndex tableIndex slot.index with
      | .error t => .error t { s with store.stack := stack }
      | .ok i => .ok i { s with store.stack := stack } := by
  simp only [indirectTarget, Instance.target, bind, EStateM.bind, Except.bind, Exec.pop_eq, hpop]
  cases inst.type typeIndex with
  | error t => rfl
  | ok declared =>
    simp only [ofExcept, pure, EStateM.pure]
    cases inst.resolve tableIndex slot.index declared <;> rfl

/-- a call through a table calls a function of the signature that it names -/
theorem indirectTarget_ok {s s' : State} {i : UInt32} (h : indirectTarget inst typeIndex tableIndex s = .ok i s') :
    ∃ f, inst.functions[i.toNat]? = some f ∧ inst.types[typeIndex.toNat]? = some f.type := by
  cases hcells : s.store.stack.cells with
  | nil =>
    simp only [indirectTarget, bind, EStateM.bind, Exec.pop_eq, OperandStack.pop_nil hcells] at h
    cases h
  | cons slot rest =>
    obtain ⟨stack, hpop, -⟩ := OperandStack.pop_cons hcells
    rw [indirectTarget_eq hpop] at h
    cases htype : inst.types[typeIndex.toNat]? with
    | none =>
      rw [Instance.target_missing htype] at h
      cases h
    | some declared =>
      rw [Instance.target_eq htype] at h
      cases hr : inst.resolve tableIndex slot.index declared with
      | error t =>
        rw [hr] at h
        cases h
      | ok j =>
        rw [hr] at h
        cases h
        obtain ⟨f, hf, rfl⟩ := (Instance.resolve_ok_iff.1 hr).function
        exact ⟨f, hf, rfl⟩

namespace Config

variable {c d : Config} {control : Control}

/-- after the slot number has been taken off the stack -/
def popped (c : Config) (control : Control) (stack : OperandStack) : Config :=
  ⟨{ c.state with store.stack := stack }, control, c.callers⟩

theorem step_indirect (hnext : c.control.next? = some (.callIndirect typeIndex tableIndex, control))
    (hpop : c.state.store.stack.pop = .ok (slot, stack)) :
    c.step inst =
      match inst.target typeIndex tableIndex slot.index with
      | .error t => (c.popped control stack).fail (.located t ⟨0x11, control.innermost.index⟩)
      | .ok i => (c.popped control stack).call inst i ⟨0x11, control.innermost.index⟩ := by
  simp only [step, hnext, Task.exec_callIndirect, bind, EStateM.bind, indirectTarget_eq hpop]
  cases inst.target typeIndex tableIndex slot.index <;> rfl

/-- **Whatever function a call through a table enters, it has the signature that the call names** -/
theorem entered_indirect (hnext : c.control.next? = some (.callIndirect typeIndex tableIndex, control))
    (hstep : c.step inst = .running d) (hentered : c.callers.length < d.callers.length) :
    ∃ f ∈ inst.functions, ∃ body caller, inst.types[typeIndex.toNat]? = some f.type ∧ f.body = .code body ∧
      d.control = .start body ∧ d.callers = caller :: c.callers ∧ caller.arity = f.type.results.length ∧
      ∃ s : OperandStack, Frame.enter s f.type.params f.locals = .ok (d.state.frame, d.state.store.stack) := by
  simp only [step, hnext, Task.exec_callIndirect, bind, EStateM.bind] at hstep
  cases htarget : indirectTarget inst typeIndex tableIndex c.state with
  | error t s =>
    rw [htarget] at hstep
    cases hstep
  | ok i s =>
    obtain ⟨f, hf, hty⟩ := indirectTarget_ok htarget
    have hfun := Instance.function_ok_iff.2 hf
    rw [htarget] at hstep
    have hstep : Config.call inst ⟨s, control, c.callers⟩ i _ = .running d := hstep
    cases hbody : f.body with
    | host h =>
      -- a host function has answered by now, so none is entered
      rw [call_host hfun hbody] at hstep
      dsimp only at hstep
      generalize h.call s.store.stack = called at hstep
      obtain ⟨answer, stack⟩ := called
      cases answer with
      | error t => cases hstep
      | ok _ =>
        cases hstep
        exact absurd hentered (Nat.lt_irrefl _)
    | code body =>
      rw [call_code hfun hbody] at hstep
      cases henter : f.enter inst s.store with
      | error t =>
        rw [henter] at hstep
        cases hstep
      | ok entered =>
        obtain ⟨frame, store⟩ := entered
        obtain ⟨-, stack, hstack, rfl⟩ := Function.enter_ok henter
        rw [henter] at hstep
        cases hstep
        exact ⟨f, Array.mem_of_getElem? hf, body, _, hty, hbody, rfl, rfl, rfl, s.store.stack, hstack⟩

end Config

/-! ## A sequence of one instruction -/

namespace Task

variable {s : State} {i : UInt32} {site : Site} {ending : Ending}

theorem ends_succ_iff {t : Task} :
    t.Ends inst s ending ↔ ∃ fuel, evalWith inst (eval inst fuel) t s = some ending := by
  constructor
  · rintro ⟨fuel, h⟩
    cases fuel with
    | zero => cases h
    | succ fuel => exact ⟨fuel, h⟩
  · rintro ⟨fuel, h⟩
    exact ⟨fuel + 1, h⟩

theorem ends_call_iff {nesting : Nat} :
    Ends inst (.instr nesting site (.call i)) s ending ↔ Ends inst (.call site i) s ending :=
  ends_succ_iff

theorem ends_indirect_iff {nesting : Nat} {s' : State} (h : indirectTarget inst typeIndex tableIndex s = .ok i s') :
    Ends inst (.instr nesting site (.callIndirect typeIndex tableIndex)) s ending ↔ Ends inst (.call site i) s' ending := by
  rw [ends_succ_iff]
  simp only [evalWith, h]
  rfl

/-- the site of a call is no more than where its failures are reported -/
theorem Ends.resited (h : Ends inst (.call site i) s ending) (site' : Site) :
    ∃ ending', Ends inst (.call site' i) s ending' ∧ ending'.2 = ending.2 ∧
      unsited ending'.1.result = unsited ending.1.result := by
  obtain ⟨fuel, h⟩ := ends_succ_iff.1 h
  suffices hsame : ∃ ending', evalWith inst (eval inst fuel) (.call site' i) s = some ending' ∧ ending'.2 = ending.2 ∧
      unsited ending'.1.result = unsited ending.1.result by
    obtain ⟨ending', h', heq⟩ := hsame
    exact ⟨ending', ends_succ_iff.2 ⟨fuel, h'⟩, heq⟩
  simp only [evalWith] at h ⊢
  cases hf : inst.function i with
  | error t =>
    rw [hf] at h
    cases h
    exact ⟨_, rfl, rfl, rfl⟩
  | ok f =>
    simp only [hf] at h ⊢
    cases hbody : f.body with
    | host host =>
      simp only [hbody] at h ⊢
      cases hresult : (host.call s.store.stack).1 with
      | error t =>
        rw [hresult] at h
        cases h
        exact ⟨_, rfl, rfl, rfl⟩
      | ok _ =>
        rw [hresult] at h
        exact ⟨_, h, rfl, rfl⟩
    | code body =>
      simp only [hbody] at h ⊢
      by_cases hd : inst.maxCallDepth ≤ s.store.depth
      · rw [if_pos hd] at h ⊢
        cases h
        exact ⟨_, rfl, rfl, rfl⟩
      · rw [if_neg hd] at h ⊢
        cases henter : Frame.enter s.store.stack f.type.params f.locals with
        | error t =>
          rw [henter] at h
          cases h
          exact ⟨_, rfl, rfl, rfl⟩
        | ok entered =>
          rw [henter] at h
          exact ⟨_, h, rfl, rfl⟩

end Task

namespace Machine

variable {m m' : Machine} {frame frame' : Frame}

/-- a sequence of one instruction ends where the instruction does -/
theorem execute_single_iff {instr : Instr} {result : Except ExecError Unit} :
    (∃ fuel, m.execute fuel [instr] frame = some (result, frame', m')) ↔
      ∃ ending, Task.Ends m.inst (.instr 0 ⟨instr.opcode, 0⟩ instr) ⟨m.store, frame⟩ ending ∧
        (ending.1.result, ending.2.frame, { m with store := ending.2.store }) = (result, frame', m') := by
  have hstep : (Progress.running (.start ⟨m.store, frame⟩ [instr])).Leads m.inst
      (Config.perform m.inst ⟨⟨m.store, frame⟩, ⟨[], ⟨[instr], []⟩⟩, []⟩ instr ⟨instr.opcode, 0⟩) :=
    (Progress.leads_step _).trans (.of_eq (Config.step_cons rfl))
  have hstart : Task.Starts m.inst ⟨[], ⟨[instr], []⟩⟩ [] (.instr 0 ⟨instr.opcode, 0⟩ instr) ⟨m.store, frame⟩ _ := .instr
  have hafter (ending : Ending) (o : Outcome) :
      (∃ fuel, (Task.after ⟨[], ⟨[instr], []⟩⟩ [] (.instr 0 ⟨instr.opcode, 0⟩ instr) ending).run m.inst fuel = some o) ↔
        ⟨ending.1.result, ending.2⟩ = o := (ending.resume_outermost [instr]).ended_iff
  have hends (o : Outcome) : (∃ fuel, Config.run m.inst fuel (.start ⟨m.store, frame⟩ [instr]) = some o) ↔
      ∃ ending, Task.Ends m.inst (.instr 0 ⟨instr.opcode, 0⟩ instr) ⟨m.store, frame⟩ ending ∧
        ⟨ending.1.result, ending.2⟩ = o := by
    have h := (hstep.ends_iff (o := o)).trans hstart.ends_iff
    simp only [hafter] at h
    exact h
  constructor
  · rintro ⟨fuel, h⟩
    obtain ⟨o, hrun, heq⟩ := Option.map_eq_some_iff.1 h
    obtain ⟨ending, hending, rfl⟩ := (hends o).1 ⟨fuel, hrun⟩
    exact ⟨ending, hending, heq⟩
  · rintro ⟨ending, hending, heq⟩
    obtain ⟨fuel, hrun⟩ := (hends _).2 ⟨ending, hending, rfl⟩
    exact ⟨fuel, Option.map_eq_some_iff.2 ⟨_, hrun, heq⟩⟩

/-- what a sequence of one call ends with, up to the site, from wherever in the sequence it is reported -/
theorem execute_site_iff {instr : Instr} {i : UInt32} {s : State} (site : Site) {answer : Except Trap Unit}
    (h : ∀ ending, Task.Ends m.inst (.instr 0 ⟨instr.opcode, 0⟩ instr) ⟨m.store, frame⟩ ending ↔
      Task.Ends m.inst (.call ⟨instr.opcode, 0⟩ i) s ending) :
    (∃ fuel result, m.execute fuel [instr] frame = some (result, frame', m') ∧ unsited result = answer) ↔
      ∃ ending, Task.Ends m.inst (.call site i) s ending ∧ unsited ending.1.result = answer ∧ ending.2.frame = frame' ∧
        { m with store := ending.2.store } = m' := by
  constructor
  · rintro ⟨fuel, result, hexec, rfl⟩
    obtain ⟨ending, hending, heq⟩ := execute_single_iff.1 ⟨fuel, hexec⟩
    obtain ⟨ending', hending', hstate, hanswer⟩ := ((h ending).1 hending).resited site
    cases heq
    exact ⟨ending', hending', hanswer, by rw [hstate], by rw [hstate]⟩
  · rintro ⟨ending, hending, rfl, rfl, rfl⟩
    obtain ⟨ending', hending', hstate, hanswer⟩ := hending.resited ⟨instr.opcode, 0⟩
    obtain ⟨fuel, hexec⟩ := execute_single_iff.2 ⟨ending', (h ending').2 hending', rfl⟩
    rw [hstate] at hexec
    exact ⟨fuel, _, hexec, hanswer⟩

/-- executing a call through a table is executing the call of the function that it finds -/
theorem execute_indirect_iff (hpop : m.stack.pop = .ok (slot, stack)) {i : UInt32}
    (ht : m.inst.target typeIndex tableIndex slot.index = .ok i) {answer : Except Trap Unit} :
    (∃ fuel result, m.execute fuel [.callIndirect typeIndex tableIndex] frame = some (result, frame', m') ∧
        unsited result = answer) ↔
      ∃ fuel result, (m.withStack stack).execute fuel [.call i] frame = some (result, frame', m') ∧
        unsited result = answer := by
  have hpop : (State.mk m.store frame).store.stack.pop = .ok (slot, stack) := hpop
  have htarget : indirectTarget m.inst typeIndex tableIndex ⟨m.store, frame⟩ =
      .ok i ⟨{ m.store with stack }, frame⟩ := by
    rw [indirectTarget_eq hpop, ht]
  rw [execute_site_iff ⟨0x10, 0⟩ fun ending => Task.ends_indirect_iff htarget,
    execute_site_iff ⟨0x10, 0⟩ fun ending => Task.ends_call_iff]
  rfl

/-- in a run on the machine, the next instruction is a call through a table -/
structure AtIndirect (m : Machine) (typeIndex tableIndex : UInt32) (c : Config) (control : Control) : Prop where
  store : c.state.store = m.store
  next : c.control.next? = some (.callIndirect typeIndex tableIndex, control)

theorem AtIndirect.step {c : Config} {control : Control} (h : m.AtIndirect typeIndex tableIndex c control)
    (hpop : m.stack.pop = .ok (slot, stack)) :
    c.step m.inst =
      match m.inst.target typeIndex tableIndex slot.index with
      | .error t => (c.popped control stack).fail (.located t ⟨0x11, control.innermost.index⟩)
      | .ok i => (c.popped control stack).call m.inst i ⟨0x11, control.innermost.index⟩ :=
  Config.step_indirect h.next (h.store ▸ hpop)

/-- **Calls through a table.** A slot refers to a function of the declared signature, or there is a first thing that is
wrong with it. In the one case an embedding program and an instruction that names this signature call that function, on
the machine without the slot number; in the other they fail there. An instruction that names no signature fails before
the table is looked at. -/
theorem indirect_calls (hpop : m.stack.pop = .ok (slot, stack)) (tableIndex : UInt32) (declared : FuncType) :
    slot.index.toNat = slot.toNat % UInt32.size ∧ m.stack.cells = slot :: stack.cells ∧
    ((∃ i, m.inst.Refers tableIndex slot.index declared i) ∨ ∃ t, m.inst.Refuses tableIndex slot.index declared t) ∧
    (∀ i, m.inst.Refers tableIndex slot.index declared i →
      (∀ fuel, m.callIndirect fuel tableIndex declared = (m.withStack stack).call fuel i) ∧
      ∀ typeIndex, m.inst.types[UInt32.toNat typeIndex]? = some declared →
        (∀ c control, m.AtIndirect typeIndex tableIndex c control →
          c.step m.inst = (c.popped control stack).call m.inst i ⟨0x11, control.innermost.index⟩) ∧
        ∀ frame answer frame' m',
          (∃ fuel result, m.execute fuel [.callIndirect typeIndex tableIndex] frame = some (result, frame', m') ∧
              unsited result = answer) ↔
            ∃ fuel result, (m.withStack stack).execute fuel [.call i] frame = some (result, frame', m') ∧
              unsited result = answer) ∧
    (∀ t, m.inst.Refuses tableIndex slot.index declared t →
      (∀ fuel, m.callIndirect fuel tableIndex declared = (m.withStack stack).failed t) ∧
      ∀ typeIndex, m.inst.types[UInt32.toNat typeIndex]? = some declared →
        ∀ c control, m.AtIndirect typeIndex tableIndex c control →
          c.step m.inst = (c.popped control stack).fail (.located t ⟨0x11, control.innermost.index⟩)) ∧
    (∀ typeIndex, m.inst.types[UInt32.toNat typeIndex]? = none →
      ∀ c control, m.AtIndirect typeIndex tableIndex c control →
        c.step m.inst =
          (c.popped control stack).fail (.located (.undefinedType typeIndex) ⟨0x11, control.innermost.index⟩)) ∧
    ∀ typeIndex (c d : Config) control, c.control.next? = some (.callIndirect typeIndex tableIndex, control) →
      c.step m.inst = .running d → c.callers.length < d.callers.length →
      ∃ f ∈ m.inst.functions, ∃ body caller, m.inst.types[typeIndex.toNat]? = some f.type ∧ f.body = .code body ∧
        d.control = .start body ∧ d.callers = caller :: c.callers ∧ caller.arity = f.type.results.length ∧
        ∃ s : OperandStack, Frame.enter s f.type.params f.locals = .ok (d.state.frame, d.state.store.stack) := by
  have hindex : slot.index.toNat = slot.toNat % UInt32.size := BitVec.toNat_setWidth 32 slot
  have hcall (fuel : Nat) : m.callIndirect fuel tableIndex declared =
      match m.inst.resolve tableIndex slot.index declared with
      | .error t => (m.withStack stack).failed t
      | .ok i => (m.withStack stack).call fuel i := by
    simp only [callIndirect, hpop]
    rfl
  refine ⟨hindex, OperandStack.pop_ok hpop, m.inst.resolve_total _ _ _, ?_, ?_, ?_, ?_⟩
  · intro i href
    refine ⟨fun fuel => by rw [hcall, href.resolve], fun typeIndex hty => ?_⟩
    have ht : m.inst.target typeIndex tableIndex slot.index = .ok i := by
      rw [Instance.target_eq hty, href.resolve]
    exact ⟨fun c control hat => by rw [hat.step hpop, ht], fun frame answer frame' m' => execute_indirect_iff hpop ht⟩
  · intro t href
    refine ⟨fun fuel => by rw [hcall, href.resolve], fun typeIndex hty c control hat => ?_⟩
    rw [hat.step hpop, Instance.target_eq hty, href.resolve]
  · intro typeIndex hty c control hat
    rw [hat.step hpop, Instance.target_missing hty]
  · intro typeIndex c d control
    exact Config.entered_indirect

/-- a machine with one function, to which the first slot of its table refers; the slot number on the stack has bits above
the lowest 32 -/
def dispatching : Machine :=
  ⟨⟨#[⟨[], [.i32]⟩], #[.guest "f" ⟨[], [.i32]⟩ [] [.const (.i32 1)]], #[.ofElements [some 0, none, some 9]], 2⟩, #[],
    ⟨⟨[0x500000000, 7], 2, 4, rfl⟩, .new 0 none, #[], 0⟩⟩

/-- the call through the table is that of the function; through a table that does not exist it takes the slot number only -/
theorem indirect_calls_dispatching : ∃ stack, dispatching.stack.pop = .ok (0x500000000, stack) ∧ stack.cells = [7] ∧
    (∀ fuel, dispatching.callIndirect fuel 0 ⟨[], [.i32]⟩ = (dispatching.withStack stack).call fuel 0) ∧
    dispatching.callIndirect 5 0 ⟨[], [.i32]⟩ = some (.ok [.i32 1], dispatching.withStack stack) ∧
    ∀ fuel, dispatching.callIndirect fuel 1 ⟨[], [.i32]⟩ = (dispatching.withStack stack).failed (.undefinedTable 1) := by
  have hrefers : dispatching.inst.Refers 0 (Cell.index 0x500000000) ⟨[], [.i32]⟩ 0 := ⟨⟨_, rfl, rfl⟩, _, rfl, rfl⟩
  have hrefuses : dispatching.inst.Refuses 1 (Cell.index 0x500000000) ⟨[], [.i32]⟩ (.undefinedTable 1) := .table rfl
  obtain ⟨-, -, -, hcalled, -⟩ := indirect_calls (m := dispatching) rfl 0 ⟨[], [.i32]⟩
  obtain ⟨-, -, -, -, hfailed, -⟩ := indirect_calls (m := dispatching) rfl 1 ⟨[], [.i32]⟩
  exact ⟨_, rfl, rfl, (hcalled 0 hrefers).1, rfl, (hfailed _ hrefuses).1⟩

end Machine

end WasmCore
