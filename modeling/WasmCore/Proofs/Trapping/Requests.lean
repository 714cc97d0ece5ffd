/-
What a failed request leaves behind.

A run that is over has come to a last step (`Config.run_last`), and a request that was answered either has run nothing, and
then only the stack can be another, or its memory and globals are those that such a run ended with (`Machine.perform_last`).
The last step has no effect on them, so they are what the instructions before it have made of them: nothing is taken back,
and the instruction that traps adds nothing (`Machine.failures_keep`).
-/
import WasmCore.Proofs.Embedding.CallDepth
import WasmCore.Proofs.Trapping.Effects

namespace WasmCore

/-- a run that is over has come to a step that ends it -/
theorem Config.run_last {inst : Instance} {fuel : Nat} {c : Config} {o : Outcome} (h : run inst fuel c = some o) :
    ∃ c', c.Reaches inst c' ∧ c'.step inst = .ended o := by
  induction fuel generalizing c with
  | zero => cases h
  | succ fuel ih =>
    unfold run at h
    cases hs : c.step inst with
    | ended o' =>
      rw [hs] at h
      cases h
      exact ⟨c, .refl, hs⟩
    | running c₁ =>
      rw [hs] at h
      obtain ⟨c', hreaches, hlast⟩ := ih h
      exact ⟨c', .head hs hreaches, hlast⟩

namespace Machine

variable {m m' : Machine} {fuel : Nat} {request : Request}

/-- The run that answers a request has come to its last step, and the machine has the memory and the globals that it ended
with. If the run failed, the request failed with the same error. -/
def LeftBy {α : Type} (m : Machine) (request : Request) (result : Except ExecError α) (m' : Machine) : Prop :=
  ∃ entered c o, m.Visits request entered c ∧ c.step m.inst = .ended o ∧ m'.memory = o.state.store.memory ∧
    m'.store.globals = o.state.store.globals ∧ ∀ e, o.result = .error e → result = .error e

/-- nothing of the request was run, and only the stack may be another -/
def NotRun (m : Machine) (request : Request) (m' : Machine) : Prop :=
  (∀ entered c, ¬ m.Visits request entered c) ∧ ∃ stack, m' = m.withStack stack

/-! ## One function -/

theorem Enters.unique {entry entry' : Machine} {i i' : UInt32} (h : m.Enters request entry i)
    (h' : m.Enters request entry' i') : entry' = entry ∧ i' = i := by
  cases h with
  | invoke name function types =>
    cases h' with
    | invoke name' function' types' =>
      rw [name] at name'
      cases name'
      exact ⟨rfl, rfl⟩
  | call =>
    cases h'
    exact ⟨rfl, rfl⟩
  | callIndirect pop resolve =>
    cases h' with
    | callIndirect pop' resolve' =>
      rw [pop] at pop'
      cases pop'
      rw [resolve] at resolve'
      cases resolve'
      exact ⟨rfl, rfl⟩

theorem Enters.withStack {entry : Machine} {i : UInt32} (h : m.Enters request entry i) :
    ∃ stack, entry = m.withStack stack := by
  cases h with
  | invoke => exact ⟨_, rfl⟩
  | call => exact ⟨m.stack, rfl⟩
  | callIndirect => exact ⟨_, rfl⟩

/-- the results are cut out of the stack only -/
theorem returned_untouched (m : Machine) (height arity : Nat) (o : Outcome) :
    (m.returned height arity o).2.memory = o.state.store.memory ∧
      (m.returned height arity o).2.store.globals = o.state.store.globals ∧
      ∀ e, o.result = .error e → (m.returned height arity o).1 = .error e := by
  unfold returned
  cases hresult : o.result with
  | error e =>
    refine ⟨rfl, rfl, ?_⟩
    rintro _ ⟨⟩
    rfl
  | ok _ =>
    dsimp only
    cases OperandStack.unwind _ height arity with
    | error t => exact ⟨rfl, rfl, nofun⟩
    | ok stack => exact ⟨rfl, rfl, nofun⟩

/-- The function that a request enters is refused, or it is one of the host; or its body is run. -/
theorem callFunction_last {entry : Machine} {i : UInt32} {result : Except ExecError Unit}
    (enters : m.Enters request entry i) (h : entry.callFunction fuel i = some (result, m')) :
    m.NotRun request m' ∨ m.LeftBy request result m' := by
  have hinst := enters.same.1
  by_cases hentered : ∃ f code entered, m.inst.function i = .ok f ∧ f.body = .code code ∧
      f.enter m.inst entry.store = .ok entered
  · obtain ⟨f, code, ⟨frame, store⟩, hf, hbody, henter⟩ := hentered
    right
    unfold callFunction at h
    simp only [hinst, hf, hbody, callGuest_eq, henter, Option.map_eq_some_iff] at h
    obtain ⟨o, hrun, hreturned⟩ := h
    obtain ⟨c, hreaches, hlast⟩ := Config.run_last hrun
    obtain ⟨hmemory, hglobals, herror⟩ := entry.returned_untouched store.stack.height f.type.results.length o
    rw [hreturned] at hmemory hglobals herror
    exact ⟨1, c, o, .body enters hf hbody henter hreaches, hlast, hmemory, hglobals, herror⟩
  · left
    constructor
    · intro entered c hvisits
      cases hvisits with
      | sequence => cases enters
      | body enters' hf hbody henter =>
        obtain ⟨rfl, rfl⟩ := enters.unique enters'
        exact hentered ⟨_, _, _, hf, hbody, henter⟩
    · rcases callFunction_cases h with ⟨stack, rfl⟩ | ⟨f, code, frame, store, o, hf, hbody, henter, -⟩
      · obtain ⟨before, rfl⟩ := enters.withStack
        exact ⟨stack, rfl⟩
      · rw [hinst] at hf henter
        exact (hentered ⟨f, code, _, hf, hbody, henter⟩).elim

/-! ## Requests -/

theorem NotRun.withStack (h : m.NotRun request m') (stack : OperandStack) :
    m.NotRun request (m'.withStack stack) := by
  obtain ⟨hvisits, before, rfl⟩ := h
  exact ⟨hvisits, stack, rfl⟩

/-- a call that enters no function runs nothing -/
theorem notRun_of_refused (hsequence : ∀ code frame, request ≠ .execute code frame)
    (henters : ∀ entry i, ¬ m.Enters request entry i) : m.NotRun request m := by
  refine ⟨?_, m.stack, rfl⟩
  intro entered c hvisits
  cases hvisits with
  | sequence => exact hsequence _ _ rfl
  | body enters => exact henters _ _ enters

/-- what the machine answers in the end may be another answer, but not to a failure -/
theorem LeftBy.answer {α β : Type} {answer : Except ExecError α} {result : Except ExecError β}
    (h : m.LeftBy request answer m') (hresult : ∀ e, answer = .error e → result = .error e) (stack : OperandStack) :
    m.LeftBy request result (m'.withStack stack) := by
  obtain ⟨entered, c, o, hvisits, hlast, hmemory, hglobals, herror⟩ := h
  exact ⟨entered, c, o, hvisits, hlast, hmemory, hglobals, fun e he => hresult e (herror e he)⟩

/-- a call by index calls the function, and takes its results off the stack -/
theorem call_takesResults {i : UInt32} {result : Except ExecError (List Val)} (h : m.call fuel i = some (result, m')) :
    ∃ answer m₁ stack, m.callFunction fuel i = some (answer, m₁) ∧ m' = m₁.withStack stack ∧
      ∀ e, answer = .error e → result = .error e := by
  unfold call at h
  cases hf : m.inst.function i with
  | error t =>
    rw [hf] at h
    cases h
    refine ⟨.error (.unlocated t), m, m.stack, ?_, rfl, ?_⟩
    · unfold callFunction
      rw [hf]
      rfl
    · rintro _ ⟨⟩
      rfl
  | ok f =>
    simp only [hf, Option.bind_eq_some_iff] at h
    obtain ⟨⟨answer, m₁⟩, hcall, h⟩ := h
    cases answer with
    | error e =>
      cases h
      refine ⟨.error e, m₁, m₁.stack, hcall, rfl, ?_⟩
      rintro _ ⟨⟩
      rfl
    | ok _ =>
      simp only [popValues] at h
      cases hpop : m₁.stack.popMany f.type.results.length with
      | error t =>
        rw [hpop] at h
        cases h
        refine ⟨.ok (), m', m'.stack, hcall, rfl, ?_⟩
        intro e he
        cases he
      | ok popped =>
        rw [hpop] at h
        cases h
        refine ⟨.ok (), m₁, popped.2, hcall, rfl, ?_⟩
        intro e he
        cases he

theorem call_last {entry : Machine} {i : UInt32} {result : Except ExecError (List Val)}
    (enters : m.Enters request entry i) (h : entry.call fuel i = some (result, m')) :
    m.NotRun request m' ∨ m.LeftBy request result m' := by
  obtain ⟨answer, m₁, stack, hcall, rfl, hanswer⟩ := call_takesResults h
  rcases callFunction_last enters hcall with hnot | hleft
  · exact .inl (hnot.withStack stack)
  · exact .inr (hleft.answer hanswer stack)

theorem callIndirect_last {tableIndex : UInt32} {declared : FuncType} {result : Except ExecError (List Val)}
    (h : m.callIndirect fuel tableIndex declared = some (result, m')) :
    m.NotRun (.callIndirect tableIndex declared) m' ∨ m.LeftBy (.callIndirect tableIndex declared) result m' := by
  unfold callIndirect at h
  cases hpop : m.stack.pop with
  | error t =>
    rw [hpop] at h
    cases h
    left
    refine notRun_of_refused (fun _ _ => nofun) ?_
    intro entry i enters
    cases enters with
    | callIndirect pop resolve =>
      rw [hpop] at pop
      cases pop
  | ok popped =>
    obtain ⟨slot, stack⟩ := popped
    simp only [hpop] at h
    cases hresolve : (m.withStack stack).inst.resolve tableIndex slot.index declared with
    | error t =>
      rw [hresolve] at h
      cases h
      left
      apply NotRun.withStack
      refine notRun_of_refused (fun _ _ => nofun) ?_
      intro entry i enters
      cases enters with
      | callIndirect pop resolve =>
        rw [hpop] at pop
        cases pop
        rw [show m.inst.resolve tableIndex slot.index declared = _ from hresolve] at resolve
        cases resolve
    | ok i =>
      rw [hresolve] at h
      exact call_last (.callIndirect hpop hresolve) h

theorem invoke_last {name : String} {args : List Val} {result : Except ExecError (List Val)}
    (h : m.invoke fuel name args = some (result, m')) :
    m.NotRun (.invoke name args) m' ∨ m.LeftBy (.invoke name args) result m' := by
  by_cases henters : ∃ entry i, m.Enters (.invoke name args) entry i
  · obtain ⟨entry, i, enters⟩ := henters
    cases enters with
    | invoke hname hf htypes =>
      unfold invoke at h
      simp only [hname, hf, htypes, ne_eq, not_true_eq_false, if_false, Option.bind_eq_some_iff] at h
      obtain ⟨⟨answer, m₁⟩, hcall, h⟩ := h
      have hlast := call_last (.invoke hname hf htypes) hcall
      cases answer with
      | ok vs =>
        cases h
        exact hlast
      | error e =>
        cases h
        rcases hlast with hnot | hleft
        · exact .inl (hnot.withStack _)
        · exact .inr (hleft.answer (fun _ he => he) _)
  · rcases invoke_cases h with ⟨t, rfl, rfl⟩ | ⟨i, f, m₁, hname, hf, htypes, -⟩
    · left
      refine notRun_of_refused (fun _ _ => nofun) ?_
      intro entry i enters
      exact henters ⟨entry, i, enters⟩
    · exact (henters ⟨_, i, .invoke hname hf htypes⟩).elim

theorem execute_last {code : List Instr} {frame frame' : Frame} {result : Except ExecError Unit}
    (h : m.execute fuel code frame = some (result, frame', m')) :
    ∃ c s, Config.Reaches m.inst (.start ⟨m.store, frame⟩ code) c ∧ c.step m.inst = .ended ⟨result, s⟩ ∧
      frame' = s.frame ∧ m' = { m with store := s.store } := by
  unfold execute at h
  obtain ⟨o, hrun, heq⟩ := Option.map_eq_some_iff.1 h
  cases heq
  obtain ⟨c, hreaches, hlast⟩ := Config.run_last hrun
  exact ⟨c, o.state, hreaches, hlast, rfl, rfl⟩

/-- **A request that was answered** has run nothing, or its run has come to a last step -/
theorem perform_last {result : Except ExecError (List Val)} (h : m.perform fuel request = some (result, m')) :
    m.NotRun request m' ∨ m.LeftBy request result m' := by
  cases request with
  | invoke name args => exact invoke_last h
  | call i => exact call_last .call h
  | callIndirect tableIndex declared => exact callIndirect_last h
  | execute code frame =>
    right
    simp only [perform, Option.map_eq_some_iff] at h
    obtain ⟨⟨answer, frame', m₁⟩, hexec, heq⟩ := h
    cases heq
    obtain ⟨c, s, hreaches, hlast, -, rfl⟩ := execute_last hexec
    refine ⟨0, c, _, .sequence hreaches, hlast, rfl, rfl, ?_⟩
    rintro e rfl
    rfl

/-- **A failure leaves what the instructions before it have made.** For any instance and any configuration, with valid or
invalid code: a step that traps leaves the memory, the globals and the locals of all functions that are still active as they
were, the outermost ones among them; the tables belong to the instance, which a step only reads. A sequence or a call that
fails therefore leaves the memory and the globals as its run had them before the last step, which is the one that trapped,
or left the outermost function without its results; if there was no run, only the stack may be another. -/
theorem failures_keep :
    (∀ inst c e s, Config.step inst c = .ended ⟨.error e, s⟩ →
      (∃ c', c.TrapsAt inst e c' ∧ c'.fail e = .ended ⟨.error e, s⟩ ∧
        c'.state.store.memory = c.state.store.memory ∧ c'.state.store.globals = c.state.store.globals ∧
        (c'.frames = c.frames ∨ c'.frames = c.frames.tail)) ∧
      s.store.memory = c.state.store.memory ∧ s.store.globals = c.state.store.globals ∧ s.frame = c.outermostFrame) ∧
    (∀ m fuel code frame e frame' m', execute fuel m code frame = some (.error e, frame', m') →
      m'.inst = m.inst ∧ ∃ c c', Config.Reaches m.inst (.start ⟨m.store, frame⟩ code) c ∧ c.TrapsAt m.inst e c' ∧
        m'.memory = c.state.store.memory ∧ m'.store.globals = c.state.store.globals ∧ frame' = c.outermostFrame) ∧
    ∀ m fuel request e m', perform fuel m request = some (.error e, m') →
      m'.inst = m.inst ∧
      ((∀ entered c, ¬ m.Visits request entered c) ∧ m' = m.withStack m'.stack ∨
        ∃ entered c, m.Visits request entered c ∧
          ((∃ c', c.TrapsAt m.inst e c') ∨ ∃ s, c.step m.inst = .ended ⟨.ok (), s⟩) ∧
          m'.memory = c.state.store.memory ∧ m'.store.globals = c.state.store.globals) := by
  refine ⟨?_, ?_, ?_⟩
  · intro inst c e s h
    obtain ⟨c', htraps⟩ := Config.step_error_iff.1 ⟨s, h⟩
    have huntouched := htraps.untouched
    exact ⟨⟨c', htraps, htraps.step.symm.trans h, huntouched.memory, huntouched.globals, huntouched.frames⟩,
      Config.step_ended h⟩
  · intro m fuel code frame e frame' m' h
    obtain ⟨c, s, hreaches, hlast, rfl, rfl⟩ := execute_last h
    obtain ⟨c', htraps⟩ := Config.step_error_iff.1 ⟨s, hlast⟩
    exact ⟨rfl, c, c', hreaches, htraps, Config.step_ended hlast⟩
  · intro m fuel request e m' h
    refine ⟨(perform_evolves h).inst, ?_⟩
    rcases perform_last h with ⟨hvisits, stack, rfl⟩ | ⟨entered, c, o, hvisits, hlast, hmemory, hglobals, herror⟩
    · exact .inl ⟨hvisits, rfl⟩
    · obtain ⟨hm, hg, -⟩ := Config.step_ended hlast
      refine .inr ⟨entered, c, hvisits, ?_, hmemory.trans hm, hglobals.trans hg⟩
      obtain ⟨result, s⟩ := o
      cases result with
      | ok _ => exact .inr ⟨s, hlast⟩
      | error e' =>
        cases herror e' rfl
        exact .inl (Config.step_error_iff.1 ⟨s, hlast⟩)

/-- a function that writes a global and then stores beyond the end of the memory, before it writes the global again -/
def interrupted : Module :=
  let body := [.const (.i32 9), .globalSet 0, .const (.i32 1), .const (.i32 2), .store (.full .i32) ⟨2, 0⟩,
    .const (.i32 5), .globalSet 0]
  { Module.empty with
    pages := 0, functions := #[.guest "f" ⟨[], []⟩ [] body], exports := #[("f", 0)], globals := #[.new (.i32 0) true] }

/-- its machine, when the global has this value -/
def interrupting (v : Val) : Machine :=
  ⟨⟨#[], interrupted.functions, #[], 1⟩, #[("f", 0)], ⟨.empty 2, .new 0 none, #[.new v true], 0⟩⟩

/-- The first write stays, and the run has come to a step that traps where the global is as the machine is left. -/
theorem failures_keep_interrupted :
    instantiate interrupted ⟨none, 2, 1⟩ = .ok (interrupting (.i32 0)) ∧
    (interrupting (.i32 0)).perform 5 (.invoke "f" []) =
      some (.error (.located (.memoryOutOfBounds 1 4 0) ⟨0x36, 4⟩), interrupting (.i32 9)) ∧
    ∃ entered c, (interrupting (.i32 0)).Visits (.invoke "f" []) entered c ∧
      c.state.store.globals = #[.new (.i32 9) true] := by
  have hinvoke : (interrupting (.i32 0)).perform 5 (.invoke "f" []) =
      some (.error (.located (.memoryOutOfBounds 1 4 0) ⟨0x36, 4⟩), interrupting (.i32 9)) := rfl
  refine ⟨rfl, hinvoke, ?_⟩
  obtain ⟨-, ⟨-, hsame⟩ | ⟨entered, c, hvisits, -, -, hglobals⟩⟩ := failures_keep.2.2 _ _ _ _ _ hinvoke
  · -- the machine is another one, so something was run
    have hglobals : (interrupting (.i32 9)).store.globals = (interrupting (.i32 0)).store.globals := by
      rw [hsame]
      rfl
    cases hglobals
  · exact ⟨entered, c, hvisits, hglobals.symm⟩

end Machine

end WasmCore
