/-
Higher limits on nested calls.

The limit is looked at where a function of the guest is entered, and nowhere else. So a step that does not refuse a function
for want of calls is the same under any higher limit (`Config.step_withLimit`), and with it a whole run and a whole request
(`Machine.perform_withLimit`). A run that does refuse one (`Machine.Exhausts`) ends right there, with the trap that says so
(`Machine.perform_exhausted`); the trap alone does not tell, because a host function may raise it for reasons of its own.
-/
import WasmCore.Proofs.Embedding.CallDepth

namespace WasmCore

/-- the same functions, signatures and tables under another limit -/
def Instance.withLimit (inst : Instance) (limit : Nat) : Instance :=
  { inst with maxCallDepth := limit }

variable {inst : Instance} {limit : Nat}

/-! ## Runs -/

theorem Instr.exec_withLimit (inst : Instance) (limit : Nat) (i : Instr) :
    i.exec (inst.withLimit limit) = i.exec inst := by
  cases i <;> rfl

theorem Function.enter_withLimit (f : Function) {s : Store} (hroom : s.depth < inst.maxCallDepth)
    (hle : inst.maxCallDepth ≤ limit) : f.enter (inst.withLimit limit) s = f.enter inst s := by
  have hroom' : s.depth < (inst.withLimit limit).maxCallDepth := Nat.lt_of_lt_of_le hroom hle
  rw [enter, enter, if_neg (Nat.not_le.2 hroom), if_neg (Nat.not_le.2 hroom')]

namespace Config

variable {c d : Config}

/-- the next instruction calls a function of the guest, and as many are active as there may be -/
inductive Refuses (inst : Instance) (c : Config) : Prop
  | mk {i : UInt32} {f : Function} {code : List Instr} {c' : Config} {site : Site} (calls : c.Calls inst i c' site)
      (function : inst.function i = .ok f) (code_eq : f.body = .code code)
      (full : inst.maxCallDepth ≤ c.state.store.depth)

theorem call_withLimit {i : UInt32} (site : Site) (hle : inst.maxCallDepth ≤ limit)
    (hroom : ∀ f code, inst.function i = .ok f → f.body = .code code → c.state.store.depth < inst.maxCallDepth) :
    c.call (inst.withLimit limit) i site = c.call inst i site := by
  have hfunction : (inst.withLimit limit).function i = inst.function i := rfl
  cases hf : inst.function i with
  | error t => rw [call_missing hf, call_missing (hfunction.trans hf)]
  | ok f =>
    cases hbody : f.body with
    | host host => rw [call_host hf hbody, call_host (hfunction.trans hf) hbody]
    | code code =>
      rw [call_code hf hbody, call_code (hfunction.trans hf) hbody, f.enter_withLimit (hroom f code hf hbody) hle]

/-- **A step under a higher limit is the same**, unless a function is refused for want of calls -/
theorem step_withLimit (hle : inst.maxCallDepth ≤ limit) (h : ¬ c.Refuses inst) :
    c.step (inst.withLimit limit) = c.step inst := by
  cases hnext : c.control.next? with
  | none => simp only [step, hnext]
  | some next =>
    obtain ⟨instr, control⟩ := next
    simp only [step, hnext, Instr.exec_withLimit]
    cases hexec : instr.exec inst c.state with
    | error t s => rfl
    | ok flow s =>
      cases flow with
      | next | enter | branch | ret => rfl
      | call i =>
        have hcalls : c.Calls inst i ⟨s, control, c.callers⟩ _ := .mk hnext hexec
        refine call_withLimit _ hle fun f code hf hbody => ?_
        rw [hcalls.depth]
        exact Nat.lt_of_not_le fun hfull => h (.mk hcalls hf hbody hfull)

theorem run_withLimit (hle : inst.maxCallDepth ≤ limit) (h : ∀ d, c.Reaches inst d → ¬ d.Refuses inst) (fuel : Nat) :
    run (inst.withLimit limit) fuel c = run inst fuel c := by
  induction fuel generalizing c with
  | zero => rfl
  | succ fuel ih =>
    rw [run, run, step_withLimit hle (h c .refl)]
    cases hs : c.step inst with
    | ended o => rfl
    | running d => exact ih fun d' hd' => h d' (hd'.head hs)

theorem Refuses.traps (h : c.Refuses inst) : (c.step inst).Traps .callStackExhausted := by
  obtain ⟨calls, function, code_eq, full⟩ := h
  rw [calls.step, call_full function code_eq _ (calls.depth.symm ▸ full)]
  exact Progress.fail_traps_iff.2 rfl

/-- a run that comes to such a point ends there -/
theorem run_refused {o : Outcome} {fuel : Nat} (hr : c.Reaches inst d) (h : d.Refuses inst)
    (hrun : run inst fuel c = some o) : ∃ site, o.result = .error ⟨.callStackExhausted, site⟩ := by
  -- steps are determined, so the run takes the steps that lead to the point, and no step goes on from there
  induction fuel generalizing c with
  | zero => cases hrun
  | succ fuel ih =>
    rw [run] at hrun
    rcases Relation.ReflTransGen.cases_head hr with rfl | ⟨e, hs, hr'⟩
    · have htraps := h.traps
      cases hs : c.step inst with
      | running e =>
        rw [hs] at htraps
        cases htraps
      | ended o' =>
        rw [hs] at htraps hrun
        cases hrun
        exact htraps
    · rw [hs] at hrun
      exact ih hr' hrun

end Config

/-! ## Machines -/

namespace Machine

/-- the same machine under another limit -/
def withLimit (m : Machine) (limit : Nat) : Machine :=
  { m with inst := m.inst.withLimit limit }

variable {m m' : Machine} {fuel : Nat}

/-- a module does not depend on the limit of its machines -/
theorem instantiate_withLimit (mod : Module) (limits : Limits) (limit : Nat) :
    instantiate mod { limits with maxCallDepth := limit } = (instantiate mod limits).map (withLimit · limit) := by
  unfold instantiate
  simp only [bind, Except.bind]
  cases writeSegments _ mod.data.toList <;> rfl

/-- the function of an index is refused for want of calls, or one that is called while it is active -/
inductive Refuses (m : Machine) (i : UInt32) : Prop
  | entry {f : Function} {code : List Instr} (function : m.inst.function i = .ok f) (code_eq : f.body = .code code)
      (full : m.inst.maxCallDepth ≤ m.store.depth)
  | within {f : Function} {code : List Instr} {frame : Frame} {store : Store} {c : Config}
      (function : m.inst.function i = .ok f) (code_eq : f.body = .code code)
      (enter : f.enter m.inst m.store = .ok (frame, store))
      (reaches : Config.Reaches m.inst (.start ⟨store, frame⟩ code) c) (refuses : c.Refuses m.inst)

/-- the machine refuses a function for want of calls at some point of the answer to the request -/
inductive Exhausts (m : Machine) : Request → Prop
  | function {request : Request} {entry : Machine} {i : UInt32} (enters : m.Enters request entry i)
      (refuses : entry.Refuses i) : Exhausts m request
  | sequence {code : List Instr} {frame : Frame} {c : Config}
      (reaches : Config.Reaches m.inst (.start ⟨m.store, frame⟩ code) c) (refuses : c.Refuses m.inst) :
      Exhausts m (.execute code frame)

/-! ## The same answers -/

section Higher

variable (hle : m.inst.maxCallDepth ≤ limit)

include hle

theorem execute_withLimit {code : List Instr} {frame : Frame} (h : ¬ m.Exhausts (.execute code frame)) :
    (m.withLimit limit).execute fuel code frame =
      (m.execute fuel code frame).map fun (result, frame, m') => (result, frame, m'.withLimit limit) := by
  have hrun : Config.run (m.inst.withLimit limit) fuel (.start ⟨m.store, frame⟩ code) =
      Config.run m.inst fuel (.start ⟨m.store, frame⟩ code) :=
    Config.run_withLimit hle (fun _ hr hrefuses => h (.sequence hr hrefuses)) fuel
  have hexec : (m.withLimit limit).execute fuel code frame =
      (Config.run (m.inst.withLimit limit) fuel (.start ⟨m.store, frame⟩ code)).map fun o =>
        (o.result, o.state.frame, ({ m with store := o.state.store } : Machine).withLimit limit) := rfl
  rw [hexec, hrun, execute, Option.map_map]
  rfl

theorem callFunction_withLimit {i : UInt32} (h : ¬ m.Refuses i) :
    (m.withLimit limit).callFunction fuel i = (m.callFunction fuel i).map (Prod.map id (withLimit · limit)) := by
  have hfunction : (m.withLimit limit).inst.function i = m.inst.function i := rfl
  unfold callFunction
  rw [hfunction]
  cases hf : m.inst.function i with
  | error t => rfl
  | ok f =>
    cases hbody : f.body with
    | host host => simp only [hbody]; rfl
    | code code =>
      have hroom : m.store.depth < m.inst.maxCallDepth := Nat.lt_of_not_le fun hfull => h (.entry hf hbody hfull)
      have henter : f.enter (m.withLimit limit).inst (m.withLimit limit).store = f.enter m.inst m.store :=
        f.enter_withLimit hroom hle
      simp only [hbody, callGuest_eq, henter]
      cases hentered : f.enter m.inst m.store with
      | error t => rfl
      | ok entered =>
        obtain ⟨frame, store⟩ := entered
        have hrun : Config.run (m.withLimit limit).inst fuel (.start ⟨store, frame⟩ code) =
            Config.run m.inst fuel (.start ⟨store, frame⟩ code) :=
          Config.run_withLimit hle (fun _ hr hrefuses => h (.within hf hbody hentered hr hrefuses)) fuel
        have hreturned (o : Outcome) : (m.withLimit limit).returned store.stack.height f.type.results.length o =
            Prod.map id (withLimit · limit) (m.returned store.stack.height f.type.results.length o) := by
          unfold returned
          cases o.result with
          | error e => rfl
          | ok _ =>
            simp only [Machine.stack]
            cases o.state.store.stack.unwind store.stack.height f.type.results.length <;> rfl
        simp only [hrun, Option.map_map]
        exact congrArg (Option.map · _) (funext hreturned)

theorem call_withLimit {i : UInt32} (h : ¬ m.Refuses i) :
    (m.withLimit limit).call fuel i = (m.call fuel i).map (Prod.map id (withLimit · limit)) := by
  have hfunction : (m.withLimit limit).inst.function i = m.inst.function i := rfl
  unfold call
  rw [hfunction, callFunction_withLimit hle h]
  cases m.inst.function i with
  | error t => rfl
  | ok f =>
    cases m.callFunction fuel i with
    | none => rfl
    | some called =>
      obtain ⟨answer, m'⟩ := called
      cases answer with
      | error e => rfl
      | ok _ =>
        simp only [Option.map_some, Option.bind_some, Prod.map, popValues]
        have hstack : (m'.withLimit limit).stack = m'.stack := rfl
        rw [hstack]
        cases m'.stack.popMany f.type.results.length <;> rfl

/-- **A request is answered in the same way under a higher limit**, unless a function is refused for want of calls -/
theorem perform_withLimit {request : Request} (h : ¬ m.Exhausts request) :
    (m.withLimit limit).perform fuel request = (m.perform fuel request).map (Prod.map id (withLimit · limit)) := by
  have hcall {entry : Machine} {i : UInt32} (henters : m.Enters request entry i) :
      (entry.withLimit limit).call fuel i = (entry.call fuel i).map (Prod.map id (withLimit · limit)) :=
    call_withLimit (henters.same.1 ▸ hle) fun hrefuses => h (.function henters hrefuses)
  cases request with
  | call i => exact hcall .call
  | callIndirect tableIndex declared =>
    simp only [perform, callIndirect]
    have hstack : (m.withLimit limit).stack = m.stack := rfl
    rw [hstack]
    cases hpop : m.stack.pop with
    | error t => rfl
    | ok popped =>
      obtain ⟨slot, stack⟩ := popped
      dsimp only
      have hresolve : ((m.withLimit limit).withStack stack).inst.resolve tableIndex slot.index declared =
          m.inst.resolve tableIndex slot.index declared := rfl
      have hresolve' : (m.withStack stack).inst.resolve tableIndex slot.index declared =
          m.inst.resolve tableIndex slot.index declared := rfl
      rw [hresolve, hresolve']
      cases hresolved : m.inst.resolve tableIndex slot.index declared with
      | error t => rfl
      | ok i => exact hcall (.callIndirect hpop hresolved)
  | invoke name args =>
    simp only [perform, invoke]
    have hname : (m.withLimit limit).findExport name = m.findExport name := rfl
    rw [hname]
    cases hexport : m.findExport name with
    | none => rfl
    | some i =>
      dsimp only
      have hfunction : (m.withLimit limit).inst.function i = m.inst.function i := rfl
      rw [hfunction]
      cases hf : m.inst.function i with
      | error t => rfl
      | ok f =>
        dsimp only
        by_cases hargs : args.map Val.type ≠ f.type.params
        · rw [if_pos hargs, if_pos hargs]
          rfl
        · rw [if_neg hargs, if_neg hargs]
          have hpushed := hcall (.invoke hexport hf (Decidable.not_not.1 hargs))
          have hsame : ((m.withStack (m.stack.pushAll (args.map Val.toCell))).withLimit limit) =
              (m.withLimit limit).withStack ((m.withLimit limit).stack.pushAll (args.map Val.toCell)) := rfl
          rw [hsame] at hpushed
          rw [hpushed]
          cases (m.withStack (m.stack.pushAll (args.map Val.toCell))).call fuel i with
          | none => rfl
          | some called =>
            obtain ⟨answer, m'⟩ := called
            cases answer <;> rfl
  | execute code frame =>
    simp only [perform, execute_withLimit hle h, Option.map_map]
    rfl

end Higher

/-! ## The trap -/

theorem callFunction_refused {i : UInt32} {result : Except ExecError Unit} (h : m.Refuses i)
    (hcall : m.callFunction fuel i = some (result, m')) : ∃ site, result = .error ⟨.callStackExhausted, site⟩ := by
  cases h with
  | entry function code_eq full =>
    have hfailed := (callFunction_exhausted_iff function code_eq fuel).2 full
    rw [hfailed] at hcall
    cases hcall
    exact ⟨none, rfl⟩
  | within function code_eq enter reaches refuses =>
    simp only [callFunction, function, code_eq, callGuest_eq, enter, Option.map_eq_some_iff] at hcall
    obtain ⟨o, hrun, hreturned⟩ := hcall
    obtain ⟨site, hresult⟩ := Config.run_refused reaches refuses hrun
    simp only [returned, hresult] at hreturned
    cases hreturned
    exact ⟨site, rfl⟩

theorem call_refused {i : UInt32} {result : Except ExecError (List Val)} (h : m.Refuses i)
    (hcall : m.call fuel i = some (result, m')) : ∃ site, result = .error ⟨.callStackExhausted, site⟩ := by
  obtain ⟨f, hf⟩ : ∃ f, m.inst.function i = .ok f := by
    cases h with
    | entry function _ _ => exact ⟨_, function⟩
    | within function _ _ _ _ => exact ⟨_, function⟩
  simp only [call, hf, Option.bind_eq_some_iff] at hcall
  obtain ⟨⟨answer, m₁⟩, hcalled, hanswer⟩ := hcall
  obtain ⟨site, rfl⟩ := callFunction_refused h hcalled
  cases hanswer
  exact ⟨site, rfl⟩

/-- the answer of a request for which a function is refused for want of calls -/
theorem perform_exhausted {request : Request} {result : Except ExecError (List Val)} (h : m.Exhausts request)
    (hanswer : m.perform fuel request = some (result, m')) : ∃ site, result = .error ⟨.callStackExhausted, site⟩ := by
  cases h with
  | function enters refuses =>
    cases enters with
    | call => exact call_refused refuses hanswer
    | callIndirect pop resolve =>
      simp only [perform, callIndirect, pop] at hanswer
      exact call_refused refuses (by simpa only [withStack, resolve] using hanswer)
    | invoke name_eq function types =>
      simp only [perform, invoke, name_eq, function, types, ne_eq, not_true_eq_false, if_false,
        Option.bind_eq_some_iff] at hanswer
      obtain ⟨⟨answer, m₁⟩, hcalled, hresult⟩ := hanswer
      obtain ⟨site, rfl⟩ := call_refused refuses hcalled
      cases hresult
      exact ⟨site, rfl⟩
  | sequence reaches refuses =>
    simp only [perform, execute, Option.map_map, Option.map_eq_some_iff] at hanswer
    obtain ⟨o, hrun, hresult⟩ := hanswer
    obtain ⟨site, hfailed⟩ := Config.run_refused reaches refuses hrun
    simp only [Function.comp, hfailed] at hresult
    cases hresult
    exact ⟨site, rfl⟩

end Machine

end WasmCore
