/-
Call depth.

The store counts the guest functions that are active, and the count decides whether one more may be entered. It is changed
where a function is entered or left and where a failure ends all of them at once, within a run and outside of one.
`Machine.call_depth` says that these agree, for any module and any use of its machines: during a run the count is the
number of functions that wait or run (`Config.Counted`), between requests it is zero, and a function is refused exactly if
the count is at its limit, before anything is taken off the stack for it. A machine that was used is therefore the one
that it was built as, apart from what the embedding program can read and replace.
-/
import WasmCore.Proofs.Embedding.Requests

namespace WasmCore

/-! ## Within a run -/

namespace Config

variable {inst : Instance} {entered : Nat} {c : Config}

/-- as many functions are active as had been entered when the run began, and one for each that waits; not too many -/
structure Counted (inst : Instance) (entered : Nat) (c : Config) : Prop where
  depth : c.state.store.depth = entered + c.callers.length
  bound : c.state.store.depth ≤ inst.maxCallDepth

/-- one step, in valid and in invalid code -/
theorem step_counted (c : Config) (h : c.Counted inst entered) :
    (c.step inst).Holds (Counted inst entered) (·.state.store.depth = entered) := by
  have hdepth := h.depth
  have hbound := h.bound
  have hsteps := @step_cases inst c
  generalize c.step inst = p at hsteps ⊢
  cases hsteps with
  | within changes => exact ⟨changes.depth.trans hdepth, Nat.le_trans (Nat.le_of_eq changes.depth) hbound⟩
  | @entered s _ _ _ _ _ _ changes room =>
    refine ⟨?_, room⟩
    show s.store.depth + 1 = entered + (c.callers.length + 1)
    rw [changes.depth, hdepth, Nat.add_assoc]
  | @left s _ _ callers changes waiting =>
    rw [waiting, List.length_cons] at hdepth
    rw [← changes.depth] at hdepth hbound
    have hleft : s.store.depth - 1 = entered + callers.length := by omega
    exact ⟨hleft, Nat.le_trans (Nat.sub_le _ _) hbound⟩
  | @failed s _ _ _ changes =>
    -- all functions that were called within the run are left at once
    show s.store.depth - c.callers.length = entered
    rw [changes.depth, hdepth, Nat.add_sub_cancel]
  | @short s _ callers _ _ _ changes waiting =>
    show s.store.depth - 1 - callers.length = entered
    rw [waiting, List.length_cons] at hdepth
    have hleft : s.store.depth = _ := changes.depth.trans hdepth
    omega
  | ended changes outermost =>
    rw [outermost] at hdepth
    exact changes.depth.trans hdepth

theorem run_counted {fuel : Nat} {o : Outcome} (h : c.Counted inst entered) (hr : run inst fuel c = some o) :
    o.state.store.depth = entered :=
  run_holds step_counted h hr

theorem reaches_counted {c' : Config} (h : c.Counted inst entered) (hr : c.Reaches inst c') :
    c'.Counted inst entered :=
  reaches_holds step_counted h hr

end Config

/-! ## The limit -/

namespace Progress

/-- the step fails for this reason -/
def Traps (t : Trap) : Progress → Prop
  | .running _ => False
  | .ended o => ∃ site, o.result = .error ⟨t, site⟩

theorem Traps.unique {p : Progress} {t u : Trap} (ht : p.Traps t) (hu : p.Traps u) : t = u := by
  cases p with
  | running c => cases ht
  | ended o =>
    obtain ⟨site, ht⟩ := ht
    obtain ⟨site', hu⟩ := hu
    rw [ht] at hu
    cases hu
    rfl

theorem fail_traps_iff {c : Config} {e : ExecError} {t : Trap} : (c.fail e).Traps t ↔ e.trap = t := by
  constructor
  · rintro ⟨site, h⟩
    cases h
    rfl
  · rintro rfl
    exact ⟨e.site, rfl⟩

end Progress

namespace Config

variable {inst : Instance} {c : Config}

theorem call_full {i : UInt32} {f : Function} {code : List Instr} (hf : inst.function i = .ok f)
    (hbody : f.body = .code code) (site : Site) (h : inst.maxCallDepth ≤ c.state.store.depth) :
    c.call inst i site = c.fail (.located .callStackExhausted site) := by
  rw [call_code hf hbody, f.enter_full h]

/-- a function of the guest is refused for want of calls exactly if the count is at its limit -/
theorem call_traps_exhausted_iff {i : UInt32} {f : Function} {code : List Instr} (hf : inst.function i = .ok f)
    (hbody : f.body = .code code) (site : Site) :
    (c.call inst i site).Traps .callStackExhausted ↔ inst.maxCallDepth ≤ c.state.store.depth := by
  constructor
  · intro h
    rw [call_code hf hbody] at h
    cases henter : f.enter inst c.state.store with
    | error t =>
      rw [henter] at h
      have ht : t = .callStackExhausted := Progress.fail_traps_iff.1 h
      rw [ht] at henter
      exact Function.enter_exhausted_iff.1 henter
    | ok entered =>
      rw [henter] at h
      cases h
  · intro h
    rw [call_full hf hbody site h]
    exact Progress.fail_traps_iff.2 rfl

end Config

/-! ## Between requests -/

namespace Machine

variable {m m' : Machine} {fuel : Nat}

theorem execute_depth {code : List Instr} {frame frame' : Frame} {result : Except ExecError Unit}
    (hd : m.store.depth ≤ m.inst.maxCallDepth) (h : m.execute fuel code frame = some (result, frame', m')) :
    m'.store.depth = m.store.depth := by
  simp only [execute, Option.map_eq_some_iff] at h
  obtain ⟨o, hrun, heq⟩ := h
  cases heq
  have hstart : Config.Counted m.inst m.store.depth (.start ⟨m.store, frame⟩ code) := ⟨rfl, hd⟩
  exact Config.run_counted hstart hrun

theorem returned_depth (m : Machine) (height arity : Nat) (o : Outcome) :
    (m.returned height arity o).2.store.depth = o.state.store.depth - 1 := by
  unfold returned
  cases o.result with
  | error e => rfl
  | ok _ =>
    dsimp only
    cases OperandStack.unwind _ height arity <;> rfl

theorem callFunction_depth {i : UInt32} {result : Except ExecError Unit}
    (h : m.callFunction fuel i = some (result, m')) : m'.store.depth = m.store.depth := by
  rcases callFunction_cases h with ⟨stack, rfl⟩ | ⟨f, code, frame, store, o, -, -, henter, hrun, hreturned⟩
  · rfl
  · obtain ⟨hlt, stack, -, rfl⟩ := Function.enter_ok henter
    have hstart : Config.Counted m.inst (m.store.depth + 1)
        (.start ⟨{ m.store with stack, depth := m.store.depth + 1 }, frame⟩ code) := ⟨rfl, hlt⟩
    have hdepth := m.returned_depth stack.height f.type.results.length o
    rw [hreturned, Config.run_counted hstart hrun] at hdepth
    exact hdepth

theorem perform_depth {request : Request} {result : Except ExecError (List Val)}
    (hd : m.store.depth ≤ m.inst.maxCallDepth) (h : m.perform fuel request = some (result, m')) :
    m'.store.depth = m.store.depth := by
  rcases perform_serves h with hserves | ⟨code, frame, answer, frame', hexec⟩
  · cases hserves with
    | stack stack => rfl
    | @function before _ _ m₁ hcall after =>
      have hdepth : m₁.store.depth = (m.withStack before).store.depth := callFunction_depth hcall
      exact hdepth
  · exact execute_depth hd hexec

/-- `m` is the machine `m₀`, except for what the embedding program can read and replace -/
structure SameBuild (m₀ m : Machine) : Prop where
  inst : m.inst = { m₀.inst with tables := m.inst.tables }
  exports : m.exports = m₀.exports
  depth : m.store.depth = 0

theorem instantiate_built {mod : Module} {limits : Limits} (h : instantiate mod limits = .ok m) :
    m.SameBuild m ∧ m.inst.maxCallDepth = limits.maxCallDepth := by
  simp only [instantiate, bind, Except.bind] at h
  split at h
  · cases h
  · cases h
    exact ⟨⟨rfl, rfl, rfl⟩, rfl⟩

theorem SameBuild.maxCallDepth {m₀ : Machine} (h : m₀.SameBuild m) : m.inst.maxCallDepth = m₀.inst.maxCallDepth := by
  rw [h.inst]

theorem SameBuild.use {m₀ : Machine} (h : m₀.SameBuild m) (hu : m.Use m') : m₀.SameBuild m' := by
  cases hu with
  | request hp =>
    have hevolves := perform_evolves hp
    have hle : m.store.depth ≤ m.inst.maxCallDepth := by
      rw [h.depth]
      exact Nat.zero_le _
    refine ⟨?_, hevolves.exports.trans h.exports, (perform_depth hle hp).trans h.depth⟩
    rw [hevolves.inst]
    exact h.inst
  | setStack stack => exact ⟨h.inst, h.exports, h.depth⟩
  | writeMemory size maxPages => exact ⟨h.inst, h.exports, h.depth⟩
  | growMemory hg => exact ⟨h.inst, h.exports, h.depth⟩
  | setGlobal hg =>
    rw [setGlobal_eq hg]
    exact ⟨h.inst, h.exports, h.depth⟩
  | @setTable i t =>
    have hinst := h.inst
    refine ⟨?_, h.exports, h.depth⟩
    show { m.inst with tables := m.inst.tables.setIfInBounds i.toNat t } = _
    rw [hinst]
    rfl

theorem SameBuild.later {m₀ : Machine} (h : m₀.SameBuild m) (hl : m.Later m') : m₀.SameBuild m' := by
  induction hl with
  | refl => exact h
  | tail _ hu ih => exact ih.use hu

/-! ## What a request runs -/

/-- The request enters the function of an index, on the machine as it is by then: the arguments of an invocation are on
the stack, and the slot number of an indirect call is not. -/
inductive Enters (m : Machine) : Request → Machine → UInt32 → Prop
  | invoke {name : String} {args : List Val} {i : UInt32} {f : Function} (name_eq : m.findExport name = some i)
      (function : m.inst.function i = .ok f) (types : args.map Val.type = f.type.params) :
      Enters m (.invoke name args) (m.withStack (m.stack.pushAll (args.map Val.toCell))) i
  | call {i : UInt32} : Enters m (.call i) m i
  | callIndirect {tableIndex : UInt32} {declared : FuncType} {slot : Cell} {stack : OperandStack} {i : UInt32}
      (pop : m.stack.pop = .ok (slot, stack)) (resolve : m.inst.resolve tableIndex slot.index declared = .ok i) :
      Enters m (.callIndirect tableIndex declared) (m.withStack stack) i

/-- the run that answers the request comes through the configuration, after so many functions were entered -/
inductive Visits (m : Machine) : Request → Nat → Config → Prop
  | sequence {code : List Instr} {frame : Frame} {c : Config}
      (reaches : Config.Reaches m.inst (.start ⟨m.store, frame⟩ code) c) : Visits m (.execute code frame) 0 c
  | body {request : Request} {entry : Machine} {i : UInt32} {f : Function} {code : List Instr} {frame : Frame}
      {store : Store} {c : Config} (enters : m.Enters request entry i) (function : m.inst.function i = .ok f)
      (code_eq : f.body = .code code) (enter : f.enter m.inst entry.store = .ok (frame, store))
      (reaches : Config.Reaches m.inst (.start ⟨store, frame⟩ code) c) : Visits m request 1 c

theorem Enters.same {request : Request} {entry : Machine} {i : UInt32} (h : m.Enters request entry i) :
    entry.inst = m.inst ∧ entry.store.depth = m.store.depth := by
  cases h <;> exact ⟨rfl, rfl⟩

theorem Visits.counted {request : Request} {entered : Nat} {c : Config} (h : m.Visits request entered c)
    (hd : m.store.depth = 0) : c.Counted m.inst entered := by
  cases h with
  | @sequence code frame _ reaches =>
    have hstart : Config.Counted m.inst 0 (.start ⟨m.store, frame⟩ code) := ⟨hd, hd ▸ Nat.zero_le _⟩
    exact Config.reaches_counted hstart reaches
  | @body _ entry _ f code frame store _ enters function code_eq enter reaches =>
    obtain ⟨hlt, stack, -, rfl⟩ := Function.enter_ok enter
    have hentry : entry.store.depth = 0 := enters.same.2.trans hd
    have hstart : Config.Counted m.inst 1
        (.start ⟨{ entry.store with stack, depth := entry.store.depth + 1 }, frame⟩ code) := by
      refine ⟨?_, hlt⟩
      show entry.store.depth + 1 = 1
      rw [hentry]
    exact Config.reaches_counted hstart reaches

/-- A function of the guest that is called at the top is refused for want of calls only by itself. Whatever fails within
its run for want of calls has a site. -/
theorem callFunction_exhausted_iff {i : UInt32} {f : Function} {code : List Instr} (hf : m.inst.function i = .ok f)
    (hbody : f.body = .code code) (fuel : Nat) :
    m.callFunction fuel i = m.failed .callStackExhausted ↔ m.inst.maxCallDepth ≤ m.store.depth := by
  have hcall : m.callFunction fuel i = m.callGuest fuel f code := by
    unfold callFunction
    simp only [hf, hbody]
  rw [hcall, callGuest_eq]
  constructor
  · intro h
    cases henter : f.enter m.inst m.store with
    | error t =>
      rw [henter] at h
      cases h
      exact Function.enter_exhausted_iff.1 henter
    | ok entered =>
      obtain ⟨frame, store⟩ := entered
      simp only [henter, failed, Option.map_eq_some_iff] at h
      obtain ⟨o, hrun, hreturned⟩ := h
      obtain ⟨needed, depth, htrap⟩ := returned_sited (Config.run_sited hrun) hreturned rfl
      cases htrap
  · intro h
    rw [f.enter_full h]

/-- **Calls are counted exactly.** After any uses of a machine, none of its functions is active, and it differs from the
one that was built only in its stack, memory, globals and tables. In whatever it is requested to run, the count is the
number of functions that were entered and have not been left, it is never above the limit, and a function of the guest is
refused for want of calls if and only if the count is at the limit; then the stack is left as it was found. -/
theorem call_depth {mod : Module} {limits : Limits} {m₀ m : Machine} (h : instantiate mod limits = .ok m₀)
    (hl : m₀.Later m) :
    m.store.depth = 0 ∧
    m = { m₀ with inst.tables := m.inst.tables, store := ⟨m.stack, m.memory, m.store.globals, m₀.store.depth⟩ } ∧
    (∀ request entry i f code fuel, m.Enters request entry i → m.inst.function i = .ok f → f.body = .code code →
      (entry.callFunction fuel i = entry.failed .callStackExhausted ↔ limits.maxCallDepth = 0)) ∧
    ∀ request entered c, m.Visits request entered c →
      c.state.store.depth = entered + c.callers.length ∧ c.state.store.depth ≤ limits.maxCallDepth ∧
      ∀ i f code c' site, c.Calls m.inst i c' site → m.inst.function i = .ok f → f.body = .code code →
        ((c.step m.inst).Traps .callStackExhausted ↔ entered + c.callers.length = limits.maxCallDepth) ∧
        (entered + c.callers.length = limits.maxCallDepth →
          c.step m.inst = c'.fail (.located .callStackExhausted site)) := by
  obtain ⟨hbuilt₀, hlimit⟩ := instantiate_built h
  have hbuilt := hbuilt₀.later hl
  have hmax : m.inst.maxCallDepth = limits.maxCallDepth := hbuilt.maxCallDepth.trans hlimit
  refine ⟨hbuilt.depth, ?_, ?_, ?_⟩
  · rw [hbuilt₀.depth, ← hbuilt.depth, ← hbuilt.exports, ← hbuilt.inst]
    rfl
  · intro request entry i f code fuel henters hf hbody
    obtain ⟨hinst, hdepth⟩ := henters.same
    rw [callFunction_exhausted_iff (by rw [hinst]; exact hf) hbody, hinst, hmax, hdepth, hbuilt.depth]
    exact Nat.le_zero
  · intro request entered c hvisits
    have hcounted := hvisits.counted hbuilt.depth
    have hbound := hcounted.bound
    rw [hmax] at hbound
    refine ⟨hcounted.depth, hbound, ?_⟩
    intro i f code c' site hcalls hf hbody
    have hfull : m.inst.maxCallDepth ≤ c'.state.store.depth ↔ entered + c.callers.length = limits.maxCallDepth := by
      rw [hcalls.depth, hmax, hcounted.depth]
      have hle := hcounted.depth ▸ hbound
      omega
    rw [hcalls.step]
    refine ⟨(Config.call_traps_exhausted_iff hf hbody site).trans hfull, ?_⟩
    intro heq
    exact Config.call_full hf hbody site (hfull.2 heq)

/-- a function that calls itself -/
def recursive : Module :=
  { Module.empty with pages := 0, functions := #[.guest "f" ⟨[], []⟩ [] [.call 0]] }

/-- its machine, where two calls may be active -/
def recursing : Machine :=
  ⟨⟨#[], recursive.functions, #[], 2⟩, #[], ⟨.empty 1, .new 0 none, #[], 0⟩⟩

/-- when the second of them is to make the third -/
def recursed (control : Control) : Config :=
  ⟨⟨{ recursing.store with depth := 2 }, ⟨#[]⟩⟩, control, [⟨⟨#[]⟩, ⟨[], ⟨[.call 0], []⟩⟩, 0, 0⟩]⟩

/-- The third call is refused. The machine is then as before, so a later request comes to the same point. -/
theorem call_depth_recursive :
    instantiate recursive ⟨none, 1, 2⟩ = .ok recursing ∧
    recursing.perform 5 (.call 0) = some (.error (.located .callStackExhausted ⟨0x10, 0⟩), recursing) ∧
    recursing.Visits (.call 0) 1 (recursed (.start [.call 0])) ∧
    (recursed (.start [.call 0])).step recursing.inst =
      (recursed ⟨[], ⟨[.call 0], []⟩⟩).fail (.located .callStackExhausted ⟨0x10, 0⟩) := by
  have hm : instantiate recursive ⟨none, 1, 2⟩ = .ok recursing := rfl
  have hcall : recursing.perform 5 (.call 0) =
      some (.error (.located .callStackExhausted ⟨0x10, 0⟩), recursing) := rfl
  have hvisits : recursing.Visits (.call 0) 1 (recursed (.start [.call 0])) :=
    .body .call rfl rfl rfl (.single rfl)
  have hcalls : (recursed (.start [.call 0])).Calls recursing.inst 0 (recursed ⟨[], ⟨[.call 0], []⟩⟩) ⟨0x10, 0⟩ :=
    @Config.Calls.mk _ _ (.call 0) ⟨[], ⟨[.call 0], []⟩⟩ 0 _ rfl rfl
  obtain ⟨-, -, -, hvisited⟩ := call_depth hm (.single (.request hcall))
  obtain ⟨-, -, hexact⟩ := hvisited _ _ _ hvisits
  exact ⟨hm, hcall, hvisits, (hexact 0 _ _ _ _ hcalls rfl rfl).2 rfl⟩

end Machine

end WasmCore
