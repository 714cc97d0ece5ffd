/-
Isolation of callers.

All functions of a machine share one stack, and nothing guards the cells that a caller has on it. `Machine.callers_isolated`
says that valid code does not need a guard, if it calls host functions under their own signatures: whether it is invoked by an
embedding program or called within a run, a function sees its arguments and nothing of the stack below them. For a call within
a run this comes from two facts. The call alone, with nothing to do afterwards and nobody waiting, goes the same way over more
cells (`Config.loneCall_over`); and it has the same ending in any surroundings, which the evaluator knows nothing of. What a host
function under another signature does, and what a call within a run leaves on the stack if it fails, is in
`Machine.callers_not_isolated`.
-/
import WasmCore.Proofs.Isolation.Invocation
import WasmCore.Proofs.Structured.CallPaths
import WasmCore.Proofs.Typing.FailedCalls

namespace WasmCore

variable {base : List Cell} {inst : Instance} {S : Scope}

/-! ## Calls within a run -/

/-- what a run does when a call has come back with this result -/
def Config.comeBack (c : Config) : Except ExecError Unit → Progress
  | .ok () => .running c
  | .error e => c.fail e

/-- the ending of a call says no more than its result, and leaves the frame of the caller -/
theorem Task.Ends.call {site : Site} {i : UInt32} {s : State} {ending : Ending}
    (h : Task.Ends inst (.call site i) s ending) :
    ending.2.frame = s.frame ∧
      ∀ k callers, ending.resume k callers = Config.comeBack ⟨ending.2, k, callers⟩ ending.1.result := by
  obtain ⟨fuel, he⟩ := h
  cases fuel with
  | zero => cases he
  | succ fuel =>
    simp only [Task.eval, Task.evalWith] at he
    split at he
    · cases he
      exact ⟨rfl, fun _ _ => rfl⟩
    · split at he
      · split at he
        · cases he
          exact ⟨rfl, fun _ _ => rfl⟩
        · cases he
          exact ⟨rfl, fun _ _ => rfl⟩
      · split at he
        · cases he
          exact ⟨rfl, fun _ _ => rfl⟩
        · split at he
          · cases he
            exact ⟨rfl, fun _ _ => rfl⟩
          · obtain ⟨⟨c, t⟩, -, rfl⟩ := Option.map_eq_some_iff.1 he
            simp only [Ending.leaveFunction]
            cases c with
            | trap e => exact ⟨rfl, fun _ _ => rfl⟩
            | normal | branch | ret =>
              dsimp only
              split <;> exact ⟨rfl, fun _ _ => rfl⟩

/-- the call, with nothing to do afterwards and nobody waiting -/
def Config.loneCall (inst : Instance) (s : State) (i : UInt32) (site : Site) : Progress :=
  Config.call inst ⟨s, .start [], []⟩ i site

theorem Config.loneCall_ends_iff {s : State} {i : UInt32} {site : Site} {o : Outcome} :
    (∃ fuel, (loneCall inst s i site).run inst fuel = some o) ↔
      ∃ ending, Task.Ends inst (.call site i) s ending ∧ ⟨ending.1.result, ending.2⟩ = o := by
  have hstart : Task.Starts inst (.start []) [] (.call site i) s (loneCall inst s i site) := .call
  have hafter (ending : Ending) : (∃ fuel, (ending.resume (.start []) []).run inst fuel = some o) ↔
      ⟨ending.1.result, ending.2⟩ = o :=
    (ending.resume_outermost []).ended_iff
  have hends := hstart.ends_iff (o := o)
  simp only [Task.after, hafter] at hends
  exact hends

theorem Progress.run_over {p q : Progress} {raised : Trap → Prop} {final : List ValType} (hi : inst.Fits S)
    (hp : p.Typed raised S [] final) (h : p.Over base q) (fuel : Nat) :
    Option.Rel (Outcome.Over base) (p.run inst fuel) (q.run inst fuel) := by
  cases h with
  | running h => exact Config.run_over hi hp h fuel
  | ended h => exact .some h

namespace Config

variable {s : State} {i : UInt32} {type : FuncType} {args : List Cell}

/-- the call over its arguments only is well typed -/
theorem loneCall_typed (hi : inst.Fits S) (hglobals : s.store.globals.map Global.kind = S.globals)
    (htype : S.functions[i.toNat]? = some type) (hstack : s.store.stack.cells = args) (hargs : Cells args type.ins)
    (site : Site) : (loneCall inst s i site).Typed (fun _ => True) S [] type.outs := by
  have hopen : OpenTyped False ⟨S, s.frame.types, [], type.outs⟩ 0 [] (.start []) [type.outs] (type.outs ++ []) [] := by
    rw [List.append_nil]
    exact .body .nil False.elim
  have hstate : s.Typed ⟨S, s.frame.types, [], type.outs⟩ [] (type.ins ++ ([] ++ ([] ++ []))) := by
    refine ⟨⟨args, ?_, ?_⟩, rfl, hglobals⟩
    · rw [hstack, List.append_nil]
    · simpa using hargs
  exact call_typed hi site rfl hopen .outermost htype hstate fun _ _ _ _ _ _ => trivial

theorem loneCall_over (hi : inst.Fits S) (htype : S.functions[i.toNat]? = some type) {stack bare : OperandStack}
    (hbare : bare.cells = args) (hargs : Cells args type.ins) {rest : List Cell} (hstack : stack.cells = args ++ rest)
    (site : Site) :
    (loneCall inst { s with store.stack := bare } i site).Over rest
      (loneCall inst { s with store.stack := stack } i site) := by
  have hover : Over rest ⟨{ s with store.stack := bare }, .start [], []⟩ ⟨{ s with store.stack := stack }, .start [], []⟩ := by
    refine ⟨⟨⟨?_, rfl, rfl, rfl⟩, rfl⟩, rfl, rfl⟩
    show stack.cells = bare.cells ++ rest
    rw [hstack, hbare]
  apply call_over hi hover htype
  refine Nat.le_of_eq (Eq.symm ?_)
  show bare.height = type.params.length
  rw [bare.height_eq, hbare, hargs.length_eq, FuncType.length_ins]

/-- What a call of a function does is independent of what lies below the cells `args`, and of who waits for it: it never
comes back from there, or it comes back with one result, and with one state apart from those cells. -/
def CallIsolated (inst : Instance) (s : State) (i : UInt32) (args : List Cell) (site : Site) : Prop :=
  (∀ (stack : OperandStack) rest k callers, stack.cells = args ++ rest →
    ∀ fuel, (call inst ⟨{ s with store.stack := stack }, k, callers⟩ i site).run inst fuel = none) ∨
  ∃ (result : Except ExecError Unit) (t : State), t.frame = s.frame ∧
    ∀ (stack : OperandStack) rest k callers, stack.cells = args ++ rest →
      ∃ after : OperandStack, after.cells = t.store.stack.cells ++ rest ∧
        (call inst ⟨{ s with store.stack := stack }, k, callers⟩ i site).Leads inst
          (comeBack ⟨{ t with store.stack := after }, k, callers⟩ result)

/-- **A call within a run of valid code is isolated from what lies below its arguments** -/
theorem call_isolated (hi : inst.Fits S) (hglobals : s.store.globals.map Global.kind = S.globals)
    (htype : S.functions[i.toNat]? = some type) (hargs : Cells args type.ins) (site : Site) :
    CallIsolated inst s i args site := by
  obtain ⟨bare, hbare⟩ : ∃ bare : OperandStack, bare.cells = args := ⟨(OperandStack.empty 1).withCells args, rfl⟩
  have htyped : (loneCall inst { s with store.stack := bare } i site).Typed (fun _ => True) S [] type.outs :=
    loneCall_typed (s := { s with store.stack := bare }) hi hglobals htype hbare hargs site
  have hruns {stack : OperandStack} {rest : List Cell} (hstack : stack.cells = args ++ rest) :=
    Progress.run_over hi htyped (loneCall_over hi htype hbare hargs hstack site)
  -- the call alone, over its arguments only, decides for all surroundings whether it comes back
  by_cases hend : ∃ fuel o, (loneCall inst { s with store.stack := bare } i site).run inst fuel = some o
  · obtain ⟨fuel, o, ho⟩ := hend
    obtain ⟨ending, hending, rfl⟩ := loneCall_ends_iff.1 ⟨fuel, ho⟩
    refine .inr ⟨ending.1.result, ending.2, hending.call.1, ?_⟩
    intro stack rest k callers hstack
    -- over `rest` the call alone ends alike, and so does the call in its surroundings
    have hrel := hruns hstack fuel
    rw [ho] at hrel
    generalize hrun : (loneCall inst { s with store.stack := stack } i site).run inst fuel = q at hrel
    cases hrel with
    | @some _ o hover =>
      obtain ⟨ending', hending', rfl⟩ := loneCall_ends_iff.1 ⟨fuel, hrun⟩
      refine ⟨ending'.2.store.stack, hover.state.store.stack, ?_⟩
      have hresume := hending'.call.2 k callers
      obtain ⟨fuel', he⟩ := hending'
      have hleads : Progress.Leads inst _ (ending'.resume k callers) := Task.eval_simulated he k callers _ .call
      have hresult : ending'.1.result = ending.1.result := hover.result
      have hstate : ending'.2 = { ending.2 with store.stack := ending'.2.store.stack } := hover.state.eq_withStack
      rw [hresume, hresult, hstate] at hleads
      exact hleads
  · refine .inl ?_
    intro stack rest k callers hstack fuel
    cases hrun : (call inst ⟨{ s with store.stack := stack }, k, callers⟩ i site).run inst fuel with
    | none => rfl
    | some o =>
      have hstart : Task.Starts inst k callers (.call site i) { s with store.stack := stack }
          (call inst ⟨{ s with store.stack := stack }, k, callers⟩ i site) := .call
      obtain ⟨ending, hending, -⟩ := hstart.ends_iff.1 ⟨fuel, hrun⟩
      obtain ⟨fuel', hlone⟩ := loneCall_ends_iff.2 ⟨ending, hending, rfl⟩
      have hrel := hruns hstack fuel'
      rw [hlone] at hrel
      generalize hq : (loneCall inst { s with store.stack := bare } i site).run inst fuel' = q at hrel
      cases hrel with
      | some _ => exact absurd ⟨fuel', _, hq⟩ hend

end Config

/-! ## Machines of valid code -/

namespace Machine

/-- The machine runs the code of the module, whatever its memory, its globals and its tables have become; the tables hold
functions that exist. -/
structure RunsCode (mod : Module) (m : Machine) : Prop where
  types : m.inst.types = mod.types
  functions : m.inst.functions = mod.functions
  exports : m.exports = mod.exports
  globals : m.store.globals.map Global.kind = mod.globals.map Global.kind
  tables : m.inst.tables.size = mod.tables.size
  elements : ∀ t ∈ m.inst.tables, ∀ i, some i ∈ t.elements → i.toNat < mod.functions.size

variable {mod : Module} {m : Machine}

/-- the tables of a machine might as well have been those of the module -/
theorem RunsCode.of (h : m.RunsCode mod) : m.Of { mod with tables := m.inst.tables } m.stack.cells :=
  ⟨h.types, h.functions, rfl, h.exports, h.globals, rfl⟩

theorem RunsCode.valid (h : m.RunsCode mod) (hv : mod.Valid) : Module.Valid { mod with tables := m.inst.tables } := by
  have hscope : Module.scope { mod with tables := m.inst.tables } = mod.scope := by
    simp only [Module.scope, h.tables]
  refine ⟨?_, hv.exports, h.elements⟩
  rw [hscope]
  exact hv.functions

theorem RunsCode.fits (h : m.RunsCode mod) (hv : mod.Valid) : m.inst.Fits mod.scope where
  types := h.types
  signatures := by rw [h.functions]; rfl
  tables := h.tables
  valid := by rw [h.functions]; exact hv.functions
  elements := by rw [h.functions]; exact h.elements

theorem instantiate_runsCode {mod : Module} {limits : Limits} {m : Machine} (hv : mod.Valid)
    (h : instantiate mod limits = .ok m) : m.RunsCode mod := by
  have hof := instantiate_of h
  refine ⟨hof.types, hof.functions, hof.exports, hof.globals, by rw [hof.tables], ?_⟩
  rw [hof.tables]
  exact hv.tables

/-- **Callers are isolated from what they call.** On a machine that runs the code of a valid module, whose host functions stand
under their own signatures, two invocations with different stacks answer alike after as many steps, and leave the same machine
behind, except that each leaves its own stack as it was. A call within a run never reads or changes a cell below its
arguments. -/
theorem callers_isolated (hv : mod.Valid) (hm : m.RunsCode mod) :
    (∀ name args fuel (s₁ s₂ : OperandStack) result m₁, (m.withStack s₁).invoke fuel name args = some (result, m₁) →
      m₁.stack.cells = s₁.cells ∧
        ∃ s, s.cells = s₂.cells ∧ (m.withStack s₂).invoke fuel name args = some (result, m₁.withStack s)) ∧
    ∀ s i f args site, s.store.globals.map Global.kind = mod.globals.map Global.kind →
      mod.functions[i.toNat]? = some f → args.length = f.type.params.length →
        Config.CallIsolated m.inst s i args site := by
  refine ⟨fun name args fuel s₁ s₂ result m₁ h => invoke_isolated (hm.valid hv) hm.of h, ?_⟩
  intro s i f args site hglobals hf hargs
  have htype : mod.scope.functions[i.toNat]? = some f.type := by
    show (mod.functions.map Function.type)[i.toNat]? = some f.type
    rw [Array.getElem?_map, hf, Option.map_some]
  exact Config.call_isolated (hm.fits hv) hglobals htype (cells_iff_length.2 (hargs.trans f.type.length_ins.symm)) site

/-- The sum up to 3, over two cells and over none, and called within a run with the two cells under its argument. -/
theorem callers_isolated_summing : ∃ (m m₁ m₂ : Machine) (result : Except ExecError Unit) (t : State),
    instantiate summing .default = .ok m ∧
    (m.withStack ((OperandStack.empty 1).pushAll [5, 7])).invoke 80 "sum" [.i32 3] = some (.ok [.i32 6], m₁) ∧
    m₁.stack.cells = [7, 5] ∧
    (m.withStack (.empty 1)).invoke 80 "sum" [.i32 3] = some (.ok [.i32 6], m₂) ∧ m₂.stack.cells = [] ∧
    ∀ k callers, ∃ after : OperandStack, after.cells = t.store.stack.cells ++ [7, 5] ∧
      (Config.call m.inst ⟨⟨{ m.store with stack := (OperandStack.empty 1).pushAll [5, 7, 3] }, .empty⟩, k, callers⟩ 0
        ⟨0x10, 0⟩).Leads m.inst (Config.comeBack ⟨{ t with store.stack := after }, k, callers⟩ result) := by
  obtain ⟨m, hm, hfirst, hback⟩ : ∃ m : Machine, instantiate summing .default = .ok m ∧
      ((m.withStack ((OperandStack.empty 1).pushAll [5, 7])).invoke 80 "sum" [.i32 3]).map Prod.fst =
        some (.ok [.i32 6]) ∧
      ((Config.call m.inst ⟨⟨{ m.store with stack := (OperandStack.empty 1).pushAll [3] }, .empty⟩, .start [], []⟩ 0
        ⟨0x10, 0⟩).run m.inst 80).isSome := ⟨_, rfl, by decide, by decide⟩
  have hruns := instantiate_runsCode summing_valid hm
  obtain ⟨hinvoke, hcall⟩ := callers_isolated summing_valid hruns
  obtain ⟨⟨r, m₁⟩, hfirst, rfl⟩ := Option.map_eq_some_iff.1 hfirst
  obtain ⟨hcells, s, hs, hsecond⟩ := hinvoke _ _ _ _ (.empty 1) _ _ hfirst
  rcases hcall ⟨m.store, .empty⟩ 0 _ [3] ⟨0x10, 0⟩ hruns.globals rfl rfl with hnever | ⟨result, t, -, hcomes⟩
  · rw [hnever ((OperandStack.empty 1).pushAll [3]) [] _ _ rfl] at hback
    cases hback
  · exact ⟨m, m₁, m₁.withStack s, result, t, hm, hfirst, hcells, hsecond, hs, fun k callers => hcomes _ [7, 5] k callers rfl⟩

/-- **Where callers are not isolated.** All code is valid, and a host function under another signature answers with the cell that
it finds below and takes it away. A call within a run that fails leaves a cell of its own over those below: the function that was
called at the top had its argument 5 over the cell 7, and called another one. -/
theorem callers_not_isolated :
    ((∀ f ∈ disguised.functions, f.ValidCode disguised.scope) ∧
      instantiate disguised ⟨none, 4, 2⟩ = .ok (disguisedWith []) ∧
      (disguisedWith [5]).invoke 3 "h" [] = some (.ok [.i32 5], disguisedWith []) ∧
      (disguisedWith [7]).invoke 3 "h" [] = some (.ok [.i32 7], disguisedWith [])) ∧
    leaking.Valid ∧ instantiate leaking ⟨none, 4, 2⟩ = .ok (leakingWith []) ∧
    (leakingWith [5, 7]).call 10 1 = some (.error (.located .unreachable ⟨0x00, 1⟩), leakingWith [1, 7]) :=
  ⟨⟨disguised_validCode, rfl, rfl, rfl⟩, leaking_valid, rfl, rfl⟩

end Machine

end WasmCore
