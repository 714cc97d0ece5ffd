/-
Calls that fail.

`Machine.call` and `Machine.callIndirect` find the arguments on the operand stack and, unlike `Machine.invoke`, do not cut it
when they fail. What a failed call of a module with valid bodies leaves there is its arguments' place: a call that is refused
leaves everything as it is, a host function that fails has taken its arguments, and a body that traps leaves whatever its
functions had on the stack at that point (`Machine.CallFails`). What was underneath is still there, so cutting the stack to
its height, as `invoke` does, removes the rest (`Machine.failed_calls`). Until then a later call takes the rest for its
arguments (`Machine.failed_call_leaves_cells`).
-/
import WasmCore.Proofs.Typing.Embedded

namespace WasmCore.Machine

variable {mod : Module} {m m' : Machine} {fuel : Nat} {i : UInt32}

/-- How a call of a function fails: it has taken the cells `args` off the stack, and it has left the cells `left` in their
place. -/
inductive CallFails (fuel : Nat) (m : Machine) (i : UInt32) (e : ExecError) (m' : Machine) : (args left : List Cell) → Prop
  /-- there is no such function, or it is short of arguments, or as many functions are active as there may be -/
  | refused (same : m' = m) : CallFails fuel m i e m' [] []
  | host {f : Function} {h : HostFunc} {args : List Cell} (function : m.inst.function i = .ok f) (body : f.body = .host h)
      (length : args.length = f.type.params.length) : CallFails fuel m i e m' args []
  | trapped {f : Function} {code : List Instr} {args left : List Cell} {frame : Frame} {store : Store} {o : Outcome}
      (function : m.inst.function i = .ok f) (body : f.body = .code code) (length : args.length = f.type.params.length)
      (enter : f.enter m.inst m.store = .ok (frame, store))
      (run : Config.run m.inst fuel (.start ⟨store, frame⟩ code) = some o) (result : o.result = .error e)
      (stack : m'.stack = o.state.store.stack) : CallFails fuel m i e m' args left

/-- the call fails, and leaves the cells that were under its arguments -/
def FailsOver (fuel : Nat) (m : Machine) (i : UInt32) (e : ExecError) (m' : Machine) : Prop :=
  ∃ args left base, m.CallFails fuel i e m' args left ∧ m.stack.cells = args ++ base ∧ m'.stack.cells = left ++ base ∧
    (m'.stack.truncate base.length).cells = base

theorem CallFails.over {e : ExecError} {args left base : List Cell} (h : m.CallFails fuel i e m' args left)
    (before : m.stack.cells = args ++ base) (after : m'.stack.cells = left ++ base) : m.FailsOver fuel i e m' :=
  ⟨args, left, base, h, before, after, OperandStack.cells_truncate after⟩

theorem FailsOver.refused (fuel : Nat) (m : Machine) (i : UInt32) (e : ExecError) : m.FailsOver fuel i e m :=
  CallFails.over (.refused rfl) rfl rfl

/-- the call has put the results in the place of the arguments, or it has failed -/
def EndsOver (fuel : Nat) (m : Machine) (i : UInt32) (f : Function) : Except ExecError Unit → Machine → Prop
  | .ok (), m' => ∃ args base results, args.length = f.type.params.length ∧ results.length = f.type.results.length ∧
      m.stack.cells = args ++ base ∧ m'.stack.cells = results ++ base
  | .error e, m' => m.FailsOver fuel i e m'

namespace From

/-- a host function of its own signature -/
theorem host_ends {f : Function} {h : HostFunc} (hf : m.inst.function i = .ok f) (hbody : f.body = .host h)
    (hty : h.type = f.type) {result : Except Trap Unit} {stack : OperandStack} (hcall : h.call m.stack = (result, stack)) :
    m.EndsOver fuel i f (result.mapError .unlocated) (m.withStack stack) := by
  rcases Nat.lt_or_ge m.stack.height h.type.params.length with hfew | hargs
  · rw [h.call_short hfew] at hcall
    cases hcall
    exact .refused fuel m i _
  · have hlen : (m.stack.cells.take h.type.params.length).length = h.type.params.length := by
      rw [List.length_take, ← m.stack.height_eq]
      exact Nat.min_eq_left hargs
    have hsplit := (List.take_append_drop h.type.params.length m.stack.cells).symm
    have hends := h.call_typed False hsplit hlen
    rw [hcall] at hends
    cases result with
    | ok _ =>
      obtain ⟨results, hcells, hresults⟩ := hends
      refine ⟨_, _, results, hty ▸ hlen, ?_, hsplit, hcells⟩
      rw [hresults.length_eq, FuncType.length_outs, hty]
    | error t => exact CallFails.over (.host hf hbody (hty ▸ hlen)) hsplit hends.1

/-- a guest function, whose run has come to an end -/
theorem guest_ends (hv : mod.ValidBodies) (hm : m.From mod) {f : Function} {code : List Instr}
    (hf : m.inst.function i = .ok f) (hbody : f.body = .code code) {frame : Frame} {store : Store}
    (henter : f.enter m.inst m.store = .ok (frame, store)) {o : Outcome}
    (hrun : Config.run m.inst fuel (.start ⟨store, frame⟩ code) = some o) {result : Except ExecError Unit}
    (h : m.returned store.stack.height f.type.results.length o = (result, m')) : m.EndsOver fuel i f result m' := by
  obtain ⟨⟨top, htop⟩, hresults⟩ := run_keeps hv hm hf hbody henter hrun
  obtain ⟨-, stack, hstack, hstore⟩ := Function.enter_ok henter
  obtain ⟨args, hargs, hcells⟩ := Frame.enter_cells hstack
  have hbefore : m.stack.cells = args ++ store.stack.cells := by
    rw [hstore]
    exact hcells
  unfold returned at h
  cases hresult : o.result with
  | error e =>
    rw [hresult] at h
    cases h
    exact CallFails.over (.trapped hf hbody hargs henter hrun hresult rfl) hbefore htop.symm
  | ok _ =>
    have hkeep : f.type.results.length ≤ top.length := by
      have hle := hresults hresult
      rw [store.stack.height_eq, o.state.store.stack.height_eq, ← htop, List.length_append] at hle
      omega
    obtain ⟨cut, hcut, hafter⟩ := OperandStack.unwind_over htop.symm hkeep
    rw [← store.stack.height_eq] at hcut
    simp only [hresult, Machine.stack, hcut] at h
    cases h
    exact ⟨args, _, _, hargs, List.length_take_of_le hkeep, hbefore, hafter⟩

theorem callFunction_ends (hv : mod.ValidBodies) (hm : m.From mod) {f : Function} (hf : m.inst.function i = .ok f)
    {result : Except ExecError Unit} (h : m.callFunction fuel i = some (result, m')) : m.EndsOver fuel i f result m' := by
  have hvalid := hv f (hm.mem_of_function hf)
  cases hbody : f.body with
  | host host =>
    simp only [callFunction, hf, hbody] at h
    generalize hcall : host.call m.stack = called at h
    cases h
    exact host_ends hf hbody (hvalid.host host hbody) hcall
  | code code =>
    simp only [callFunction, hf, hbody, callGuest_eq] at h
    cases henter : f.enter m.inst m.store with
    | error t =>
      rw [henter] at h
      cases h
      exact .refused fuel m i _
    | ok entered =>
      obtain ⟨frame, store⟩ := entered
      simp only [henter] at h
      obtain ⟨o, hrun, hreturned⟩ := Option.map_eq_some_iff.1 h
      exact guest_ends hv hm hf hbody henter hrun hreturned

/-- a call that succeeds has taken its arguments off the stack, and nothing else -/
theorem call_ends (hv : mod.ValidBodies) (hm : m.From mod) {result : Except ExecError (List Val)}
    (h : m.call fuel i = some (result, m')) :
    match result with
    | .ok _ => ∃ f args, m.inst.function i = .ok f ∧ args.length = f.type.params.length ∧
        m.stack.cells = args ++ m'.stack.cells
    | .error e => m.FailsOver fuel i e m' := by
  unfold call at h
  cases hf : m.inst.function i with
  | error t =>
    rw [hf] at h
    cases h
    exact .refused fuel m i _
  | ok f =>
    simp only [hf, Option.bind_eq_some_iff] at h
    obtain ⟨⟨answer, m₁⟩, hcall, h⟩ := h
    have hends := callFunction_ends hv hm hf hcall
    cases answer with
    | error e =>
      cases h
      exact hends
    | ok _ =>
      obtain ⟨args, base, results, hargs, hresults, hbefore, hafter⟩ := hends
      obtain ⟨stack, hpop, hstack⟩ := OperandStack.popMany_append hafter
      rw [hresults] at hpop
      simp only [popValues, hpop, Except.map] at h
      cases h
      refine ⟨f, args, rfl, hargs, ?_⟩
      show m.stack.cells = args ++ stack.cells
      rw [hstack]
      exact hbefore

end From

/-- **A failed call of a module with valid bodies keeps what was under its arguments**, whatever else was done with the
machine before. An indirect call takes the slot number first; if it is refused after that, it leaves the rest. -/
theorem failed_calls {limits : Limits} {m₀ : Machine} (hv : mod.ValidBodies) (h : instantiate mod limits = .ok m₀)
    (hl : m₀.Later m) :
    (∀ fuel i e m', m.call fuel i = some (.error e, m') → m.FailsOver fuel i e m') ∧
    ∀ fuel tableIndex declared e m', m.callIndirect fuel tableIndex declared = some (.error e, m') →
      m.stack.cells = [] ∧ m' = m ∨
      ∃ slot stack, m.stack.pop = .ok (slot, stack) ∧
        ((∃ t, m.inst.resolve tableIndex slot.index declared = .error t ∧ m' = m.withStack stack) ∨
          ∃ i, m.inst.resolve tableIndex slot.index declared = .ok i ∧ (m.withStack stack).FailsOver fuel i e m') := by
  have hm : m.From mod := (instantiate_from h).later hl
  refine ⟨fun fuel i e m' hcall => hm.call_ends hv hcall, ?_⟩
  intro fuel tableIndex declared e m' hcall
  unfold callIndirect at hcall
  cases hcells : m.stack.cells with
  | nil =>
    rw [OperandStack.pop_nil hcells] at hcall
    cases hcall
    exact .inl ⟨rfl, rfl⟩
  | cons slot rest =>
    obtain ⟨stack, hpop, -⟩ := OperandStack.pop_cons hcells
    have hinst : (m.withStack stack).inst = m.inst := rfl
    simp only [hpop, hinst] at hcall
    refine .inr ⟨slot, stack, hpop, ?_⟩
    cases hr : m.inst.resolve tableIndex slot.index declared with
    | error t =>
      rw [hr] at hcall
      cases hcall
      exact .inl ⟨t, rfl, rfl⟩
    | ok i =>
      rw [hr] at hcall
      exact .inr ⟨i, rfl, (hm.withStack stack).call_ends hv hcall⟩

/-- a function that puts a number on the stack and traps, and one that takes an argument and calls it -/
def leaking : Module :=
  { Module.empty with
    pages := 0
    functions := #[.guest "f" ⟨[], []⟩ [] [.const (.i32 1), .unreachable], .guest "g" ⟨[.i32], []⟩ [] [.call 0]]
    exports := #[("f", 0), ("g", 1)]
    tables := #[.ofElements [some 1]] }

theorem leaking_valid : leaking.Valid where
  functions := by
    intro f hf
    have hcall : leaking.scope.functions[(0 : UInt32).toNat]? = some ⟨[], []⟩ := by
      simp [Module.scope, leaking, Function.guest]
    rcases List.mem_pair.1 (Array.mem_toList_iff.2 hf) with rfl | rfl
    · exact Function.valid_guest <| .over [] .const <| .over [] (@Instr.Typed.unreachable _ [.i32] []) .nil
    · exact Function.valid_guest <| .over [] (.call hcall) .nil
  exports := by decide
  tables := by
    intro t ht i hi
    obtain rfl := Array.mem_singleton.1 ht
    obtain rfl := Option.some.inj (List.mem_singleton.1 (Array.mem_toList_iff.2 hi))
    decide

/-- its machine with the given cells on the stack -/
def leakingWith (cells : List Cell) : Machine :=
  ⟨⟨#[], leaking.functions, leaking.tables, 2⟩, leaking.exports, ⟨(OperandStack.empty 4).withCells cells, .new 0 none, #[], 0⟩⟩

/-- A call of the second function with the argument 5, directly and through the table: the trap is in the first one, the
argument is gone, and the cell under it is left. -/
theorem failed_calls_leaking :
    instantiate leaking ⟨none, 4, 2⟩ = .ok (leakingWith []) ∧
    (∃ e m', (leakingWith [5, 7]).call 10 1 = some (.error e, m') ∧ (leakingWith [5, 7]).FailsOver 10 1 e m' ∧
      m'.stack.cells = [1, 7]) ∧
    ∃ e m', (leakingWith [0, 5, 7]).callIndirect 10 0 ⟨[.i32], []⟩ = some (.error e, m') ∧ m'.stack.cells = [1, 7] ∧
      ∃ slot stack, (leakingWith [0, 5, 7]).stack.pop = .ok (slot, stack) ∧
        ((leakingWith [0, 5, 7]).withStack stack).FailsOver 10 1 e m' := by
  have hm : instantiate leaking ⟨none, 4, 2⟩ = .ok (leakingWith []) := rfl
  have hlater (cells : List Cell) : (leakingWith []).Later (leakingWith cells) :=
    .single (.setStack (leakingWith cells).stack)
  have hcall : (leakingWith [5, 7]).call 10 1 =
      some (.error (.located .unreachable ⟨0x00, 1⟩), leakingWith [1, 7]) := rfl
  have hindirect : (leakingWith [0, 5, 7]).callIndirect 10 0 ⟨[.i32], []⟩ =
      some (.error (.located .unreachable ⟨0x00, 1⟩), leakingWith [1, 7]) := rfl
  refine ⟨hm, ⟨_, _, hcall, (failed_calls leaking_valid.functions hm (hlater _)).1 _ _ _ _ hcall, rfl⟩, ?_⟩
  refine ⟨_, _, hindirect, rfl, ?_⟩
  rcases (failed_calls leaking_valid.functions hm (hlater _)).2 _ _ _ _ _ hindirect with
    ⟨hempty, -⟩ | ⟨slot, stack, hpop, ⟨t, hresolve, -⟩ | ⟨i, hresolve, hfails⟩⟩
  · cases hempty
  · cases hpop
    cases hresolve
  · cases hpop
    cases hresolve
    exact ⟨_, _, rfl, hfails⟩

/-- **A failed call does not clean up.** It leaves a cell of its function that was not on the stack before, where an
invocation of the same function leaves the stack as it was. -/
theorem failed_call_leaves_cells :
    leaking.Valid ∧ instantiate leaking ⟨none, 4, 2⟩ = .ok (leakingWith []) ∧
    (leakingWith [7]).call 5 0 = some (.error (.located .unreachable ⟨0x00, 1⟩), leakingWith [1, 7]) ∧
    ¬ (leakingWith [1, 7]).stack.cells <:+ (leakingWith [7]).stack.cells ∧
    (leakingWith [7]).invoke 5 "f" [] = some (.error (.located .unreachable ⟨0x00, 1⟩), leakingWith [7]) :=
  ⟨leaking_valid, rfl, rfl, by decide, rfl⟩

end WasmCore.Machine
