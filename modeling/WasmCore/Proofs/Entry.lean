/-
Entering and leaving a guest function.

A guest function is entered in two places: by an embedding program, which starts a run of its body, and by a `call`
within a run, where its body becomes the active one. Both take the same first step (`Function.enter`), which fails before
it takes anything off the stack. `Machine.callGuest_eq` and `Config.call_code` say the rest of either place, so that
nothing else has to open them.
-/
import WasmCore.Machine.Basic
import WasmCore.Proofs.StackCells

namespace WasmCore

/-- what the body of a guest function starts with: its frame, and the store without its arguments -/
def Function.enter (inst : Instance) (f : Function) (s : Store) : Except Trap (Frame × Store) :=
  if inst.maxCallDepth ≤ s.depth then .error .callStackExhausted
  else
    (Frame.enter s.stack f.type.params f.locals).map fun (frame, stack) =>
      (frame, { s with stack, depth := s.depth + 1 })

/-- what a machine answers when the run of a body has ended, over a stack of the given height -/
def Machine.returned (m : Machine) (height arity : Nat) (o : Outcome) : Except ExecError Unit × Machine :=
  let m := { m with store := { o.state.store with depth := o.state.store.depth - 1 } }
  match o.result with
  | .error e => (.error e, m)
  | .ok () =>
    match m.stack.unwind height arity with
    | .error t => (.error (.unlocated t), m)
    | .ok stack => (.ok (), m.withStack stack)

variable {inst : Instance} {f : Function} {s : Store}

/-! ## The first step -/

theorem Frame.error_enter {stack : OperandStack} {params locals : List ValType} {t : Trap}
    (h : Frame.enter stack params locals = .error t) : t = .stackUnderflow params.length stack.height := by
  unfold enter at h
  cases hp : stack.popMany params.length with
  | error t' =>
    rw [hp] at h
    cases h
    exact OperandStack.error_popMany hp
  | ok popped =>
    rw [hp] at h
    cases h

theorem Function.enter_full (f : Function) (h : inst.maxCallDepth ≤ s.depth) :
    f.enter inst s = .error .callStackExhausted := by
  rw [enter, if_pos h]

/-- what a function finds when it has been entered -/
theorem Function.enter_ok {frame : Frame} {t : Store} (h : f.enter inst s = .ok (frame, t)) :
    s.depth < inst.maxCallDepth ∧ ∃ stack, Frame.enter s.stack f.type.params f.locals = .ok (frame, stack) ∧
      t = { s with stack, depth := s.depth + 1 } := by
  unfold enter at h
  by_cases hd : inst.maxCallDepth ≤ s.depth
  · rw [if_pos hd] at h
    cases h
  · rw [if_neg hd] at h
    cases hs : Frame.enter s.stack f.type.params f.locals with
    | error t =>
      rw [hs] at h
      cases h
    | ok entered =>
      rw [hs] at h
      cases h
      exact ⟨Nat.lt_of_not_le hd, _, rfl, rfl⟩

/-- A function is refused for want of calls exactly if as many are active as there may be. -/
theorem Function.enter_exhausted_iff : f.enter inst s = .error .callStackExhausted ↔ inst.maxCallDepth ≤ s.depth := by
  constructor
  · intro h
    refine Decidable.by_contra fun hd => ?_
    rw [enter, if_neg hd] at h
    cases hs : Frame.enter s.stack f.type.params f.locals with
    | error t =>
      rw [hs, Frame.error_enter hs] at h
      cases h
    | ok entered =>
      rw [hs] at h
      cases h
  · exact f.enter_full

/-! ## The two places -/

theorem Machine.callGuest_eq (fuel : Nat) (m : Machine) (f : Function) (code : List Instr) :
    m.callGuest fuel f code =
      match f.enter m.inst m.store with
      | .error t => m.failed t
      | .ok (frame, store) =>
        (Config.run m.inst fuel (.start ⟨store, frame⟩ code)).map
          (m.returned store.stack.height f.type.results.length) := by
  unfold callGuest Function.enter
  by_cases hd : m.inst.maxCallDepth ≤ m.store.depth
  · rw [if_pos hd, if_pos hd]
  · rw [if_neg hd, if_neg hd]
    cases hs : Frame.enter m.store.stack f.type.params f.locals with
    | error t => simp only [Machine.stack, hs]; rfl
    | ok entered =>
      obtain ⟨frame, stack⟩ := entered
      simp only [Machine.stack, hs, Except.map, execute]
      cases Config.run m.inst fuel (.start ⟨{ m.store with stack, depth := m.store.depth + 1 }, frame⟩ code) with
      | none => rfl
      | some o =>
        obtain ⟨result, state⟩ := o
        cases result with
        | error e => rfl
        | ok _ =>
          simp only [Option.map_some, Option.bind_some, returned, Machine.stack]
          cases state.store.stack.unwind stack.height f.type.results.length <;> rfl

/-- A function that has been called at the top has answered itself, and then only the stack is another; or its body has
been entered, and has run to its end. -/
theorem Machine.callFunction_cases {fuel : Nat} {m m' : Machine} {i : UInt32} {result : Except ExecError Unit}
    (h : m.callFunction fuel i = some (result, m')) :
    (∃ stack, m' = m.withStack stack) ∨
    ∃ f code frame store o, m.inst.function i = .ok f ∧ f.body = .code code ∧
      f.enter m.inst m.store = .ok (frame, store) ∧ Config.run m.inst fuel (.start ⟨store, frame⟩ code) = some o ∧
      m.returned store.stack.height f.type.results.length o = (result, m') := by
  unfold callFunction at h
  cases hf : m.inst.function i with
  | error t =>
    rw [hf] at h
    cases h
    exact .inl ⟨m.stack, rfl⟩
  | ok f =>
    simp only [hf] at h
    cases hbody : f.body with
    | host host =>
      simp only [hbody] at h
      cases h
      exact .inl ⟨_, rfl⟩
    | code code =>
      simp only [hbody, callGuest_eq] at h
      cases henter : f.enter m.inst m.store with
      | error t =>
        rw [henter] at h
        cases h
        exact .inl ⟨m.stack, rfl⟩
      | ok entered =>
        obtain ⟨frame, store⟩ := entered
        simp only [henter, Option.map_eq_some_iff] at h
        obtain ⟨o, hrun, hreturned⟩ := h
        exact .inr ⟨f, code, frame, store, o, rfl, hbody, henter, hrun, hreturned⟩

/-! ## Heights -/

/-- the arguments are what has been taken off the stack -/
theorem Frame.enter_cells {stack rest : OperandStack} {params locals : List ValType} {frame : Frame}
    (h : Frame.enter stack params locals = .ok (frame, rest)) :
    ∃ args, args.length = params.length ∧ stack.cells = args ++ rest.cells := by
  unfold enter at h
  cases hp : stack.popMany params.length with
  | error t =>
    rw [hp] at h
    cases h
  | ok popped =>
    rw [hp] at h
    cases h
    obtain ⟨hlen, hcells⟩ := OperandStack.popMany_ok hp
    exact ⟨popped.1.reverse, by rw [List.length_reverse, hlen], hcells⟩

/-- a function that is entered leaves what lies under its arguments -/
theorem Function.enter_under {store : Store} {frame : Frame}
    (h : f.enter inst s = .ok (frame, store)) {args base : List Cell} (hargs : args.length = f.type.params.length)
    (hcells : s.stack.cells = args ++ base) : store.stack.cells = base := by
  obtain ⟨-, stack, hstack, rfl⟩ := Function.enter_ok h
  obtain ⟨args', hargs', hcells'⟩ := Frame.enter_cells hstack
  exact (List.append_inj (hcells'.symm.trans hcells) (hargs'.trans hargs.symm)).2

theorem HostFunc.call_short (h : HostFunc) {s : OperandStack} (hfew : s.height < h.type.params.length) :
    h.call s = (.error (.stackUnderflow h.type.params.length s.height), s) := by
  simp only [call, OperandStack.popMany_short hfew]

/-- a host function that succeeds has put its results in the place of its arguments -/
theorem HostFunc.call_heights {h : HostFunc} {s t : OperandStack} (hcall : h.call s = (.ok (), t)) :
    ∃ n, s.height = n + h.type.params.length ∧ t.height = n + h.type.results.length := by
  unfold HostFunc.call at hcall
  split at hcall
  · cases hcall
  · rename_i args rest hpop
    split at hcall
    · cases hcall
    · rename_i results hinvoke
      cases hcall
      have htypes : results.map Val.type = h.type.results := by
        simp only [HostFunc.invoke, bind, Except.bind] at hinvoke
        split at hinvoke
        · cases hinvoke
        · split at hinvoke
          · rename_i hty
            cases hinvoke
            exact hty
          · cases hinvoke
      obtain ⟨hlen, hcells⟩ := OperandStack.popMany_ok hpop
      refine ⟨rest.height, ?_, ?_⟩
      · rw [s.height_eq, hcells, rest.height_eq, List.length_append, List.length_reverse, hlen, Nat.add_comm]
      · rw [OperandStack.height_pushAll, ← htypes, List.length_map, List.length_map]

theorem Machine.returned_height {m m' : Machine} {height arity : Nat} {o : Outcome}
    (h : m.returned height arity o = (.ok (), m')) : m'.stack.height = height + arity := by
  unfold returned at h
  cases hresult : o.result with
  | error e =>
    rw [hresult] at h
    cases h
  | ok _ =>
    simp only [hresult, Machine.stack] at h
    cases hu : o.state.store.stack.unwind height arity with
    | error t =>
      rw [hu] at h
      cases h
    | ok stack =>
      rw [hu] at h
      cases h
      exact OperandStack.height_unwind hu

/-- A function that succeeds has put its results in the place of its arguments, whatever its body does, unless it is a host
function under a signature that is not its own. -/
theorem Machine.callFunction_heights {fuel : Nat} {m m' : Machine} {i : UInt32} {f : Function}
    (hf : m.inst.function i = .ok f) (h : m.callFunction fuel i = some (.ok (), m'))
    (hhost : ∀ host, f.body = .host host → host.type = f.type) :
    ∃ n, m.stack.height = n + f.type.params.length ∧ m'.stack.height = n + f.type.results.length := by
  cases hbody : f.body with
  | host host =>
    simp only [callFunction, hf, hbody] at h
    generalize hcall : host.call m.stack = called at h
    obtain ⟨result, stack⟩ := called
    cases result with
    | error t => cases h
    | ok _ =>
      cases h
      rw [← hhost host hbody]
      exact HostFunc.call_heights hcall
  | code code =>
    simp only [callFunction, hf, hbody, callGuest_eq] at h
    split at h
    · cases h
    · rename_i frame store henter
      obtain ⟨o, -, hreturned⟩ := Option.map_eq_some_iff.1 h
      obtain ⟨-, stack, hstack, rfl⟩ := Function.enter_ok henter
      obtain ⟨args, hargs, hcells⟩ := Frame.enter_cells hstack
      refine ⟨stack.height, ?_, returned_height hreturned⟩
      show m.store.stack.height = _
      rw [m.store.stack.height_eq, hcells, stack.height_eq, List.length_append, hargs, Nat.add_comm]

namespace Config

variable {c : Config} {i : UInt32}

theorem call_missing {t : Trap} (hf : inst.function i = .error t) (site : Site) :
    c.call inst i site = c.fail (.located t site) := by
  simp only [call, hf]

theorem call_host {h : HostFunc} (hf : inst.function i = .ok f) (hbody : f.body = .host h) (site : Site) :
    c.call inst i site =
      match h.call c.state.store.stack with
      | (.error t, stack) => fail { c with state.store.stack := stack } (.located t site)
      | (.ok (), stack) => .running { c with state.store.stack := stack } := by
  simp only [call, hf, hbody]
  rcases h.call c.state.store.stack with ⟨_ | _, stack⟩ <;> rfl

theorem call_code {body : List Instr} (hf : inst.function i = .ok f) (hbody : f.body = .code body) (site : Site) :
    c.call inst i site =
      match f.enter inst c.state.store with
      | .error t => c.fail (.located t site)
      | .ok (frame, store) =>
        .running ⟨⟨store, frame⟩, .start body,
          ⟨c.state.frame, c.control, store.stack.height, f.type.results.length⟩ :: c.callers⟩ := by
  simp only [call, hf, hbody, Function.enter]
  by_cases hd : inst.maxCallDepth ≤ c.state.store.depth
  · simp only [if_pos hd]
  · simp only [if_neg hd]
    cases Frame.enter c.state.store.stack f.type.params f.locals with
    | error t => rfl
    | ok entered => rfl

end Config

end WasmCore
