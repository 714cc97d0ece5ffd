/-
Values across the boundary.

An argument is a typed value, a cell, the value of a local and a cell again before a function has it, and a result takes the
same way back. A value of a type is no more than its bits, and a cell that was made of it gives them back
(`OperandStack.popMany_pushAll`, `Val.ofCell_toCells`). A host function is thus given what it was invoked with
(`Machine.invoke_host`).

A function that forwards its arguments to another one has taken them off the stack and puts them back: the other one finds
the very stack that it would find by itself, its room included (`OperandStack.pushAll_again`), one call deeper
(`Machine.callFunction_deeper`). What comes back is what the other one left, since it has left its results and nothing else
(`Machine.callFunction_forwards`), if it is not a host function under a signature that is not its own
(`Machine.boundary_not_crossed`).
-/
import WasmCore.Proofs.Embedding.CallLevel
import WasmCore.Proofs.Structured.IndirectCalls
import WasmCore.Proofs.Typing.Soundness

namespace WasmCore

/-! ## Values and cells -/

theorem Val.ofCell_toCells (vs : List Val) : List.zipWith Val.ofCell (vs.map Val.type) (vs.map Val.toCell) = vs := by
  induction vs with
  | nil => rfl
  | cons v vs ih => rw [List.map_cons, List.map_cons, List.zipWith_cons_cons, ih, Val.ofCell_toCell]

namespace OperandStack

/-- cells that were pushed are taken off in the order in which they were pushed -/
theorem popMany_pushAll (s : OperandStack) (cs : List Cell) :
    (s.pushAll cs).popMany cs.length = .ok (cs, (s.pushAll cs).truncate s.height) := by
  have hheight := s.height_pushAll cs
  rw [popMany_eq (by omega), hheight, Nat.add_sub_cancel, cells_pushAll, List.take_left' List.length_reverse,
    List.reverse_reverse]

/-- and the cells under them are left -/
theorem cells_popped (s : OperandStack) (cs : List Cell) : ((s.pushAll cs).truncate s.height).cells = s.cells := by
  rw [s.height_eq]
  exact cells_truncate (s.cells_pushAll cs)

/-- there is room enough, or the stack is higher than its room: either way nothing is made of it -/
theorem capacity_pushAll {s : OperandStack} {cs : List Cell}
    (h : s.capacity < s.height ∨ s.height + cs.length ≤ s.capacity) : (s.pushAll cs).capacity = s.capacity := by
  induction cs generalizing s with
  | nil => rfl
  | cons c cs ih =>
    rw [List.length_cons] at h
    have hpush : (s.push c).capacity = s.capacity := if_neg (by omega)
    have hheight : (s.push c).height = s.height + 1 := rfl
    show ((s.push c).pushAll cs).capacity = s.capacity
    rw [ih (by omega), hpush]

theorem height_le_capacity {s : OperandStack} (cs : List Cell) (h : s.height ≤ s.capacity) :
    s.height + cs.length ≤ (s.pushAll cs).capacity := by
  induction cs generalizing s with
  | nil => exact h
  | cons c cs ih =>
    have hpush : (s.push c).height ≤ (s.push c).capacity := by
      show s.height + 1 ≤ grownCapacity s.height s.capacity
      unfold grownCapacity
      split <;> omega
    have hpushed := ih hpush
    have hheight : (s.push c).height = s.height + 1 := rfl
    show s.height + (cs.length + 1) ≤ ((s.push c).pushAll cs).capacity
    omega

/-- taking the cells off and pushing them again makes no difference, not even to the room -/
theorem pushAll_again (s : OperandStack) (cs : List Cell) :
    ((s.pushAll cs).truncate s.height).pushAll cs = s.pushAll cs := by
  refine eq_of_cells ?_ (capacity_pushAll ?_)
  · rw [cells_pushAll, cells_popped, cells_pushAll]
  · have hheight : ((s.pushAll cs).truncate s.height).height = s.height := by
      rw [OperandStack.height_eq, cells_popped, s.height_eq]
    show (s.pushAll cs).capacity < _ ∨ _ ≤ (s.pushAll cs).capacity
    rw [hheight]
    rcases Nat.lt_or_ge s.capacity s.height with hover | hroom
    · rw [capacity_pushAll (.inl hover)]
      exact .inl hover
    · exact .inr (height_le_capacity cs hroom)

/-- arguments that were pushed are read back as they were -/
theorem popMany_args {args : List Val} {params : List ValType} (s : OperandStack) (h : args.map Val.type = params) :
    (s.pushAll (args.map Val.toCell)).popMany params.length =
        .ok (args.map Val.toCell, (s.pushAll (args.map Val.toCell)).truncate s.height) ∧
      List.zipWith Val.ofCell params (args.map Val.toCell) = args := by
  subst h
  have hlen : (args.map Val.type).length = (args.map Val.toCell).length := by rw [List.length_map, List.length_map]
  exact ⟨by rw [hlen, popMany_pushAll], Val.ofCell_toCells args⟩

/-- nothing is cut out of a stack that is as high as it is to be -/
theorem unwind_self {s : OperandStack} {height keep : Nat} (h : s.height = height + keep) : s.unwind height keep = .ok s := by
  rw [unwind, if_neg (by omega), dropKeep_eq, if_pos (by omega)]

end OperandStack

/-! ## Host functions -/

/-- what a host function answers to values, its results in their order -/
def HostFunc.answer (h : HostFunc) (args : List Val) : Except Trap (List Val) :=
  match h.run args with
  | .error t => .error t
  | .ok returned => if returned.values.map Val.type = h.type.results then .ok returned.values else .error .hostSignatureMismatch

theorem HostFunc.invoke_eq (h : HostFunc) (args : List Val) : h.invoke args = h.answer args := by
  unfold invoke answer
  cases h.run args with
  | error t => rfl
  | ok returned => rfl

/-- it is given the values whose cells are on top of the stack, and leaves the cells of its results in their place -/
theorem HostFunc.call_pushAll {h : HostFunc} {args : List Val} (hargs : args.map Val.type = h.type.params) (s : OperandStack) :
    let rest := (s.pushAll (args.map Val.toCell)).truncate s.height
    h.call (s.pushAll (args.map Val.toCell)) =
      match h.answer args with
      | .error t => (.error t, rest)
      | .ok vs => (.ok (), rest.pushAll (vs.map Val.toCell)) := by
  obtain ⟨hpop, hvalues⟩ := s.popMany_args hargs
  cases hanswer : h.answer args with
  | error t => simp only [call, hpop, hvalues, invoke_eq, hanswer]
  | ok vs => simp only [call, hpop, hvalues, invoke_eq, hanswer]

/-- results that have come through have the declared types -/
theorem HostFunc.types_answer {h : HostFunc} {args vs : List Val} (hanswer : h.answer args = .ok vs) :
    vs.map Val.type = h.type.results := by
  unfold answer at hanswer
  split at hanswer
  · cases hanswer
  · split at hanswer
    · rename_i htypes
      cases hanswer
      exact htypes
    · cases hanswer

namespace Machine

variable {m : Machine} {name : String} {args : List Val} {i : UInt32} {f : Function} {h : HostFunc}

/-- A host function that is invoked is given the arguments, and its results are answered. The stack is as it was. -/
theorem invoke_host (hname : m.findExport name = some i) (hf : m.inst.function i = .ok f) (hbody : f.body = .host h)
    (hown : f.type = h.type) (hargs : args.map Val.type = h.type.params) (fuel : Nat) :
    ∃ stack, stack.cells = m.stack.cells ∧
      m.invoke fuel name args = some ((h.answer args).mapError .unlocated, m.withStack stack) := by
  let pushed := m.stack.pushAll (args.map Val.toCell)
  let rest := pushed.truncate m.stack.height
  have hrest : rest.cells = m.stack.cells := m.stack.cells_popped _
  have hcall : h.call pushed = _ := HostFunc.call_pushAll hargs m.stack
  have hfun (stack : OperandStack) : (m.withStack stack).inst.function i = .ok f := hf
  have hstack (stack : OperandStack) : (m.withStack stack).stack = stack := rfl
  have htwice (stack stack' : OperandStack) : (m.withStack stack).withStack stack' = m.withStack stack' := rfl
  have htypes : ¬ args.map Val.type ≠ f.type.params := by rw [hown]; exact not_not_intro hargs
  simp only [invoke, hname, hf, if_neg htypes, call, hfun, callFunction, hbody, hstack, htwice, pushed] at hcall ⊢
  simp only [hcall]
  cases hanswer : h.answer args with
  | error t =>
    -- the arguments are off the stack, and cutting it to its height before them changes nothing more
    refine ⟨rest.truncate m.stack.height, ?_, rfl⟩
    show rest.cells.drop (rest.height - m.stack.height) = _
    rw [rest.height_eq, hrest, m.stack.height_eq, Nat.sub_self, List.drop_zero]
  | ok vs =>
    have hresults : vs.map Val.type = f.type.results := by rw [hown, HostFunc.types_answer hanswer]
    obtain ⟨hpop, hvalues⟩ := rest.popMany_args hresults
    refine ⟨(rest.pushAll (vs.map Val.toCell)).truncate rest.height, (rest.cells_popped _).trans hrest, ?_⟩
    simp only [Option.bind_some, popValues, hstack, rest, pushed] at hpop ⊢
    simp only [hpop, Except.map, hvalues]
    rfl

end Machine

/-! ## The same answers -/

/-- the same answer but for its site, and the same store -/
structure SameAnswer {α : Type} (x y : Except ExecError α × Machine) : Prop where
  answer : unsited x.1 = unsited y.1
  store : x.2.store = y.2.store

/-- each way comes to an answer if the other one does, however many steps either takes, and then to the same one -/
structure SameAnswers {α : Type} (b b' : Nat → Bounded α) : Prop where
  forth : ∀ fuel x, b fuel = some x → ∃ fuel' y, b' fuel' = some y ∧ SameAnswer x y
  back : ∀ fuel y, b' fuel = some y → ∃ fuel' x, b fuel' = some x ∧ SameAnswer x y

namespace SameAnswers

variable {α β : Type} {b b' : Nat → Bounded α}

/-- what follows the answers does the same with them -/
theorem bind (h : SameAnswers b b') {next next' : Except ExecError α × Machine → Bounded β}
    (hnext : ∀ x y, SameAnswer x y → ∃ x' y', next x = some x' ∧ next' y = some y' ∧ SameAnswer x' y') :
    SameAnswers (fun fuel => (b fuel).bind next) (fun fuel => (b' fuel).bind next') := by
  constructor
  · intro fuel z hz
    obtain ⟨x, hx, hz⟩ := Option.bind_eq_some_iff.1 hz
    obtain ⟨fuel', y, hy, hsame⟩ := h.forth fuel x hx
    obtain ⟨x', y', hx', hy', hsame'⟩ := hnext x y hsame
    obtain rfl := Option.some.inj (hz.symm.trans hx')
    exact ⟨fuel', y', Option.bind_eq_some_iff.2 ⟨y, hy, hy'⟩, hsame'⟩
  · intro fuel z hz
    obtain ⟨y, hy, hz⟩ := Option.bind_eq_some_iff.1 hz
    obtain ⟨fuel', x, hx, hsame⟩ := h.back fuel y hy
    obtain ⟨x', y', hx', hy', hsame'⟩ := hnext x y hsame
    obtain rfl := Option.some.inj (hz.symm.trans hy')
    exact ⟨fuel', x', Option.bind_eq_some_iff.2 ⟨x, hx, hx'⟩, hsame'⟩

theorem failed {m m' : Machine} (hstore : m.store = m'.store) (t : Trap) :
    SameAnswers (fun _ => (m.failed t : Bounded α)) (fun _ => m'.failed t) where
  forth _ _ h := by
    cases h
    exact ⟨0, _, rfl, rfl, hstore⟩
  back _ _ h := by
    cases h
    exact ⟨0, _, rfl, rfl, hstore⟩

end SameAnswers

/-! ## Forwarding -/

/-- the function has the signature of `f`, pushes its parameters in their order and calls `f`, which is number `i` -/
structure Function.Forwards (g : Function) (i : UInt32) (f : Function) : Prop where
  type : g.type = f.type
  locals : g.locals = []
  body : ∃ indices : List UInt32, indices.map UInt32.toNat = List.range f.type.params.length ∧
    g.body = .code (indices.map .localGet ++ [.call i])

/-- the frame whose variables hold these values -/
def Frame.holding (vs : List Val) : Frame :=
  ⟨(vs.map Variable.holding).toArray⟩

theorem Instr.exec_localGet {inst : Instance} {s : State} {i : UInt32} {v : Variable}
    (h : s.frame.vars[i.toNat]? = some v) :
    (localGet i).exec inst s = .ok .next { s with store.stack := s.store.stack.push v.cell } := by
  have hget : s.frame.get i = .ok v.cell := by simp only [Frame.get, Frame.variableAt, h]; rfl
  have hexec : (localGet i).exec inst s =
      EStateM.bind (ofExcept (s.frame.get i) : Exec Cell)
        (fun c s => .ok .next { s with store.stack := s.store.stack.push c }) s := rfl
  rw [hexec, hget]
  rfl

/-- reading locals one after another pushes their values -/
theorem Config.localGets_lead {inst : Instance} {code rest : List Instr} {callers : List Caller} {indices : List UInt32}
    {vs : List Variable} {s : State} (h : indices.map (fun i => s.frame.vars[i.toNat]?) = vs.map some) :
    (Progress.running ⟨s, ⟨[], ⟨code, indices.map .localGet ++ rest⟩⟩, callers⟩).Leads inst
      (.running ⟨{ s with store.stack := s.store.stack.pushAll (vs.map Variable.cell) }, ⟨[], ⟨code, rest⟩⟩, callers⟩) := by
  induction indices generalizing s vs with
  | nil =>
    obtain rfl : vs = [] := List.map_eq_nil_iff.1 h.symm
    exact .refl _
  | cons i indices ih =>
    cases vs with
    | nil => cases h
    | cons v vs =>
      obtain ⟨hv, hvs⟩ := List.cons_eq_cons.1 h
      have hstep : Config.step inst ⟨s, ⟨[], ⟨code, (i :: indices).map .localGet ++ rest⟩⟩, callers⟩ =
          .running ⟨{ s with store.stack := s.store.stack.push v.cell },
            ⟨[], ⟨code, indices.map .localGet ++ rest⟩⟩, callers⟩ := by
        simp only [step, Control.next?, List.map_cons, List.cons_append, Instr.exec_localGet hv, follow]
      refine (Progress.leads_step _).trans ?_
      rw [hstep]
      exact ih (s := { s with store.stack := s.store.stack.push v.cell }) hvs

namespace Machine

variable {m : Machine} {i j : UInt32} {f g : Function} {args : List Val}

/-- the last instruction of a sequence is about to call a function, and nobody waits for the sequence -/
def lastCall (m : Machine) (frame : Frame) (code : List Instr) (i : UInt32) (site : Site) : Progress :=
  Config.call m.inst ⟨⟨m.store, frame⟩, ⟨[], ⟨code, []⟩⟩, []⟩ i site

theorem lastCall_ends_iff {frame : Frame} {code : List Instr} {site : Site} {o : Outcome} :
    (∃ fuel, (m.lastCall frame code i site).run m.inst fuel = some o) ↔
      ∃ ending, Task.Ends m.inst (.call site i) ⟨m.store, frame⟩ ending ∧ ⟨ending.1.result, ending.2⟩ = o := by
  have hstart : Task.Starts m.inst ⟨[], ⟨code, []⟩⟩ [] (.call site i) ⟨m.store, frame⟩ (m.lastCall frame code i site) := .call
  have hends := hstart.ends_iff (o := o)
  have hafter (ending : Ending) : (∃ fuel, (ending.resume ⟨[], ⟨code, []⟩⟩ []).run m.inst fuel = some o) ↔
      ⟨ending.1.result, ending.2⟩ = o :=
    (ending.resume_outermost code).ended_iff
  simp only [Task.after, hafter] at hends
  exact hends

/-- it does not matter where the call stands -/
theorem lastCall_resited {frame : Frame} {code : List Instr} {site : Site} {o : Outcome} (code' : List Instr) (site' : Site)
    (h : ∃ fuel, (m.lastCall frame code i site).run m.inst fuel = some o) :
    ∃ o', (∃ fuel, (m.lastCall frame code' i site').run m.inst fuel = some o') ∧ o'.state = o.state ∧
      unsited o'.result = unsited o.result := by
  obtain ⟨ending, hending, rfl⟩ := lastCall_ends_iff.1 h
  obtain ⟨ending', hending', hstate, hresult⟩ := hending.resited site'
  exact ⟨_, lastCall_ends_iff.2 ⟨ending', hending', rfl⟩, hstate, hresult⟩

/-- such a call ends as the function does that is called at the top -/
theorem lastCall_agrees (m : Machine) (frame : Frame) (code : List Instr) (i : UInt32) (site : Site) :
    (∀ o, (∃ fuel, (m.lastCall frame code i site).run m.inst fuel = some o) →
      ∃ fuel called, m.callFunction fuel i = some called ∧ SameAnswer called (o.result, { m with store := o.state.store })) ∧
    ∀ fuel called, m.callFunction fuel i = some called →
      ∃ o, (∃ fuel, (m.lastCall frame code i site).run m.inst fuel = some o) ∧
        SameAnswer called (o.result, { m with store := o.state.store }) := by
  obtain ⟨hinner, htop⟩ := m.call_agrees i frame
  constructor
  · intro o ho
    obtain ⟨o', ho', hstate, hresult⟩ := lastCall_resited [.call i] ⟨0x10, 0⟩ ho
    obtain ⟨called, ⟨fuel, hcalled⟩, hanswer, -, hmachine⟩ := hinner o' ho'
    refine ⟨fuel, called, hcalled, hanswer.symm.trans hresult, ?_⟩
    rw [← hmachine, hstate]
  · intro fuel called hcalled
    obtain ⟨o', ho', hanswer, -, hmachine⟩ := htop called ⟨fuel, hcalled⟩
    obtain ⟨o, ho, hstate, hresult⟩ := lastCall_resited code site ho'
    refine ⟨o, ho, (hresult.trans hanswer).symm, ?_⟩
    rw [← hmachine, ← hstate]

/-- leaving the function that forwards adds nothing to what the other one has left, one call deeper -/
theorem returned_same {called : Except ExecError Unit × Machine} {o : Outcome} {height arity : Nat}
    (hsame : SameAnswer (Prod.map id deeper called) (o.result, { m with store := o.state.store }))
    (hheight : called.1 = .ok () → called.2.stack.height = height + arity) (m' : Machine) :
    SameAnswer called (m'.returned height arity o) := by
  obtain ⟨result, left⟩ := called
  obtain ⟨hanswer, hstore⟩ := hsame
  have hanswer : unsited result = unsited o.result := hanswer
  have hstore : left.store.deeper = o.state.store := hstore
  have hleft : { o.state.store with depth := o.state.store.depth - 1 } = left.store := by
    rw [← hstore]
    rfl
  unfold returned
  rw [hleft]
  cases hresult : o.result with
  | error e =>
    rw [hresult] at hanswer
    exact ⟨hanswer, rfl⟩
  | ok _ =>
    rw [hresult] at hanswer
    cases result with
    | error e => cases hanswer
    | ok _ =>
      have hunwind : left.store.stack.unwind height arity = .ok left.store.stack :=
        OperandStack.unwind_self (hheight rfl)
      simp only [Machine.stack, hunwind]
      exact ⟨rfl, rfl⟩

/-- the arguments are in the locals of the function that forwards them, and off the stack -/
theorem enter_forwards (hforwards : g.Forwards i f) (hargs : args.map Val.type = f.type.params) {inst : Instance}
    (hroom : m.store.depth < inst.maxCallDepth) :
    g.enter inst { m.store with stack := m.stack.pushAll (args.map Val.toCell) } =
      .ok (.holding args,
        { m.store with
          stack := (m.stack.pushAll (args.map Val.toCell)).truncate m.stack.height, depth := m.store.depth + 1 }) := by
  obtain ⟨hpop, hvalues⟩ := m.stack.popMany_args hargs
  have hframe : Frame.enter (m.stack.pushAll (args.map Val.toCell)) g.type.params g.locals =
      .ok (.holding args, (m.stack.pushAll (args.map Val.toCell)).truncate m.stack.height) := by
    simp only [Frame.enter, hforwards.type, hforwards.locals, hpop, Except.map, Variable.arguments_eq, hvalues,
      List.map_nil, List.append_nil, Frame.holding]
  rw [Function.enter, if_neg (Nat.not_le.2 hroom), hframe]
  rfl

/-- It puts them back, and is then about to call the other function over the stack that the other one would have by itself,
one call deeper. -/
theorem forwards_lead {indices : List UInt32} (hindices : indices.map UInt32.toNat = List.range args.length)
    (inst : Instance) :
    let code : List Instr := indices.map .localGet ++ [.call i]
    let stack := m.stack.pushAll (args.map Val.toCell)
    (Progress.running (.start
        ⟨{ m.store with stack := stack.truncate m.stack.height, depth := m.store.depth + 1 },
          .holding args⟩ code)).Leads inst
      (lastCall { m with inst, store := { m.store with stack, depth := m.store.depth + 1 } }
        (.holding args) code i ⟨0x10, code.length - 1⟩) := by
  have hvalues : indices.map (fun i => (Frame.holding args).vars[i.toNat]?) = (args.map Variable.holding).map some := by
    have hrange : indices.map (fun i => (Frame.holding args).vars[i.toNat]?) =
        (List.range args.length).map fun k => (args[k]?).map Variable.holding := by
      rw [← hindices, List.map_map]
      exact List.map_congr_left fun i _ => by rw [Frame.holding, List.getElem?_toArray, List.getElem?_map]; rfl
    rw [hrange]
    refine List.ext_getElem (by simp) fun k hk _ => ?_
    rw [List.length_map, List.length_range] at hk
    rw [List.getElem_map, List.getElem_map, List.getElem_map, List.getElem_range, List.getElem?_eq_getElem hk]
    rfl
  have hcells : (args.map Variable.holding).map Variable.cell = args.map Val.toCell := List.map_map
  refine (Config.localGets_lead hvalues).trans ?_
  rw [hcells]
  rw [OperandStack.pushAll_again]
  exact Progress.leads_step _

/-- **A function that forwards its arguments comes to the same as the function that it calls**, if one more may be active -/
theorem callFunction_forwards (hf : m.inst.function i = .ok f) (hg : m.inst.function j = .ok g) (hforwards : g.Forwards i f)
    (hargs : args.map Val.type = f.type.params) (hroom : m.store.depth ≤ m.inst.maxCallDepth)
    (hown : ∀ h, f.body = .host h → h.type = f.type) :
    let called := m.withStack (m.stack.pushAll (args.map Val.toCell))
    SameAnswers (fun fuel => called.callFunction fuel i)
      (fun fuel => (called.withLimit (m.inst.maxCallDepth + 1)).callFunction fuel j) := by
  intro called
  let forwarding := called.withLimit (m.inst.maxCallDepth + 1)
  let base := (m.stack.pushAll (args.map Val.toCell)).truncate m.stack.height
  let entered : State := ⟨{ m.store with stack := base, depth := m.store.depth + 1 }, .holding args⟩
  obtain ⟨indices, hindices, hbody⟩ := hforwards.body
  let code : List Instr := indices.map .localGet ++ [.call i]
  have hlen : f.type.params.length = args.length := by rw [← hargs, List.length_map]
  have hbase : base.height = m.stack.height := by
    rw [OperandStack.height_eq, OperandStack.cells_popped, m.stack.height_eq]
  have hcalls (fuel : Nat) : forwarding.callFunction fuel j =
      (Config.run forwarding.inst fuel (.start entered code)).map
        (forwarding.returned base.height f.type.results.length) := by
    have hg : forwarding.inst.function j = .ok g := hg
    have henter : g.enter forwarding.inst forwarding.store = _ := enter_forwards hforwards hargs (Nat.lt_succ_of_le hroom)
    simp only [callFunction, hg, hbody, callGuest_eq, henter, hforwards.type]
    rfl
  have hruns {o : Outcome} : (∃ fuel, Config.run forwarding.inst fuel (.start entered code) = some o) ↔
      ∃ fuel, (called.deeper.lastCall entered.frame code i ⟨0x10, code.length - 1⟩).run forwarding.inst fuel = some o :=
    (forwards_lead (m := m) (hlen ▸ hindices) forwarding.inst).ends_iff
  have hreturned {fuel : Nat} {x : Except ExecError Unit × Machine} {o : Outcome} (hx : called.callFunction fuel i = some x)
      (hsame : SameAnswer (Prod.map id deeper x) (o.result, { called.deeper with store := o.state.store })) :
      SameAnswer x (forwarding.returned base.height f.type.results.length o) := by
    refine returned_same hsame ?_ forwarding
    intro hok
    obtain ⟨result, left⟩ := x
    obtain rfl : result = .ok () := hok
    have hf : called.inst.function i = .ok f := hf
    obtain ⟨n, hbefore, hafter⟩ := callFunction_heights hf hx hown
    have hpushed : called.stack.height = m.stack.height + (args.map Val.toCell).length := m.stack.height_pushAll _
    rw [List.length_map] at hpushed
    show left.stack.height = base.height + f.type.results.length
    omega
  obtain ⟨hforth, hback⟩ := called.deeper.lastCall_agrees entered.frame code i ⟨0x10, code.length - 1⟩
  constructor
  · intro fuel x hx
    obtain ⟨o, ho, hsame⟩ := hback fuel _ (by rw [callFunction_deeper, hx]; rfl)
    obtain ⟨fuel', hrun⟩ := hruns.2 ho
    exact ⟨fuel', _, by rw [hcalls, hrun]; rfl, hreturned hx hsame⟩
  · intro fuel y hy
    rw [hcalls] at hy
    obtain ⟨o, hrun, rfl⟩ := Option.map_eq_some_iff.1 hy
    obtain ⟨fuel', x', hx', hsame⟩ := hforth o (hruns.1 ⟨fuel, hrun⟩)
    rw [callFunction_deeper] at hx'
    obtain ⟨x, hx, rfl⟩ := Option.map_eq_some_iff.1 hx'
    exact ⟨fuel', x, hx, hreturned hx hsame⟩

/-! ## Invocations -/

/-- results are read off the stack in the same way -/
theorem call_forwards (hf : m.inst.function i = .ok f) (hg : m.inst.function j = .ok g) (hforwards : g.Forwards i f)
    (hargs : args.map Val.type = f.type.params) (hroom : m.store.depth ≤ m.inst.maxCallDepth)
    (hown : ∀ h, f.body = .host h → h.type = f.type) :
    let called := m.withStack (m.stack.pushAll (args.map Val.toCell))
    SameAnswers (fun fuel => called.call fuel i)
      (fun fuel => (called.withLimit (m.inst.maxCallDepth + 1)).call fuel j) := by
  intro called
  have hf' : called.inst.function i = .ok f := hf
  have hg' : (called.withLimit (m.inst.maxCallDepth + 1)).inst.function j = .ok g := hg
  simp only [call, hf', hg', hforwards.type]
  refine (callFunction_forwards hf hg hforwards hargs hroom hown).bind ?_
  rintro ⟨answer, left⟩ ⟨answer', left'⟩ ⟨hanswer, hstore⟩
  have hstack : left.stack = left'.stack := congrArg Store.stack hstore
  have hanswer : unsited answer = unsited answer' := hanswer
  cases answer with
  | error e =>
    cases answer' with
    | ok _ => cases hanswer
    | error e' => exact ⟨_, _, rfl, rfl, congrArg Except.error (Except.error.inj hanswer), hstore⟩
  | ok _ =>
    cases answer' with
    | error e' => cases hanswer
    | ok _ =>
      simp only [popValues, hstack]
      cases left'.stack.popMany f.type.results.length with
      | error t => exact ⟨_, _, rfl, rfl, rfl, hstore⟩
      | ok popped => exact ⟨_, _, rfl, rfl, rfl, congrArg (fun s : Store => { s with stack := popped.2 }) hstore⟩

theorem invoke_forwards {inner outer : String} (hinner : m.findExport inner = some i) (houter : m.findExport outer = some j)
    (hf : m.inst.function i = .ok f) (hg : m.inst.function j = .ok g) (hforwards : g.Forwards i f)
    (hroom : m.store.depth ≤ m.inst.maxCallDepth) (hown : ∀ h, f.body = .host h → h.type = f.type) (args : List Val) :
    SameAnswers (fun fuel => m.invoke fuel inner args)
      (fun fuel => (m.withLimit (m.inst.maxCallDepth + 1)).invoke fuel outer args) := by
  have houter' : (m.withLimit (m.inst.maxCallDepth + 1)).findExport outer = some j := houter
  have hg' : (m.withLimit (m.inst.maxCallDepth + 1)).inst.function j = .ok g := hg
  simp only [invoke, hinner, hf, houter', hg', hforwards.type]
  by_cases hargs : args.map Val.type ≠ f.type.params
  · simp only [if_pos hargs]
    have hstore : m.store = (m.withLimit (m.inst.maxCallDepth + 1)).store := rfl
    exact .failed hstore _
  · simp only [if_neg hargs]
    refine (call_forwards hf hg hforwards (Decidable.not_not.1 hargs) hroom hown).bind ?_
    rintro ⟨answer, left⟩ ⟨answer', left'⟩ ⟨hanswer, hstore⟩
    have hanswer : unsited answer = unsited answer' := hanswer
    have hcut : { left.store with stack := left.stack.truncate m.stack.height } =
        { left'.store with stack := left'.stack.truncate m.stack.height } :=
      congrArg (fun s : Store => { s with stack := s.stack.truncate m.stack.height }) hstore
    cases answer with
    | error e =>
      cases answer' with
      | ok _ => cases hanswer
      | error e' => exact ⟨_, _, rfl, rfl, hanswer, hcut⟩
    | ok _ =>
      cases answer' with
      | error e' => cases hanswer
      | ok _ => exact ⟨_, _, rfl, rfl, hanswer, hstore⟩

/-- **Values cross the boundary unchanged.** A host function that is invoked is given the arguments, bit for bit and in their
order. If it returns values of its results' types, in their order, these are answered as they are; otherwise the answer is
that they do not fit, or the trap that it raised itself. The stack is as it was before.

A function that forwards its arguments to any function of the module, of the host or of the guest, valid or not, comes to the
same as that one where one more function may be active: the same values or the same trap, over the same stack, memory and
globals, or no answer either. A host function stands under its own signature, as it is registered. -/
theorem boundary_crossing :
    (∀ (m : Machine) (name : String) (args : List Val) (i : UInt32) (f : Function) (h : HostFunc),
      m.findExport name = some i → m.inst.function i = .ok f → f.body = .host h → f.type = h.type →
      args.map Val.type = h.type.params →
      ∀ fuel, ∃ stack, stack.cells = m.stack.cells ∧
        m.invoke fuel name args =
          some (match h.run args with
            | .error t => .error (.unlocated t)
            | .ok returned =>
              if returned.values.map Val.type = h.type.results then .ok returned.values
              else .error (.unlocated .hostSignatureMismatch), m.withStack stack)) ∧
    ∀ (mod : Module) (limits : Limits) (m₀ m : Machine) (inner outer : String) (i j : UInt32) (f g : Function),
      instantiate mod limits = .ok m₀ → m₀.Later m → m.findExport inner = some i → m.findExport outer = some j →
      m.inst.function i = .ok f → m.inst.function j = .ok g → (∀ h, f.body = .host h → h.type = f.type) →
      g.Forwards i f →
      ∀ limit args, SameAnswers (fun fuel => (m.withLimit limit).invoke fuel inner args)
        (fun fuel => (m.withLimit (limit + 1)).invoke fuel outer args) := by
  constructor
  · intro m name args i f h hname hf hbody hown hargs fuel
    obtain ⟨stack, hcells, hinvoke⟩ := invoke_host hname hf hbody hown hargs fuel
    refine ⟨stack, hcells, hinvoke.trans ?_⟩
    unfold HostFunc.answer
    cases h.run args with
    | error t => rfl
    | ok returned =>
      dsimp only
      split <;> rfl
  · intro mod limits m₀ m inner outer i j f g hm hl hinner houter hf hg hown hforwards limit args
    have hdepth : m.store.depth = 0 := ((instantiate_built hm).1.later hl).depth
    have hroom : (m.withLimit limit).store.depth ≤ (m.withLimit limit).inst.maxCallDepth := by
      show m.store.depth ≤ limit
      rw [hdepth]
      exact Nat.zero_le _
    exact invoke_forwards (m := m.withLimit limit) hinner houter hf hg hforwards hroom hown args

/-- a host function that swaps its arguments -/
def swap : HostFunc :=
  ⟨⟨[.i32, .f32], [.f32, .i32]⟩, fun args => .ok (.tuple args.reverse)⟩

/-- that function, and one that forwards its arguments to it -/
def swapping : Module :=
  { Module.empty with
    pages := 0
    functions := #[.ofHost "swap" swap, .guest "forward" swap.type [] [.localGet 0, .localGet 1, .call 0]]
    exports := #[("swap", 0), ("forward", 1)] }

/-- It swaps a number and a NaN with a payload, invoked by itself where no function may be active, and through the function that
forwards its arguments where one may. -/
theorem boundary_crossing_swapping :
    ∃ m, instantiate swapping ⟨none, 1, 0⟩ = .ok m ∧
      (∃ stack, stack.cells = [] ∧
        m.invoke 0 "swap" [.i32 5, .f32 0x7fa00001] = some (.ok [.f32 0x7fa00001, .i32 5], m.withStack stack)) ∧
      ∃ fuel result left, (m.withLimit 1).invoke fuel "forward" [.i32 5, .f32 0x7fa00001] = some (result, left) ∧
        unsited result = .ok [.f32 0x7fa00001, .i32 5] ∧ left.stack.cells = [] := by
  obtain ⟨m, hm, hswap, hforward, hf, hg⟩ : ∃ m, instantiate swapping ⟨none, 1, 0⟩ = .ok m ∧
      m.findExport "swap" = some 0 ∧ m.findExport "forward" = some 1 ∧
      m.inst.function 0 = .ok (.ofHost "swap" swap) ∧
      m.inst.function 1 = .ok (.guest "forward" swap.type [] [.localGet 0, .localGet 1, .call 0]) :=
    ⟨_, rfl, by decide, by decide, rfl, rfl⟩
  obtain ⟨hhost, hforwards⟩ := boundary_crossing
  obtain ⟨stack, hcells, hinvoke⟩ := hhost m "swap" [.i32 5, .f32 0x7fa00001] 0 _ swap hswap hf rfl rfl rfl 0
  have hempty : stack.cells = [] := by
    rw [hcells]
    cases hm
    rfl
  refine ⟨m, hm, ⟨stack, hempty, hinvoke⟩, ?_⟩
  have hsame := hforwards swapping _ m m "swap" "forward" 0 1 _ _ hm .refl hswap hforward hf hg (by rintro _ ⟨⟩; rfl)
    ⟨rfl, rfl, [0, 1], rfl, rfl⟩ 0 [.i32 5, .f32 0x7fa00001]
  have hlimit : m.withLimit 0 = m := by
    cases hm
    rfl
  rw [hlimit] at hsame
  obtain ⟨fuel, ⟨result, left⟩, hleft, hanswer, hstore⟩ := hsame.forth 0 _ hinvoke
  refine ⟨fuel, result, left, hleft, hanswer.symm, ?_⟩
  have hstack : stack = left.stack := congrArg Store.stack hstore
  rw [← hstack, hempty]

/-- **Where forwarding makes a difference.** A host function under another signature answers with a cell that was on the stack
before, and the function that forwards to it finds that its own results are missing. And a limit of calls is a word: the one
after the largest is zero, under which the host function can still be invoked, and nothing that forwards to it. -/
theorem boundary_not_crossed :
    ((∀ f ∈ disguised.functions, f.ValidCode disguised.scope) ∧
      instantiate disguised ⟨none, 4, 2⟩ = .ok (disguisedWith []) ∧
      (∃ f g, (disguisedWith [5]).inst.function 0 = .ok f ∧ (disguisedWith [5]).inst.function 1 = .ok g ∧ g.Forwards 0 f) ∧
      ((disguisedWith [5]).withLimit 1).invoke 3 "h" [] = some (.ok [.i32 5], (disguisedWith []).withLimit 1) ∧
      ((disguisedWith [5]).withLimit 2).invoke 3 "g" [] =
        some (.error (.unlocated (.stackUnderflow 2 1)), disguisedWith [5])) ∧
    ∃ m, instantiate swapping ⟨none, 4, 0⟩ = .ok m ∧
      ((m.withLimit (UInt64.size - 1)).invoke 5 "swap" [.i32 5, .f32 1]).map Prod.fst = some (.ok [.f32 1, .i32 5]) ∧
      ((m.withLimit ((UInt64.ofNat (UInt64.size - 1) + 1).toNat)).invoke 5 "forward" [.i32 5, .f32 1]).map Prod.fst =
        some (.error (.unlocated .callStackExhausted)) := by
  refine ⟨⟨disguised_validCode, rfl, ⟨_, _, rfl, rfl, rfl, rfl, [], rfl, rfl⟩, rfl, rfl⟩, _, rfl, ?_, ?_⟩
  · decide
  · decide

end Machine

end WasmCore
