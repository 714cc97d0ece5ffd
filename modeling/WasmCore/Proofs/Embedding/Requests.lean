/-
How an embedding program uses a machine.

A `Request` is one of the four calls that run code. Between requests the embedding program may also change the stack, the
bytes of the memory, its size, globals and tables; `Machine.Later` is any number of these uses one after another, in any
order, whether they succeed or fail. `Machine.perform_evolves` carries what runs may change (`Proofs.Steps`) over to
requests: these leave the instance and the exports alone, for any module and any request.
-/
import WasmCore.Proofs.Steps

namespace WasmCore

/-! ## Requests and uses -/

/-- a call that runs code on a machine -/
inductive Request where
  | invoke (name : String) (args : List Val)
  | call (index : UInt32)
  | callIndirect (tableIndex : UInt32) (declared : FuncType)
  | execute (code : List Instr) (frame : Frame)

namespace Machine

/-- what the machine answers to a request within so many steps; a sequence of its own answers no values -/
def perform (fuel : Nat) (m : Machine) : Request → Bounded (List Val)
  | .invoke name args => m.invoke fuel name args
  | .call index => m.call fuel index
  | .callIndirect tableIndex declared => m.callIndirect fuel tableIndex declared
  | .execute code frame => (m.execute fuel code frame).map fun (result, _, m) => (result.map fun _ => [], m)

/-- one use of a machine by the embedding program, which changes the size of the memory only by growing it -/
inductive Use : Machine → Machine → Prop
  | request {m m' : Machine} {fuel : Nat} {request : Request} {result : Except ExecError (List Val)}
      (h : m.perform fuel request = some (result, m')) : Use m m'
  | setStack {m : Machine} (stack : OperandStack) : Use m (m.withStack stack)
  | writeMemory {m : Machine} {memory : Memory} (size : memory.size = m.memory.size)
      (maxPages : memory.maxPages = m.memory.maxPages) : Use m (m.withMemory memory)
  | growMemory {m : Machine} {memory : Memory} {delta before : Nat} (h : m.memory.grow delta = .ok (before, memory)) :
      Use m (m.withMemory memory)
  | setGlobal {m m' : Machine} {i : UInt32} {v : Val} (h : m.setGlobal i v = .ok m') : Use m m'
  | setTable {m : Machine} {i : UInt32} (t : Table) : Use m (m.withTable i t)

/-- the machine after any uses -/
abbrev Later : Machine → Machine → Prop :=
  Relation.ReflTransGen Use

end Machine

/-! ## What requests may change -/

namespace Machine

/-- a global that could be written by the embedding program -/
theorem setGlobal_eq {m m' : Machine} {i : UInt32} {v : Val} (h : m.setGlobal i v = .ok m') :
    m' = { m with store := m.store.writeGlobal i v.toCell } := by
  simp only [setGlobal, bind, Except.bind] at h
  split at h
  · cases h
  · split at h
    · cases h
    · cases h
      rfl

/-- a machine of the same instance and exports, whose store has changed as instructions change it -/
structure Evolves (m m' : Machine) : Prop where
  inst : m'.inst = m.inst
  exports : m'.exports = m.exports
  store : m.store.Evolves m'.store

variable {m m' m'' : Machine} {fuel : Nat}

theorem Evolves.refl (m : Machine) : m.Evolves m :=
  ⟨rfl, rfl, .refl⟩

theorem Evolves.trans (h : m.Evolves m') (h' : m'.Evolves m'') : m.Evolves m'' :=
  ⟨h'.inst.trans h.inst, h'.exports.trans h.exports, h.store.trans h'.store⟩

theorem withStack_evolves (m : Machine) (stack : OperandStack) : m.Evolves (m.withStack stack) :=
  ⟨rfl, rfl, .single (.stack stack)⟩

theorem execute_evolves {code : List Instr} {frame frame' : Frame} {result : Except ExecError Unit}
    (h : m.execute fuel code frame = some (result, frame', m')) : m.Evolves m' := by
  simp only [execute, Option.map_eq_some_iff] at h
  obtain ⟨o, hrun, heq⟩ := h
  cases heq
  exact ⟨rfl, rfl, Config.run_evolves hrun⟩

theorem returned_evolves (m : Machine) (height arity : Nat) (o : Outcome) (h : m.store.Evolves o.state.store) :
    m.Evolves (m.returned height arity o).2 := by
  have hleft : m.Evolves { m with store := { o.state.store with depth := o.state.store.depth - 1 } } :=
    ⟨rfl, rfl, h.tail (.depth _)⟩
  unfold returned
  cases o.result with
  | error e => exact hleft
  | ok _ =>
    dsimp only
    cases OperandStack.unwind _ height arity with
    | error t => exact hleft
    | ok stack => exact hleft.trans (withStack_evolves _ stack)

theorem callFunction_evolves {i : UInt32} {result : Except ExecError Unit}
    (h : m.callFunction fuel i = some (result, m')) : m.Evolves m' := by
  rcases callFunction_cases h with ⟨stack, rfl⟩ | ⟨f, code, frame, store, o, -, -, henter, hrun, hreturned⟩
  · exact m.withStack_evolves stack
  · obtain ⟨-, stack, -, rfl⟩ := Function.enter_ok henter
    have hentered : m.store.Evolves { m.store with stack, depth := m.store.depth + 1 } :=
      (Relation.ReflTransGen.single (.stack stack)).tail (.depth _)
    have h := m.returned_evolves stack.height f.type.results.length o (hentered.trans (Config.run_evolves hrun))
    rw [hreturned] at h
    exact h

/-! ## What a request comes to -/

/-- What a call that is done has come to: it has replaced the stack, and in between it has entered one function at most. -/
inductive Serves (fuel : Nat) (m : Machine) : Machine → Prop
  | stack (stack : OperandStack) : Serves fuel m (m.withStack stack)
  | function {before : OperandStack} {i : UInt32} {result : Except ExecError Unit} {m' : Machine}
      (h : (m.withStack before).callFunction fuel i = some (result, m')) (after : OperandStack) :
      Serves fuel m (m'.withStack after)

theorem Serves.refl (m : Machine) : m.Serves fuel m :=
  .stack m.stack

theorem Serves.before {stack : OperandStack} (h : (m.withStack stack).Serves fuel m') : m.Serves fuel m' := by
  cases h with
  | stack after => exact .stack after
  | @function before _ _ _ h after =>
    have h : (m.withStack before).callFunction fuel _ = _ := h
    exact .function h after

theorem Serves.after (h : m.Serves fuel m') (stack : OperandStack) : m.Serves fuel (m'.withStack stack) := by
  cases h with
  | stack _ => exact .stack stack
  | function h _ => exact .function h stack

theorem call_serves {i : UInt32} {result : Except ExecError (List Val)} (h : m.call fuel i = some (result, m')) :
    m.Serves fuel m' := by
  unfold call at h
  cases hf : m.inst.function i with
  | error t =>
    rw [hf] at h
    cases h
    exact .refl m
  | ok f =>
    simp only [hf, Option.bind_eq_some_iff] at h
    obtain ⟨⟨answer, m₁⟩, hcall, h⟩ := h
    have hm₁ : m.Serves fuel m₁ := .function hcall m₁.stack
    cases answer with
    | error e =>
      cases h
      exact hm₁
    | ok _ =>
      simp only [popValues] at h
      cases hp : m₁.stack.popMany f.type.results.length with
      | error t =>
        rw [hp] at h
        cases h
        exact hm₁
      | ok popped =>
        rw [hp] at h
        cases h
        exact hm₁.after _

theorem callIndirect_serves {tableIndex : UInt32} {declared : FuncType} {result : Except ExecError (List Val)}
    (h : m.callIndirect fuel tableIndex declared = some (result, m')) : m.Serves fuel m' := by
  unfold callIndirect at h
  cases hp : m.stack.pop with
  | error t =>
    rw [hp] at h
    cases h
    exact .refl m
  | ok popped =>
    obtain ⟨slot, stack⟩ := popped
    simp only [hp] at h
    cases hr : (m.withStack stack).inst.resolve tableIndex slot.index declared with
    | error t =>
      rw [hr] at h
      cases h
      exact .stack stack
    | ok i =>
      rw [hr] at h
      exact (call_serves h).before

/-- An invocation has been refused, and then the machine is as it was; or it has called a function with the arguments on the
stack, and cut the stack if that failed. -/
theorem invoke_cases {name : String} {args : List Val} {result : Except ExecError (List Val)}
    (h : m.invoke fuel name args = some (result, m')) :
    (∃ t, result = .error (.unlocated t) ∧ m' = m) ∨
    ∃ i f m₁, m.findExport name = some i ∧ m.inst.function i = .ok f ∧ args.map Val.type = f.type.params ∧
      (m.withStack (m.stack.pushAll (args.map Val.toCell))).call fuel i = some (result, m₁) ∧
      ((∃ vs, result = .ok vs ∧ m' = m₁) ∨
        ∃ e, result = .error e ∧ m' = m₁.withStack (m₁.stack.truncate m.stack.height)) := by
  unfold invoke at h
  cases hname : m.findExport name with
  | none =>
    rw [hname] at h
    cases h
    exact .inl ⟨_, rfl, rfl⟩
  | some i =>
    simp only [hname] at h
    cases hf : m.inst.function i with
    | error t =>
      rw [hf] at h
      cases h
      exact .inl ⟨_, rfl, rfl⟩
    | ok f =>
      simp only [hf] at h
      by_cases hargs : args.map Val.type ≠ f.type.params
      · rw [if_pos hargs] at h
        cases h
        exact .inl ⟨_, rfl, rfl⟩
      · rw [if_neg hargs, Option.bind_eq_some_iff] at h
        obtain ⟨⟨answer, m₁⟩, hcall, h⟩ := h
        refine .inr ⟨i, f, m₁, rfl, hf, Decidable.not_not.1 hargs, ?_⟩
        cases answer with
        | ok vs =>
          cases h
          exact ⟨hcall, .inl ⟨vs, rfl, rfl⟩⟩
        | error e =>
          cases h
          exact ⟨hcall, .inr ⟨e, rfl, rfl⟩⟩

theorem invoke_serves {name : String} {args : List Val} {result : Except ExecError (List Val)}
    (h : m.invoke fuel name args = some (result, m')) : m.Serves fuel m' := by
  rcases invoke_cases h with ⟨t, -, rfl⟩ | ⟨i, f, m₁, -, -, -, hcall, hleft⟩
  · exact .refl m'
  · have hm₁ : m.Serves fuel m₁ := (call_serves hcall).before
    rcases hleft with ⟨vs, -, rfl⟩ | ⟨e, -, rfl⟩
    · exact hm₁
    · exact hm₁.after _

/-- every request is a call in this sense, or a sequence of its own -/
theorem perform_serves {request : Request} {result : Except ExecError (List Val)}
    (h : m.perform fuel request = some (result, m')) :
    m.Serves fuel m' ∨ ∃ code frame answer frame', m.execute fuel code frame = some (answer, frame', m') := by
  cases request with
  | invoke name args => exact .inl (invoke_serves h)
  | call i => exact .inl (call_serves h)
  | callIndirect tableIndex declared => exact .inl (callIndirect_serves h)
  | execute code frame =>
    simp only [perform, Option.map_eq_some_iff] at h
    obtain ⟨⟨answer, frame', m₁⟩, hexec, heq⟩ := h
    cases heq
    exact .inr ⟨code, frame, answer, frame', hexec⟩

/-- **A request leaves the instance and the exports as they are**, and changes the store as instructions do -/
theorem perform_evolves {request : Request} {result : Except ExecError (List Val)}
    (h : m.perform fuel request = some (result, m')) : m.Evolves m' := by
  rcases perform_serves h with hserves | ⟨code, frame, answer, frame', hexec⟩
  · cases hserves with
    | stack stack => exact m.withStack_evolves stack
    | function hcall after =>
      have hcalled : m.Evolves _ := (m.withStack_evolves _).trans (callFunction_evolves hcall)
      exact hcalled.trans (withStack_evolves _ after)
  · exact execute_evolves hexec

end Machine

end WasmCore
