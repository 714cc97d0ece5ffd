/-
Requests without loops.

A request comes to its answer if there is no loop in the functions of the machine and in the sequence that it may bring
along, whatever else they do: they may branch anywhere, call each other directly and through tables, without end if it were
not for the limit on nested calls, and need not be valid. `Machine.stepBound` is a number of steps that suffices. It depends
on the code and on how many calls are left (`Instance.callWeight`), and on nothing else in the machine or the request.
-/
import WasmCore.Proofs.Embedding.Requests
import WasmCore.Proofs.Termination.LoopFree

namespace WasmCore

/-- the request brings no loop along -/
def Request.LoopFree : Request → Prop
  | .execute code _ => Instr.LoopFree code
  | _ => True

namespace Machine

/-- how many more calls may be nested -/
def callsLeft (m : Machine) : Nat :=
  m.inst.maxCallDepth - m.store.depth

/-- steps that suffice for the answer to a request without loops -/
def stepBound (m : Machine) : Request → Nat
  | .execute code _ => Instr.weightAll (m.inst.callWeight m.callsLeft) code + 1
  | _ => m.inst.callWeight m.callsLeft

variable {m : Machine}

theorem execute_ends (hm : m.inst.LoopFree) {code : List Instr} (hcode : Instr.LoopFree code) (frame : Frame) :
    ∃ answer, ∀ fuel, Instr.weightAll (m.inst.callWeight m.callsLeft) code + 1 ≤ fuel →
      m.execute fuel code frame = some answer := by
  obtain ⟨o, ho⟩ := Config.start_ends hm hcode ⟨m.store, frame⟩
  exact ⟨_, fun fuel hfuel => by rw [execute, ho fuel hfuel, Option.map_some]⟩

theorem callFunction_ends (hm : m.inst.LoopFree) (i : UInt32) :
    ∃ answer, ∀ fuel, m.inst.callWeight m.callsLeft ≤ fuel → m.callFunction fuel i = some answer := by
  cases hf : m.inst.function i with
  | error t => exact ⟨_, fun fuel _ => by simp only [callFunction, hf]; rfl⟩
  | ok f =>
    cases hbody : f.body with
    | host host => exact ⟨_, fun fuel _ => by simp only [callFunction, hf, hbody]; rfl⟩
    | code code =>
      cases henter : f.enter m.inst m.store with
      | error t => exact ⟨_, fun fuel _ => by simp only [callFunction, hf, hbody, callGuest_eq, henter]; rfl⟩
      | ok entered =>
        obtain ⟨frame, store⟩ := entered
        obtain ⟨hlt, stack, -, hstore⟩ := Function.enter_ok henter
        have hmem : f ∈ m.inst.functions := Array.mem_of_getElem? (Instance.function_ok_iff.1 hf)
        obtain ⟨o, ho⟩ := Config.start_ends hm (hm f hmem code hbody) ⟨store, frame⟩
        have hdepth : store.depth = m.store.depth + 1 := by rw [hstore]
        have hleft : m.callsLeft = m.inst.maxCallDepth - store.depth + 1 := by
          rw [callsLeft, hdepth]
          omega
        refine ⟨m.returned store.stack.height f.type.results.length o, fun fuel hfuel => ?_⟩
        have hle := Instance.weight_le_callWeight hmem hbody (m.inst.maxCallDepth - store.depth)
        rw [hleft] at hfuel
        simp only [callFunction, hf, hbody, callGuest_eq, henter, ho fuel (Nat.le_trans hle hfuel), Option.map_some]

theorem call_ends (hm : m.inst.LoopFree) (i : UInt32) :
    ∃ answer, ∀ fuel, m.inst.callWeight m.callsLeft ≤ fuel → m.call fuel i = some answer := by
  unfold call
  cases m.inst.function i with
  | error t => exact ⟨_, fun _ _ => rfl⟩
  | ok f =>
    obtain ⟨⟨result, m'⟩, hcall⟩ := callFunction_ends hm i
    cases result with
    | error e => exact ⟨(.error e, m'), fun fuel hfuel => by simp only [hcall fuel hfuel, Option.bind_some]⟩
    | ok _ =>
      cases hpop : m'.popValues f.type.results with
      | error t => exact ⟨_, fun fuel hfuel => by simp only [hcall fuel hfuel, Option.bind_some, hpop]; rfl⟩
      | ok popped =>
        obtain ⟨vs, m''⟩ := popped
        exact ⟨(.ok vs, m''), fun fuel hfuel => by simp only [hcall fuel hfuel, Option.bind_some, hpop]⟩

theorem callIndirect_ends (hm : m.inst.LoopFree) (tableIndex : UInt32) (declared : FuncType) :
    ∃ answer, ∀ fuel, m.inst.callWeight m.callsLeft ≤ fuel → m.callIndirect fuel tableIndex declared = some answer := by
  unfold callIndirect
  cases m.stack.pop with
  | error t => exact ⟨_, fun _ _ => rfl⟩
  | ok popped =>
    obtain ⟨slot, stack⟩ := popped
    dsimp only
    cases (m.withStack stack).inst.resolve tableIndex slot.index declared with
    | error t => exact ⟨_, fun _ _ => rfl⟩
    | ok i => exact call_ends (m := m.withStack stack) hm i

theorem invoke_ends (hm : m.inst.LoopFree) (name : String) (args : List Val) :
    ∃ answer, ∀ fuel, m.inst.callWeight m.callsLeft ≤ fuel → m.invoke fuel name args = some answer := by
  unfold invoke
  cases m.findExport name with
  | none => exact ⟨_, fun _ _ => rfl⟩
  | some i =>
    dsimp only
    cases m.inst.function i with
    | error t => exact ⟨_, fun _ _ => rfl⟩
    | ok f =>
      dsimp only
      by_cases hargs : args.map Val.type ≠ f.type.params
      · exact ⟨_, fun _ _ => if_pos hargs⟩
      · obtain ⟨⟨result, m'⟩, hcall⟩ :=
          call_ends (m := m.withStack (m.stack.pushAll (args.map Val.toCell))) hm i
        simp only [if_neg hargs]
        cases result with
        | ok vs => exact ⟨_, fun fuel hfuel => by rw [hcall fuel hfuel, Option.bind_some]⟩
        | error e => exact ⟨_, fun fuel hfuel => by rw [hcall fuel hfuel, Option.bind_some]⟩

/-- **Without loops, every request is answered.** No function of the machine and no sequence that it is asked to execute
contains a loop; apart from that the code, the state of the machine and the limit on nested calls are arbitrary. Then there
is one answer, a success or a trap, that is reached within `stepBound` steps. -/
theorem loopFree_answered {request : Request} (hm : m.inst.LoopFree) (hr : request.LoopFree) :
    ∃ result m', ∀ fuel, m.stepBound request ≤ fuel → m.perform fuel request = some (result, m') := by
  cases request with
  | invoke name args =>
    obtain ⟨⟨result, m'⟩, h⟩ := invoke_ends hm name args
    exact ⟨result, m', h⟩
  | call i =>
    obtain ⟨⟨result, m'⟩, h⟩ := call_ends hm i
    exact ⟨result, m', h⟩
  | callIndirect tableIndex declared =>
    obtain ⟨⟨result, m'⟩, h⟩ := callIndirect_ends hm tableIndex declared
    exact ⟨result, m', h⟩
  | execute code frame =>
    obtain ⟨⟨result, frame', m'⟩, h⟩ := execute_ends hm hr frame
    exact ⟨result.map fun _ => [], m', fun fuel hfuel => by rw [perform, h fuel hfuel, Option.map_some]⟩

/-- two functions that call each other, the first one twice, where three calls may be nested -/
theorem loopFree_answered_mutual : ∃ m : Machine,
    instantiate { Module.empty with
      pages := 0, functions := #[.guest "even" ⟨[], []⟩ [] [.call 1, .call 1], .guest "odd" ⟨[], []⟩ [] [.call 0]] }
      ⟨none, 1, 3⟩ = .ok m ∧
    ∃ result m', ∀ fuel, 21 ≤ fuel → m.perform fuel (.call 0) = some (result, m') := by
  obtain ⟨m, hm, hinst, hdepth⟩ : ∃ m : Machine,
      instantiate { Module.empty with
        pages := 0, functions := #[.guest "even" ⟨[], []⟩ [] [.call 1, .call 1], .guest "odd" ⟨[], []⟩ [] [.call 0]] }
        ⟨none, 1, 3⟩ = .ok m ∧
      m.inst = ⟨#[], #[.guest "even" ⟨[], []⟩ [] [.call 1, .call 1], .guest "odd" ⟨[], []⟩ [] [.call 0]], #[], 3⟩ ∧
      m.store.depth = 0 := ⟨_, rfl, rfl, rfl⟩
  have hloopFree : m.inst.LoopFree := by
    intro f hf code hcode
    rw [hinst] at hf
    simp only [List.mem_toArray, List.mem_cons, List.not_mem_nil, or_false] at hf
    rcases hf with rfl | rfl <;>
    · cases hcode
      simp [Instr.LoopFree, Instr.flattenAll, Instr.flatten]
  have hbound : m.stepBound (.call 0) = 21 := by
    simp [stepBound, callsLeft, hinst, hdepth, Instance.callWeight, Function.weight, Function.guest, Instr.weightAll, Instr.weight]
  have hcall : (Request.call 0).LoopFree := trivial
  obtain ⟨result, m', h⟩ := loopFree_answered hloopFree hcall
  rw [hbound] at h
  exact ⟨m, hm, result, m', h⟩

end Machine

end WasmCore
