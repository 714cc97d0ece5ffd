/-
Invocations over more cells.

What `Config.run_over` says of the runs of valid code is carried here to the calls by which an embedding program starts
one. `n` is `m` over the cells `base` (`Machine.Over`) if they are the same machine, with these cells underneath the stack;
a call whose arguments are all that `m` has on its stack then answers alike on both. Hence two invocations on machines
that differ in their stacks only answer alike as well (`Machine.invoke_isolated`).
-/
import WasmCore.Proofs.Isolation.Run
import WasmCore.Proofs.Typing.Soundness

namespace WasmCore

variable {base : List Cell}

namespace Machine

/-- the same machine with the cells `base` underneath its stack -/
structure Over (base : List Cell) (m n : Machine) : Prop where
  inst : n.inst = m.inst
  exports : n.exports = m.exports
  store : m.store.Over base n.store

/-- the same answer of the same machine, over the cells `base` -/
def AnswersOver {α : Type} (base : List Cell) (a b : Except ExecError α × Machine) : Prop :=
  b.1 = a.1 ∧ a.2.Over base b.2

variable {mod : Module} {m n : Machine} {args : List Cell} {f : Function} {fuel : Nat}

theorem Over.withStack (h : m.Over base n) {s t : OperandStack} (hst : s.Over base t) :
    (m.withStack s).Over base (n.withStack t) :=
  ⟨h.inst, h.exports, hst, h.store.memory, h.store.globals, h.store.depth⟩

theorem Over.failed {α : Type} (h : m.Over base n) (e : Trap) :
    Option.Rel (AnswersOver base) (m.failed e : Bounded α) (n.failed e) :=
  .some ⟨rfl, h⟩

theorem Over.returned (h : m.Over base n) {o p : Outcome} (hop : o.Over base p) {height arity : Nat}
    (hresults : o.result = .ok () → height + arity ≤ o.state.store.stack.height) :
    AnswersOver base (m.returned height arity o) (n.returned (height + base.length) arity p) := by
  have hleft : Over base { m with store := { o.state.store with depth := o.state.store.depth - 1 } }
      { n with store := { p.state.store with depth := p.state.store.depth - 1 } } :=
    ⟨h.inst, h.exports, hop.state.store.stack, hop.state.store.memory, hop.state.store.globals,
      congrArg (· - 1) hop.state.store.depth⟩
  unfold Machine.returned
  rw [hop.result]
  cases hresult : o.result with
  | error e => exact ⟨rfl, hleft⟩
  | ok _ =>
    obtain ⟨s, hs⟩ := OperandStack.unwind_of_le (hresults hresult)
    obtain ⟨t, ht, hst⟩ := hop.state.store.stack.unwind hs
    simp only [Machine.stack, hs, ht]
    exact ⟨rfl, hleft.withStack hst⟩

theorem height_args (hm : m.Of mod args) (hargs : Cells args f.type.ins) : m.stack.height = f.type.params.length := by
  rw [m.stack.height_eq, hm.stack, hargs.length_eq, FuncType.length_ins]

/-- a body starts well typed, over nothing, when its arguments were all there was on the stack -/
theorem start_typed (hv : mod.Valid) (hm : m.Of mod args) (hmem : f ∈ mod.functions) {code : List Instr}
    (hbody : f.body = .code code) (hargs : Cells args f.type.ins) {frame : Frame} {s : Store}
    (henter : f.enter m.inst m.store = .ok (frame, s)) :
    Config.Typed mod.scope [] f.type.outs (.start ⟨s, frame⟩ code) ∧ s.stack.height = 0 := by
  have hvalid := (hv.functions f hmem).code code hbody
  have hlen : args.length = f.type.params.length := by
    rw [hargs.length_eq, FuncType.length_ins]
  have hcells : m.stack.cells = args ++ [] := by
    rw [hm.stack, List.append_nil]
  have hrest := Function.enter_under henter hlen hcells
  obtain ⟨-, stack, hstack, rfl⟩ := Function.enter_ok henter
  refine ⟨?_, by rw [stack.height_eq, hrest, List.length_nil]⟩
  exact ⟨f.place mod.scope, 0, _, [], [], [], rfl, .start hvalid, .outermost, ⟨[], hrest, .nil⟩, Frame.types_enter hstack,
    hm.globals⟩

theorem callGuest_over (hv : mod.Valid) (hm : m.Of mod args) (hmem : f ∈ mod.functions) {code : List Instr}
    (hbody : f.body = .code code) (hargs : Cells args f.type.ins) (h : m.Over base n) (fuel : Nat) :
    Option.Rel (AnswersOver base) (m.callGuest fuel f code) (n.callGuest fuel f code) := by
  have hlen : f.type.params.length ≤ m.store.stack.height := Nat.le_of_eq (height_args hm hargs).symm
  rw [callGuest_eq, callGuest_eq, h.inst]
  rcases f.enter_over m.inst h.store hlen with ⟨e, hs, ht⟩ | ⟨frame, s, t, hs, ht, hst⟩
  · rw [hs, ht]
    exact h.failed e
  · rw [hs, ht]
    obtain ⟨htyped, hheight⟩ := start_typed hv hm hmem hbody hargs hs
    have hfits : m.inst.Fits mod.scope := hv.fits hm.types hm.functions hm.tables
    have hstart : Config.Over base (.start ⟨s, frame⟩ code) (.start ⟨t, frame⟩ code) := ⟨⟨hst, rfl⟩, rfl, rfl⟩
    have hruns := Config.run_over hfits htyped hstart fuel
    have hend (o : Outcome) := @Config.run_typed _ _ _ _ _ hfits fuel _ o htyped False.elim
    dsimp only
    generalize Config.run m.inst fuel (.start ⟨s, frame⟩ code) = p at hruns hend
    generalize Config.run m.inst fuel (.start ⟨t, frame⟩ code) = q at hruns
    cases hruns with
    | none => exact .none
    | @some o o' ho =>
      refine .some ?_
      rw [hst.stack.height]
      -- the body is valid, so it has left its results
      refine h.returned ho fun hresult => ?_
      have ho := hend o rfl
      simp only [Outcome.Typed, hresult] at ho
      obtain ⟨P, extra, -, hstate⟩ := ho
      rw [hstate.height_eq, hheight, List.length_append, FuncType.length_outs]
      omega

theorem callFunction_over (hv : mod.Valid) (hm : m.Of mod args) {i : UInt32} (hf : m.inst.function i = .ok f)
    (hmem : f ∈ mod.functions) (hargs : Cells args f.type.ins) (h : m.Over base n) (fuel : Nat) :
    Option.Rel (AnswersOver base) (m.callFunction fuel i) (n.callFunction fuel i) := by
  unfold callFunction
  rw [h.inst]
  simp only [hf]
  cases hbody : f.body with
  | code code => exact callGuest_over hv hm hmem hbody hargs h fuel
  | host host =>
    have hlen : host.type.params.length ≤ m.stack.height := by
      rw [(hv.functions f hmem).host host hbody]
      exact Nat.le_of_eq (height_args hm hargs).symm
    have hstack : m.stack.Over base n.stack := h.store.stack
    obtain ⟨result, s, t, hs, ht, hst⟩ := host.call_over hstack hlen
    simp only [hs, ht]
    exact .some ⟨rfl, h.withStack hst⟩

theorem call_over (hv : mod.Valid) (hm : m.Of mod args) {i : UInt32} (hf : m.inst.function i = .ok f)
    (hmem : f ∈ mod.functions) (hargs : Cells args f.type.ins) (h : m.Over base n) (fuel : Nat) :
    Option.Rel (AnswersOver base) (m.call fuel i) (n.call fuel i) := by
  have hcalls := callFunction_over hv hm hf hmem hargs h fuel
  have hof : m.Of mod (args ++ []) := by
    rw [List.append_nil]
    exact hm
  have hanswered (result : Except ExecError Unit) (m' : Machine) :=
    @callFunction_typed mod m m' [] fuel hv args hof i f hf hmem hargs result
  unfold call
  rw [h.inst]
  simp only [hf]
  generalize m.callFunction fuel i = p at hcalls hanswered
  generalize n.callFunction fuel i = q at hcalls
  cases hcalls with
  | none => exact .none
  | @some a b hab =>
    obtain ⟨result, m'⟩ := a
    obtain ⟨result', n'⟩ := b
    obtain ⟨rfl, h'⟩ := hab
    have ha := hanswered result' m' rfl
    cases result' with
    | error e => exact .some ⟨rfl, h'⟩
    | ok _ =>
      obtain ⟨top, hm', htop⟩ := ha
      have hle : f.type.results.length ≤ m'.stack.height := by
        refine Nat.le_of_eq (Eq.symm ?_)
        rw [m'.stack.height_eq, hm'.stack, List.append_nil, htop.length_eq, FuncType.length_outs]
      have hstack : m'.stack.Over base n'.stack := h'.store.stack
      obtain ⟨cs, s, hs⟩ := OperandStack.popMany_of_le hle
      obtain ⟨t, ht, hst⟩ := hstack.popMany hs
      simp only [Option.bind_some, popValues, hs, ht]
      exact .some ⟨rfl, h'.withStack hst⟩

theorem mem_of_function (hm : m.Of mod args) {i : UInt32} (hf : m.inst.function i = .ok f) : f ∈ mod.functions := by
  unfold Instance.function at hf
  rw [hm.functions] at hf
  split at hf
  · rename_i g hg
    cases hf
    exact Array.mem_of_getElem? hg
  · cases hf

theorem invoke_over (hv : mod.Valid) (hm : m.Of mod []) (h : m.Over base n) (fuel : Nat) (name : String)
    (args : List Val) : Option.Rel (AnswersOver base) (m.invoke fuel name args) (n.invoke fuel name args) := by
  have hstack : m.stack.Over base n.stack := h.store.stack
  have hempty : m.stack.height = 0 := by
    rw [m.stack.height_eq, hm.stack, List.length_nil]
  have hexport : n.findExport name = m.findExport name := by
    rw [findExport, findExport, h.exports]
  unfold invoke
  rw [hexport, h.inst]
  cases m.findExport name with
  | none => exact h.failed _
  | some i =>
    dsimp only
    cases hf : m.inst.function i with
    | error t => exact h.failed t
    | ok f =>
      dsimp only
      by_cases hargs : args.map Val.type ≠ f.type.params
      · rw [if_pos hargs, if_pos hargs]
        exact h.failed _
      · rw [if_neg hargs, if_neg hargs]
        have hcells : Cells (args.map Val.toCell).reverse f.type.ins := by
          rw [FuncType.ins, ← Decidable.not_not.1 hargs]
          exact List.rel_reverse (Cells.map_toCell args)
        have hpushed : (m.withStack (m.stack.pushAll (args.map Val.toCell))).Of mod (args.map Val.toCell).reverse := by
          apply hm.withStack
          rw [OperandStack.cells_pushAll, hm.stack, List.append_nil]
        have hover := h.withStack (hstack.pushAll (args.map Val.toCell))
        have hcalls := call_over hv hpushed hf (mem_of_function hm hf) hcells hover fuel
        generalize (m.withStack (m.stack.pushAll (args.map Val.toCell))).call fuel i = p at hcalls
        generalize (n.withStack (n.stack.pushAll (args.map Val.toCell))).call fuel i = q at hcalls
        cases hcalls with
        | none => exact .none
        | @some a b hab =>
          obtain ⟨result, m'⟩ := a
          obtain ⟨result', n'⟩ := b
          obtain ⟨rfl, h'⟩ := hab
          cases result' with
          | ok vs => exact .some ⟨rfl, h'⟩
          | error e =>
            have hcut : m'.stack.Over base n'.stack := h'.store.stack
            simp only [Option.bind_some, hstack.height, hempty]
            exact .some ⟨rfl, h'.withStack (hcut.truncate 0)⟩

/-- machines over the same one differ only in their stacks -/
theorem Over.eq_withStack {m₁ m₂ : Machine} {base₁ base₂ : List Cell} (h₁ : m.Over base₁ m₁) (h₂ : m.Over base₂ m₂) :
    m₂ = m₁.withStack m₂.stack := by
  obtain ⟨inst₁, exports₁, stack₁, memory₁, globals₁, depth₁⟩ := m₁
  obtain ⟨inst₂, exports₂, stack₂, memory₂, globals₂, depth₂⟩ := m₂
  obtain ⟨rfl, rfl, -, rfl, rfl, rfl⟩ := h₁
  obtain ⟨hinst, hexports, -, hmemory, hglobals, hdepth⟩ := h₂
  cases hinst
  cases hexports
  cases hmemory
  cases hglobals
  cases hdepth
  rfl

theorem over_withStack (m : Machine) (s : OperandStack) : (m.withStack (.empty 1)).Over s.cells (m.withStack s) :=
  ⟨rfl, rfl, rfl, rfl, rfl, rfl⟩

/-- **Invocations are isolated from the stack**, which they leave as it was -/
theorem invoke_isolated (hv : mod.Valid) {cells : List Cell} (hm : m.Of mod cells) {s₁ s₂ : OperandStack}
    {name : String} {args : List Val} {result : Except ExecError (List Val)} {m₁ : Machine}
    (h : (m.withStack s₁).invoke fuel name args = some (result, m₁)) :
    m₁.stack.cells = s₁.cells ∧
      ∃ s, s.cells = s₂.cells ∧ (m.withStack s₂).invoke fuel name args = some (result, m₁.withStack s) := by
  -- both are compared with the invocation over no cells at all, which leaves none
  have hbare : (m.withStack (.empty 1)).Of mod [] := hm.withStack rfl
  have hover₁ := invoke_over hv hbare (m.over_withStack s₁) fuel name args
  have hover₂ := invoke_over hv hbare (m.over_withStack s₂) fuel name args
  have hleft (result : Except ExecError (List Val)) (b : Machine) :=
    @invoke_typed mod (m.withStack (.empty 1)) b [] fuel hv hbare name args result
  rw [h] at hover₁
  generalize (m.withStack (.empty 1)).invoke fuel name args = p at hover₁ hover₂ hleft
  generalize (m.withStack s₂).invoke fuel name args = q at hover₂
  cases hover₁ with
  | @some a _ h₁ =>
    obtain ⟨result', b⟩ := a
    obtain ⟨rfl, h₁⟩ := h₁
    have hb : b.stack.cells = [] := (hleft _ b rfl).1.stack
    cases hover₂ with
    | @some _ c h₂ =>
      obtain ⟨result'', m₂⟩ := c
      obtain ⟨rfl, h₂⟩ := h₂
      have hcells₁ : m₁.stack.cells = b.stack.cells ++ s₁.cells := h₁.store.stack
      have hcells₂ : m₂.stack.cells = b.stack.cells ++ s₂.cells := h₂.store.stack
      rw [hb, List.nil_append] at hcells₁ hcells₂
      exact ⟨hcells₁, m₂.stack, hcells₂, by rw [← h₁.eq_withStack h₂]⟩

end Machine

end WasmCore
