/-
Runs of valid code over more cells.

`c.Over base d` says that the configuration `d` is `c` with the cells `base` underneath: every height that `d` has
recorded is higher by their number. A step of any code goes the same way in both, unless `c` runs out of cells
(`Progress.Alike`). Valid code never does, so its two runs stay in step to the end (`Config.run_over`): what lies underneath
is neither read nor changed.
-/
import WasmCore.Proofs.Entry
import WasmCore.Proofs.Isolation.Instruction
import WasmCore.Proofs.Typing.Run

namespace WasmCore

variable {base : List Cell} {inst : Instance}

/-! ## Configurations -/

def OpenBlock.over (n : Nat) (b : OpenBlock) : OpenBlock :=
  { b with label := b.label.over n }

def Control.over (n : Nat) (k : Control) : Control :=
  { k with blocks := k.blocks.map (OpenBlock.over n) }

def Caller.over (n : Nat) (c : Caller) : Caller :=
  { c with control := c.control.over n, height := c.height + n }

/-- the same configuration over the cells `base` -/
structure Config.Over (base : List Cell) (c d : Config) : Prop where
  state : c.state.Over base d.state
  control : d.control = c.control.over base.length
  callers : d.callers = c.callers.map (Caller.over base.length)

structure Outcome.Over (base : List Cell) (o p : Outcome) : Prop where
  result : p.result = o.result
  state : o.state.Over base p.state

/-- Valid code does not run out of cells. Only a host function can say so, for reasons of its own. -/
theorem Trap.Expected.not_underflow {needed depth : Nat} : ¬ Trap.ExpectedOfInstr (.stackUnderflow needed depth) := by
  intro h
  cases h with
  | host h => exact h

namespace Progress

/-- the same point of a run over the cells `base` -/
inductive Over (base : List Cell) : Progress → Progress → Prop
  | running {c d : Config} (h : c.Over base d) : Over base (.running c) (.running d)
  | ended {o p : Outcome} (h : o.Over base p) : Over base (.ended o) (.ended p)

/-- the same point of a run, or one at which the cells ran out -/
inductive Alike (base : List Cell) : Progress → Progress → Prop
  | same {p q : Progress} (h : p.Over base q) : Alike base p q
  | short {p q : Progress} {needed depth : Nat} (h : ∃ o e, p = .ended o ∧ o.result = .error e ∧
      e.trap = .stackUnderflow needed depth) : Alike base p q

theorem Alike.of_typed {p q : Progress} {S : Scope} {rest : List Cell} {final : List ValType} (h : p.Alike base q)
    (hp : p.Typed (fun _ => False) S rest final) : p.Over base q := by
  cases h with
  | same h => exact h
  | short h =>
    obtain ⟨o, e, rfl, hresult, htrap⟩ := h
    simp only [Typed, Outcome.Typed, hresult, htrap] at hp
    exact absurd hp.expected Trap.Expected.not_underflow

end Progress

namespace Control

theorem innermost_over (k : Control) (n : Nat) : (k.over n).innermost = k.innermost := by
  obtain ⟨blocks, body⟩ := k
  cases blocks <;> rfl

theorem next?_over (k : Control) (n : Nat) : (k.over n).next? = k.next?.map fun (i, k') => (i, k'.over n) := by
  obtain ⟨blocks, body⟩ := k
  cases blocks with
  | nil =>
    obtain ⟨code, rest⟩ := body
    cases rest <;> rfl
  | cons b blocks =>
    obtain ⟨label, code, rest⟩ := b
    cases rest <;> rfl

end Control

/-! ## One step -/

namespace Config

variable {c d : Config}

theorem Over.outermostFrame (h : c.Over base d) : d.outermostFrame = c.outermostFrame := by
  unfold Config.outermostFrame
  rw [h.callers, List.getLast?_map, h.state.frame]
  cases c.callers.getLast? <;> rfl

theorem Over.fail (h : c.Over base d) (e : ExecError) : (c.fail e).Over base (d.fail e) := by
  refine .ended ⟨rfl, ⟨h.state.store.stack, h.state.store.memory, h.state.store.globals, ?_⟩, h.outermostFrame⟩
  show d.state.store.depth - d.callers.length = c.state.store.depth - c.callers.length
  rw [h.state.store.depth, h.callers, List.length_map]

theorem Over.withStack (h : c.Over base d) {s t : OperandStack} (hst : s.Over base t) :
    Over base { c with state.store.stack := s } { d with state.store.stack := t } :=
  ⟨⟨⟨hst, h.state.store.memory, h.state.store.globals, h.state.store.depth⟩, h.state.frame⟩, h.control, h.callers⟩

theorem Over.leave (h : c.Over base d) (site : Option Site) : (c.leave site).Alike base (d.leave site) := by
  obtain ⟨s, k, callers⟩ := c
  obtain ⟨t, k', callers'⟩ := d
  obtain ⟨hstate, -, rfl⟩ := h
  cases callers with
  | nil => exact .same (.ended ⟨rfl, hstate⟩)
  | cons caller callers =>
    have hdepth : t.store.depth - 1 = s.store.depth - 1 := congrArg (· - 1) hstate.store.depth
    simp only [Config.leave, List.map_cons, Caller.over]
    cases hs : s.store.stack.unwind caller.height caller.arity with
    | ok s' =>
      obtain ⟨t', ht, hst'⟩ := hstate.store.stack.unwind hs
      simp only [ht]
      exact .same (.running ⟨⟨⟨hst', hstate.store.memory, hstate.store.globals, hdepth⟩, rfl⟩, rfl, rfl⟩)
    | error e => exact .short ⟨_, _, rfl, rfl, (OperandStack.error_unwind hs).1⟩

theorem Over.branch (h : c.Over base d) (depth : UInt32) (site : Site) :
    (c.branch depth site).Alike base (d.branch depth site) := by
  have hdrop : d.control.blocks.drop depth.toNat =
      (c.control.blocks.drop depth.toNat).map (OpenBlock.over base.length) := by
    rw [h.control]
    exact List.map_drop.symm
  have hlen : d.control.blocks.length = c.control.blocks.length := by
    rw [h.control]
    exact List.length_map _
  unfold Config.branch
  rw [hdrop, hlen]
  cases c.control.blocks.drop depth.toNat with
  | nil =>
    dsimp only [List.map_nil]
    by_cases hd : depth.toNat = c.control.blocks.length
    · rw [if_pos hd, if_pos hd]
      exact h.leave _
    · rw [if_neg hd, if_neg hd]
      exact .same (h.fail _)
  | cons target outer =>
    simp only [List.map_cons]
    have hlabel : (target.over base.length).label = target.label.over base.length := rfl
    have harity : (target.label.over base.length).branchArity = target.label.branchArity := rfl
    rw [hlabel, harity]
    cases hs : c.state.store.stack.unwind target.label.height target.label.branchArity with
    | error e => exact .short ⟨_, _, rfl, rfl, (OperandStack.error_unwind hs).1⟩
    | ok s' =>
      obtain ⟨t', ht, hst'⟩ := h.state.store.stack.unwind hs
      have hheight : (target.label.over base.length).height = target.label.height + base.length := rfl
      have hcut := h.withStack hst'
      simp only [hheight, ht]
      refine .same (.running ⟨hcut.state, ?_, hcut.callers⟩)
      rw [h.control]
      cases hr : target.label.restarts <;> simp [Control.over, Label.over, OpenBlock.over, hr]

theorem Over.finishSequence (h : c.Over base d) : c.finishSequence.Alike base d.finishSequence := by
  unfold Config.finishSequence
  rw [h.control]
  cases hblocks : c.control.blocks with
  | nil =>
    simp only [Control.over, hblocks, List.map_nil]
    exact h.leave none
  | cons b blocks =>
    simp only [Control.over, hblocks, List.map_cons]
    exact .same (.running ⟨h.state, rfl, h.callers⟩)

/-- going on as an instruction asks, unless it asks for a call -/
theorem Over.follow (h : c.Over base d) (site : Site) {flow : Flow} (hcall : ∀ i, flow ≠ .call i) :
    (follow inst c site flow).Alike base (Config.follow inst d site (flow.over base.length)) := by
  cases flow with
  | next => exact .same (.running h)
  | enter label body =>
    refine .same (.running ⟨h.state, ?_, h.callers⟩)
    rw [h.control]
    rfl
  | branch depth => exact h.branch depth site
  | ret => exact h.leave (some site)
  | call i => exact absurd rfl (hcall i)

end Config

/-! ## Calls with their arguments on the stack -/

theorem HostFunc.call_over (h : HostFunc) {s t : OperandStack} (hst : s.Over base t)
    (hargs : h.type.params.length ≤ s.height) :
    ∃ result s' t', h.call s = (result, s') ∧ h.call t = (result, t') ∧ s'.Over base t' := by
  obtain ⟨cs, s', hs⟩ := OperandStack.popMany_of_le hargs
  obtain ⟨t', ht, hst'⟩ := hst.popMany hs
  simp only [call, hs, ht]
  cases h.invoke (List.zipWith Val.ofCell h.type.params cs) with
  | error e => exact ⟨.error e, s', t', rfl, rfl, hst'⟩
  | ok results => exact ⟨.ok (), _, _, rfl, rfl, hst'.pushAll _⟩

theorem Function.enter_over (inst : Instance) (f : Function) {s t : Store} (hst : s.Over base t)
    (hargs : f.type.params.length ≤ s.stack.height) :
    (∃ e, f.enter inst s = .error e ∧ f.enter inst t = .error e) ∨
    ∃ frame s' t', f.enter inst s = .ok (frame, s') ∧ f.enter inst t = .ok (frame, t') ∧ s'.Over base t' := by
  unfold enter
  rw [hst.depth]
  by_cases hd : inst.maxCallDepth ≤ s.depth
  · rw [if_pos hd, if_pos hd]
    exact .inl ⟨_, rfl, rfl⟩
  · rw [if_neg hd, if_neg hd]
    obtain ⟨cs, s', hs⟩ := OperandStack.popMany_of_le hargs
    obtain ⟨t', ht, hst'⟩ := hst.stack.popMany hs
    simp only [Frame.enter, hs, ht]
    exact .inr ⟨_, _, _, rfl, rfl, hst', hst.memory, hst.globals, rfl⟩

namespace Config

variable {c d : Config} {S : Scope} {final : List ValType}

theorem call_over (hi : inst.Fits S) (h : c.Over base d) {i : UInt32} {type : FuncType}
    (htype : S.functions[i.toNat]? = some type) (hargs : type.params.length ≤ c.state.store.stack.height) (site : Site) :
    (c.call inst i site).Over base (d.call inst i site) := by
  obtain ⟨f, hf, hfi, rfl⟩ := hi.function_eq htype
  cases hbody : f.body with
  | host host =>
    rw [← (hi.valid f hf).host host hbody] at hargs
    obtain ⟨result, s', t', hs, ht, hst'⟩ := host.call_over h.state.store.stack hargs
    rw [call_host hfi hbody, call_host hfi hbody, hs, ht]
    cases result with
    | error e => exact (h.withStack hst').fail _
    | ok _ => exact .running (h.withStack hst')
  | code code =>
    rw [call_code hfi hbody, call_code hfi hbody]
    rcases f.enter_over inst h.state.store hargs with ⟨e, hs, ht⟩ | ⟨frame, s', t', hs, ht, hst'⟩
    · rw [hs, ht]
      exact h.fail _
    · rw [hs, ht]
      refine .running ⟨⟨hst', rfl⟩, rfl, ?_⟩
      simp only [List.map_cons, Caller.over, h.callers, h.control, h.state.frame, hst'.stack.height]

/-- **A step of valid code goes the same way over more cells** -/
theorem step_over (hi : inst.Fits S) (hc : c.Typed S [] final) (h : c.Over base d) :
    (c.step inst).Over base (d.step inst) := by
  unfold step
  rw [h.control, Control.next?_over]
  cases hnext : c.control.next? with
  | none => exact h.finishSequence.of_typed (finishSequence_typed hc hnext)
  | some next =>
    obtain ⟨i, control⟩ := next
    obtain ⟨P, n, labels, ts, below, under, rfl, hopen, hw, hs⟩ := hc
    obtain ⟨ins, mid, seg, rfl, hti, hopen'⟩ := hopen.next hnext
    rw [List.append_assoc] at hs
    have hends := Instr.exec_typed (P := P.withLabels labels) hi hti (hs.place_congr rfl rfl) False.elim
    have hframed := i.exec_framed inst c.state d.state h.state
    simp only [Exec.Ends] at hends
    simp only [Option.map_some, Control.innermost_over]
    generalize i.exec inst c.state = p at hends hframed
    generalize i.exec inst d.state = q at hframed
    cases hframed with
    | short => exact absurd hends.expected Trap.Expected.not_underflow
    | @error e s t state =>
      have hover : Over base ⟨s, control, c.callers⟩ ⟨t, control.over base.length, d.callers⟩ := ⟨state, rfl, h.callers⟩
      exact hover.fail _
    | @ok flow _ s t answer state =>
      have hover : Over base ⟨s, control, c.callers⟩ ⟨t, control.over base.length, d.callers⟩ := ⟨state, rfl, h.callers⟩
      cases answer
      by_cases hcall : ∃ i, flow = .call i
      · obtain ⟨i, rfl⟩ := hcall
        -- the arguments are above `base`, because the call is well typed without it
        obtain ⟨type, htype, -, hargs⟩ := hends
        refine call_over hi hover htype ?_ _
        rw [hargs.height_eq, List.length_append, FuncType.length_ins]
        omega
      · have hflow : ∀ i, flow ≠ .call i := fun i h => hcall ⟨i, h⟩
        exact (hover.follow _ hflow).of_typed (follow_typed _ rfl hopen' hw hends hflow)

/-- **A run of valid code goes the same way over more cells**, for as many steps as it is given -/
theorem run_over (hi : inst.Fits S) (hc : c.Typed S [] final) (h : c.Over base d) (fuel : Nat) :
    Option.Rel (Outcome.Over base) (run inst fuel c) (run inst fuel d) := by
  induction fuel generalizing c d with
  | zero => exact .none
  | succ fuel ih =>
    have htyped := step_typed hi hc False.elim
    have hstep := step_over hi hc h
    unfold run
    generalize c.step inst = p at htyped hstep
    generalize d.step inst = q at hstep
    cases hstep with
    | running h => exact ih htyped h
    | ended h => exact .some h

end Config

end WasmCore
