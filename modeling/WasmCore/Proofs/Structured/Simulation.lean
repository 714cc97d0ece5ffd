/-
The machine at the end of a sequence.

The evaluator ends a construct with an `Ending`; the machine has no such thing, but at that point of its run it is about
to do what `Ending.complete` says for the innermost sequence, or `Ending.resume` for a single instruction. The lemmas
here say what becomes of an ending where a construct or a function around it catches it or passes it on, and that a step
of the machine takes one instruction off the innermost sequence.
-/
import WasmCore.Proofs.Exec
import WasmCore.Proofs.Innermost
import WasmCore.Proofs.Structured.Evaluator

namespace WasmCore

variable {inst : Instance}

/-! ## Points of a run -/

namespace Progress

/-- the outcome from here on, if there is one within so many steps -/
def run (inst : Instance) (fuel : Nat) : Progress → Option Outcome
  | .running c => c.run inst fuel
  | .ended o => some o

/-- the run comes from one point to the other -/
def Leads (inst : Instance) (p q : Progress) : Prop :=
  ∃ n, ∀ fuel, p.run inst (n + fuel) = q.run inst fuel

theorem run_running (c : Config) (fuel : Nat) : run inst (fuel + 1) (.running c) = run inst fuel (c.step inst) := by
  cases h : c.step inst <;> simp only [run, Config.run, h]

theorem Leads.refl (p : Progress) : p.Leads inst p :=
  ⟨0, fun fuel => by rw [Nat.zero_add]⟩

theorem Leads.of_eq {p q : Progress} (h : p = q) : p.Leads inst q := by
  rw [h]; exact .refl q

theorem Leads.trans {p q r : Progress} (hp : p.Leads inst q) (hq : q.Leads inst r) : p.Leads inst r := by
  obtain ⟨n, hn⟩ := hp
  obtain ⟨m, hm⟩ := hq
  exact ⟨n + m, fun fuel => by rw [Nat.add_assoc, hn, hm]⟩

theorem leads_step (c : Config) : (running c).Leads inst (c.step inst) :=
  ⟨1, fun fuel => by rw [Nat.add_comm, run_running]⟩

end Progress

/-- inside one more construct -/
def Control.enter (k : Control) (label : Label) (body : List Instr) : Control :=
  { k with blocks := ⟨label, .start body⟩ :: k.blocks }

/-- the machine cuts down its stack as the evaluator does -/
theorem OperandStack.trim_eq_unwind (s : OperandStack) (height keep : Nat) : s.trim height keep = s.unwind height keep := by
  rw [trim, unwind, dropKeep_eq, s.height_eq]
  by_cases hle : height + keep ≤ s.cells.length
  · rw [if_pos hle, if_neg (Nat.not_lt.2 hle)]
    have hrest : s.cells.length - height = keep + (s.cells.length - (height + keep)) := by omega
    by_cases hsame : s.cells.length - (height + keep) = 0
    · rw [if_pos hsame, hrest, hsame, Nat.add_zero, List.take_append_drop]
      exact congrArg Except.ok (eq_of_cells rfl rfl)
    · rw [if_neg hsame, if_neg (by omega), hrest]
  · rw [if_neg hle, if_pos (Nat.lt_of_not_le hle)]

/-! ## What the machine does at an ending -/

/-- branches out of `depth` constructs to the one around them -/
def Config.jump (c : Config) (depth : Nat) (site : Site) : Progress :=
  match c.control.blocks.drop depth with
  | [] => c.leave (some site)
  | target :: outer =>
    match c.state.store.stack.unwind target.label.height target.label.branchArity with
    | .error t => c.fail (.located t site)
    | .ok stack =>
      let blocks :=
        if target.label.restarts then { target with body := .start target.body.code } :: outer else outer
      .running { c with state.store.stack := stack, control.blocks := blocks }

namespace Ending

/-- when the innermost sequence ends like this -/
def complete (k : Control) (callers : List Caller) : Ending → Progress
  | (.normal, s) => Config.finishSequence ⟨s, k, callers⟩
  | (.branch depth site, s) => Config.jump ⟨s, k, callers⟩ depth site
  | (.ret site, s) => Config.leave ⟨s, k, callers⟩ (some site)
  | (.trap e, s) => Config.fail ⟨s, k, callers⟩ e

/-- when an instruction of the innermost sequence ends like this -/
def resume (k : Control) (callers : List Caller) : Ending → Progress
  | (.normal, s) => .running ⟨s, k, callers⟩
  | ending => ending.complete k callers

variable {k : Control} {callers : List Caller}

theorem jump_withRest (s : State) (rest : List Instr) (depth : Nat) (site : Site) :
    Config.jump ⟨s, k.withRest rest, callers⟩ depth site = Config.jump ⟨s, k, callers⟩ depth site := by
  obtain ⟨blocks, body⟩ := k
  cases blocks with
  | nil => simp only [Control.withRest, Config.jump, List.drop_nil]; rfl
  | cons b blocks =>
    cases depth with
    | zero => simp only [Control.withRest, Config.jump, List.drop_zero]; rfl
    | succ depth => simp only [Control.withRest, Config.jump, List.drop_succ_cons]; rfl

/-- how the innermost sequence ends does not depend on what is left of it -/
theorem complete_withRest (ending : Ending) (rest : List Instr) :
    ending.complete (k.withRest rest) callers = ending.complete k callers := by
  obtain ⟨c, s⟩ := ending
  cases c with
  | normal =>
    obtain ⟨blocks, body⟩ := k
    cases blocks <;> rfl
  | branch depth site => exact jump_withRest s rest depth site
  | ret site => rfl
  | trap e => rfl

/-- a branch is as deep as the function at most -/
theorem complete_pending (s : State) (depth : UInt32) (site : Site) :
    complete k callers (.pending k.blocks.length depth site, s) = Config.branch ⟨s, k, callers⟩ depth site := by
  simp only [Completion.pending]
  by_cases h : k.blocks.length < depth.toNat
  · have hdrop : k.blocks.drop depth.toNat = [] := List.drop_eq_nil_of_le (Nat.le_of_lt h)
    simp only [if_pos h, complete, Config.branch, hdrop, if_neg (Nat.ne_of_gt h)]
  · simp only [if_neg h, complete, Config.branch, Config.jump]
    cases hdrop : k.blocks.drop depth.toNat with
    | nil =>
      have hle := List.drop_eq_nil_iff.1 hdrop
      have heq : depth.toNat = k.blocks.length := by omega
      simp only [if_pos heq]
    | cons target outer => rfl

/-- a pending branch is never the end of an instruction that goes on -/
theorem resume_pending (s : State) (depth : UInt32) (site : Site) :
    resume k callers (.pending k.blocks.length depth site, s) = Config.branch ⟨s, k, callers⟩ depth site := by
  rw [← complete_pending]
  simp only [Completion.pending]
  split <;> rfl

/-- at the end of a `block` or `if` the machine goes on in the construct around it -/
theorem complete_block (ending : Ending) (height arity : Nat) (body : List Instr) :
    ending.complete (k.enter ⟨false, height, arity⟩ body) callers =
      (ending.leaveBlock height arity).resume k callers := by
  obtain ⟨c, s⟩ := ending
  cases c with
  | normal => rfl
  | branch depth site =>
    cases depth with
    | zero =>
      simp only [complete, Config.jump, Control.enter, List.drop_zero, leaveBlock, Label.branchArity, Bool.false_eq_true,
        if_false, OperandStack.trim_eq_unwind]
      cases s.store.stack.unwind height arity <;> rfl
    | succ depth => rfl
  | ret site => rfl
  | trap e => rfl

/-- at the end of the body of a loop it starts again, or goes on in the construct around it -/
theorem complete_loop (ending : Ending) (height arity : Nat) (body : List Instr) :
    ending.complete (k.enter ⟨true, height, arity⟩ body) callers =
      match ending with
      | (.branch 0 site, s) =>
        match s.store.stack.unwind height 0 with
        | .ok stack => .running ⟨{ s with store.stack := stack }, k.enter ⟨true, height, arity⟩ body, callers⟩
        | .error t => (trapped t site s).resume k callers
      | (.branch (depth + 1) site, s) => resume k callers (.branch depth site, s)
      | ending => ending.resume k callers := by
  obtain ⟨c, s⟩ := ending
  cases c with
  | normal => rfl
  | branch depth site =>
    cases depth with
    | zero =>
      simp only [complete, Config.jump, Control.enter, List.drop_zero, Label.branchArity, if_true]
      cases s.store.stack.unwind height 0 <;> rfl
    | succ depth => rfl
  | ret site => rfl
  | trap e => rfl

/-- a trap ends all functions at once, as if it left one after another -/
theorem fail_caller (s : State) (control : Control) (caller : Caller) (e : ExecError) :
    Config.fail ⟨s, control, caller :: callers⟩ e =
      Config.fail ⟨⟨{ s.store with depth := s.store.depth - 1 }, caller.frame⟩, k, callers⟩ e := by
  have hdepth : s.store.depth - (callers.length + 1) = s.store.depth - 1 - callers.length := by omega
  simp only [Config.fail, Config.outermostFrame, List.length_cons, hdepth, List.getLast?_cons]
  cases callers.getLast? <;> rfl

/-- at the end of a function the machine goes on in the one that called it -/
theorem complete_function (ending : Ending) (q : Sequence) (frame : Frame) (height arity : Nat) :
    ending.complete ⟨[], q⟩ (⟨frame, k, height, arity⟩ :: callers) =
      (ending.leaveFunction frame height arity).resume k callers := by
  obtain ⟨c, s⟩ := ending
  have hleave (site : Option Site) : Config.leave ⟨s, ⟨[], q⟩, ⟨frame, k, height, arity⟩ :: callers⟩ site =
      match s.store.stack.unwind height arity with
      | .ok stack => .running ⟨⟨{ s.store with stack, depth := s.store.depth - 1 }, frame⟩, k, callers⟩
      | .error t => Config.fail ⟨⟨{ s.store with depth := s.store.depth - 1 }, frame⟩, k, callers⟩ ⟨t, site⟩ := rfl
  cases c with
  | normal =>
    simp only [complete, Config.finishSequence, hleave, leaveFunction, OperandStack.trim_eq_unwind]
    cases s.store.stack.unwind height arity <;> rfl
  | branch depth site =>
    simp only [complete, Config.jump, List.drop_nil, hleave, leaveFunction, OperandStack.trim_eq_unwind]
    cases s.store.stack.unwind height arity <;> rfl
  | ret site =>
    simp only [complete, hleave, leaveFunction, OperandStack.trim_eq_unwind]
    cases s.store.stack.unwind height arity <;> rfl
  | trap e => exact fail_caller s _ _ e

end Ending

/-! ## Single instructions -/

namespace Instr

/-- whether the evaluator has a rule of its own for the instruction -/
def isControl : Instr → Bool
  | block .. | loop .. | ite .. | br _ | brIf _ | brTable .. | ret | call _ | callIndirect .. => true
  | _ => false

open Exec in
/-- every other instruction goes on to the next one, or traps -/
theorem exec_next {i : Instr} (hi : i.isControl = false) (s : State) :
    Ends (i.exec inst) s (fun flow _ => flow = .next) fun _ _ => True := by
  cases i with
  | block | loop | ite | br | brIf | brTable | ret | call | callIndirect => cases hi
  | unreachable => trivial
  | nop => rfl
  | const v => exact ends_bind_any fun _ _ => rfl
  | drop => exact ends_bind_any fun _ _ => rfl
  | memorySize => exact ends_bind_any fun _ _ => ends_bind_any fun _ _ => rfl
  | localGet i => exact ends_bind_any fun _ _ => ends_bind_any fun _ _ => rfl
  | localSet i => exact ends_bind_any fun _ _ => ends_bind_any fun _ _ => rfl
  | localTee i => exact ends_bind_any fun _ _ => ends_bind_any fun _ _ => rfl
  | globalGet i => exact ends_bind_any fun _ _ => ends_bind_any fun _ _ => rfl
  | globalSet i => exact ends_bind_any fun _ _ => ends_bind_any fun _ _ => rfl
  | unary op => exact ends_bind_any fun _ _ => ends_bind_any fun _ _ => rfl
  | load op arg => exact ends_bind_any fun _ _ => ends_bind_any fun _ _ => ends_bind_any fun _ _ => rfl
  | store op arg => exact ends_bind_any fun _ _ => ends_bind_any fun _ _ => ends_bind_any fun _ _ => rfl
  | select =>
    exact ends_bind_any fun _ _ => ends_bind_any fun _ _ => ends_bind_any fun _ _ => ends_bind_any fun _ _ => rfl
  | binary op =>
    exact ends_bind_any fun _ _ => ends_bind_any fun _ _ => ends_bind_any fun _ _ => ends_bind_any fun _ _ => rfl
  | memoryGrow =>
    refine ends_bind_any fun _ _ => ends_bind_any fun before _ => ?_
    cases before with
    | none => exact ends_bind_any fun _ _ => rfl
    | some before => exact ends_bind_any fun _ _ => rfl

end Instr

namespace Config

/-- what the machine does at an instruction, with control already after it -/
def perform (inst : Instance) (c : Config) (i : Instr) (site : Site) : Progress :=
  match i.exec inst c.state with
  | .error t state => fail ⟨state, c.control, c.callers⟩ (.located t site)
  | .ok flow state => follow inst ⟨state, c.control, c.callers⟩ site flow

variable {s : State} {k : Control} {callers : List Caller} {i : Instr} {rest : List Instr}

theorem step_nil (h : k.innermost.rest = []) : step inst ⟨s, k, callers⟩ = finishSequence ⟨s, k, callers⟩ := by
  simp only [step, Control.next?_nil h]

theorem step_cons (h : k.innermost.rest = i :: rest) : step inst ⟨s, k, callers⟩ =
    perform inst ⟨s, k.withRest rest, callers⟩ i ⟨i.opcode, k.innermost.code.length - rest.length - 1⟩ := by
  cases hexec : i.exec inst s <;>
    simp only [step, Control.next?_cons h, perform, Sequence.index, Control.innermost_withRest, hexec]

/-- an instruction that does all its work by itself -/
theorem perform_own (hi : i.isControl = false) (site : Site) : perform inst ⟨s, k, callers⟩ i site =
    (Ending.own site ((do
      let _ ← i.exec inst
      return .normal : Exec Completion) s)).resume k callers := by
  have hnext : Exec.Ends (i.exec inst) s (fun flow _ => flow = .next) fun _ _ => True := Instr.exec_next hi s
  simp only [Exec.Ends] at hnext
  simp only [perform, bind, EStateM.bind]
  cases hexec : i.exec inst s with
  | error t s => rfl
  | ok flow s =>
    rw [hexec] at hnext
    cases hnext
    rfl

end Config

end WasmCore
