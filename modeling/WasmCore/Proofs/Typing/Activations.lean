/-
The functions that are active.

Nothing that code does, valid or not, changes what the locals of a function were declared as, or brings it to a place in its
body that instructions do not lead to. In every configuration that a run comes through (`Config.reaches_activations`)
- each active function that was called within the run has the body of a function of the instance, and locals of its types;
  the outermost one has those that the run began with;
- what each of its open sequences has run so far are instructions that can be followed by the next one. A branch that is
  taken, a return or a trap is never behind the place where a sequence stands: it ends the sequence or starts it again.
-/
import WasmCore.Proofs.Resolve
import WasmCore.Proofs.Steps
import WasmCore.Proofs.Typing.Control

namespace WasmCore

variable {inst : Instance}

/-! ## Instructions that go on -/

/-- the next instruction of the sequence may follow -/
def Instr.GoesOn : Instr → Prop
  | unreachable | ret | br _ | brTable _ _ => False
  | _ => True

/-- every flow but a branch and a return comes from such an instruction -/
def Instr.GoesOnAfter (i : Instr) : Flow → Prop
  | .branch _ | .ret => True
  | _ => i.GoesOn

open Exec in
theorem Instr.exec_goesOnAfter (inst : Instance) (i : Instr) (s : State) :
    Ends (i.exec inst) s (fun flow _ => i.GoesOnAfter flow) fun _ _ => True := by
  cases i with
  | unreachable | br | ret => trivial
  | brTable targets fallback => exact ends_bind_any fun _ _ => trivial
  | _ =>
    unfold Ends
    split
    · rename_i flow _ _
      cases flow <;> trivial
    · trivial

/-! ## Sequences under way -/

/-- the part that has been run consists of instructions that go on -/
def Sequence.Underway (q : Sequence) : Prop :=
  ∃ done, q.code = done ++ q.rest ∧ ∀ i ∈ done, i.GoesOn

theorem Sequence.underway_start (code : List Instr) : (start code).Underway :=
  ⟨[], rfl, nofun⟩

theorem Sequence.Underway.next {q : Sequence} {i : Instr} {rest : List Instr} (h : q.Underway) (hrest : q.rest = i :: rest)
    (hi : i.GoesOn) : Sequence.Underway { q with rest } := by
  obtain ⟨done, hcode, hdone⟩ := h
  refine ⟨done ++ [i], by rw [hcode, hrest, List.append_assoc]; rfl, ?_⟩
  intro j hj
  rcases List.mem_append.1 hj with hj | hj
  · exact hdone j hj
  · rw [List.mem_singleton.1 hj]
    exact hi

/-- all sequences of a function are under way, its own and those of its open constructs -/
structure Control.Underway (k : Control) : Prop where
  blocks : ∀ b ∈ k.blocks, b.body.Underway
  body : k.body.Underway

namespace Control.Underway

variable {k k' : Control} {i : Instr}

theorem start (code : List Instr) : (Control.start code).Underway :=
  ⟨nofun, Sequence.underway_start code⟩

theorem next (h : k.Underway) (hk : k.next? = some (i, k')) (hi : i.GoesOn) : k'.Underway := by
  obtain ⟨rest, hrest, rfl⟩ := Control.next?_eq_some hk
  obtain ⟨blocks, q⟩ := k
  cases blocks with
  | nil => exact ⟨nofun, h.body.next hrest hi⟩
  | cons b blocks =>
    obtain ⟨hb, hblocks⟩ := List.forall_mem_cons.1 h.blocks
    exact ⟨List.forall_mem_cons.2 ⟨hb.next hrest hi, hblocks⟩, h.body⟩

/-- entering a construct -/
theorem enter (h : k.Underway) (label : Label) (body : List Instr) :
    Control.Underway { k with blocks := ⟨label, .start body⟩ :: k.blocks } :=
  ⟨List.forall_mem_cons.2 ⟨Sequence.underway_start body, h.blocks⟩, h.body⟩

/-- leaving the innermost construct -/
theorem close {b : OpenBlock} {blocks : List OpenBlock} (h : k.Underway) (hk : k.blocks = b :: blocks) :
    Control.Underway { k with blocks } :=
  ⟨fun b' hb' => h.blocks b' (hk ▸ List.mem_cons_of_mem b hb'), h.body⟩

/-- A branch ends the sequence that it stands in, or starts it again, so the branch itself need not go on. -/
theorem branch (h : k.Underway) (hk : k.next? = some (i, k')) {d : Nat} {target : OpenBlock} {outer : List OpenBlock}
    (hdrop : k'.blocks.drop d = target :: outer) :
    Control.Underway { k' with
      blocks := if target.label.restarts then { target with body := .start target.body.code } :: outer else outer } := by
  obtain ⟨rest, hrest, rfl⟩ := Control.next?_eq_some hk
  obtain ⟨blocks, q⟩ := k
  cases blocks with
  | nil =>
    rw [Control.withRest, List.drop_nil] at hdrop
    cases hdrop
  | cons b blocks =>
    have houter : ∀ b' ∈ outer, b'.body.Underway := by
      intro b' hb'
      -- what is left are constructs around the innermost one
      have hmem : b' ∈ blocks := by
        cases d with
        | zero =>
          cases hdrop
          exact hb'
        | succ d => exact List.mem_of_mem_drop (hdrop ▸ List.mem_cons_of_mem target hb')
      exact h.blocks b' (List.mem_cons_of_mem b hmem)
    refine ⟨?_, h.body⟩
    cases target.label.restarts with
    | true => exact List.forall_mem_cons.2 ⟨Sequence.underway_start _, houter⟩
    | false => exact houter

end Control.Underway

/-! ## Activations -/

/-- a function with the body `code`, whose locals are declared as `ts`, wherever it stands -/
structure Activation (code : List Instr) (ts : List ValType) (frame : Frame) (k : Control) : Prop where
  code : k.body.code = code
  types : frame.types = ts
  underway : k.Underway

/-- The active function and those that wait for it. The outermost one runs `code` with locals declared as `ts`; the others are
functions of the instance. -/
inductive Activations (inst : Instance) (code : List Instr) (ts : List ValType) : Frame → Control → List Caller → Prop
  | outermost {frame : Frame} {k : Control} (active : Activation code ts frame k) : Activations inst code ts frame k []
  | called {frame : Frame} {k : Control} {f : Function} {body : List Instr} {caller : Caller} {callers : List Caller}
      (mem : f ∈ inst.functions) (body_eq : f.body = .code body)
      (active : Activation body (f.type.params ++ f.locals) frame k)
      (outer : Activations inst code ts caller.frame caller.control callers) :
      Activations inst code ts frame k (caller :: callers)

def Config.Activated (inst : Instance) (code : List Instr) (ts : List ValType) (c : Config) : Prop :=
  Activations inst code ts c.state.frame c.control c.callers

/-- the active function and those that wait for it, the innermost first -/
def Config.active (c : Config) : List (Frame × Control) :=
  (c.state.frame, c.control) :: c.callers.map fun caller => (caller.frame, caller.control)

namespace Activations

variable {code : List Instr} {ts : List ValType} {frame frame' : Frame} {k k' : Control} {callers : List Caller}

/-- each of them is the outermost one or a function of the instance -/
theorem each {s : State} (h : Activations inst code ts s.frame k callers) {a : Frame × Control}
    (ha : a ∈ Config.active ⟨s, k, callers⟩) :
    Activation code ts a.1 a.2 ∨
      ∃ f body, f ∈ inst.functions ∧ f.body = .code body ∧ Activation body (f.type.params ++ f.locals) a.1 a.2 := by
  obtain ⟨store, frame⟩ := s
  dsimp only at h
  induction h generalizing store with
  | outermost active =>
    cases List.mem_singleton.1 ha
    exact .inl active
  | called mem body_eq active outer ih =>
    rcases List.mem_cons.1 ha with rfl | ha
    · exact .inr ⟨_, _, mem, body_eq, active⟩
    · exact ih store ha

theorem underway {s : State} (h : Activations inst code ts s.frame k callers) :
    ∀ a ∈ Config.active ⟨s, k, callers⟩, a.2.Underway := by
  intro a ha
  rcases h.each ha with active | ⟨_, _, _, _, active⟩
  · exact active.underway
  · exact active.underway

/-- the active function goes on -/
theorem within (h : Activations inst code ts frame k callers) (types : frame'.types = frame.types)
    (same : k'.body.code = k.body.code) (underway : k.Underway → k'.Underway) :
    Activations inst code ts frame' k' callers := by
  cases h with
  | outermost active =>
    exact .outermost ⟨same.trans active.code, types.trans active.types, underway active.underway⟩
  | called mem body_eq active outer =>
    exact .called mem body_eq ⟨same.trans active.code, types.trans active.types, underway active.underway⟩ outer

/-- The outermost locals keep their types. Where the active function stands does not matter to this. -/
theorem outermostFrame {store : Store} (h : Activations inst code ts frame k callers) (k' : Control) :
    (Config.outermostFrame ⟨⟨store, frame⟩, k', callers⟩).types = ts := by
  induction h generalizing k' with
  | outermost active => exact active.types
  | @called frame k f body caller callers _ _ _ outer ih =>
    have hframe : Config.outermostFrame ⟨⟨store, frame⟩, k', caller :: callers⟩ =
        Config.outermostFrame ⟨⟨store, caller.frame⟩, caller.control, callers⟩ := by
      unfold Config.outermostFrame
      rw [List.getLast?_cons]
      cases callers.getLast? <;> rfl
    rw [hframe]
    exact ih caller.control

end Activations

theorem State.Evolves.types {s t : State} (h : s.Evolves t) : t.frame.types = s.frame.types := by
  induction h with
  | refl => rfl
  | tail _ hc ih =>
    cases hc with
    | store => exact ih
    | setLocal => exact (State.Typed.types_write _ _ _).trans ih

theorem Control.code_next {k k' : Control} {i : Instr} (h : k.next? = some (i, k')) : k'.body.code = k.body.code := by
  obtain ⟨rest, -, rfl⟩ := Control.next?_eq_some h
  obtain ⟨blocks, q⟩ := k
  cases blocks <;> rfl

/-! ## Steps -/

namespace Config

variable {code : List Instr} {ts : List ValType} {s : State} {k k' : Control} {i : Instr} {callers : List Caller}

/-- what a step has to keep: the activations, and in the end the types of the outermost locals -/
abbrev KeepsActivations (inst : Instance) (code : List Instr) (ts : List ValType) (p : Progress) : Prop :=
  p.Holds (Activated inst code ts) (·.state.frame.types = ts)

theorem fail_activations (h : Activations inst code ts s.frame k callers) (k' : Control) (e : ExecError) :
    KeepsActivations inst code ts (fail ⟨s, k', callers⟩ e) :=
  h.outermostFrame k'

theorem leave_activations (h : Activations inst code ts s.frame k callers) (k' : Control) (site : Option Site) :
    KeepsActivations inst code ts (leave ⟨s, k', callers⟩ site) := by
  unfold leave
  cases h with
  | outermost active => exact active.types
  | @called _ _ _ _ caller callers _ _ _ outer =>
    dsimp only
    cases OperandStack.unwind _ caller.height caller.arity with
    | ok stack => exact outer
    | error t => exact fail_activations (s := ⟨_, caller.frame⟩) outer caller.control _

/-- after an instruction that branches -/
theorem branch_activations (h : Activations inst code ts s.frame k callers) (hk : k.next? = some (i, k'))
    (depth : UInt32) (site : Site) : KeepsActivations inst code ts (branch ⟨s, k', callers⟩ depth site) := by
  unfold branch
  cases hdrop : k'.blocks.drop depth.toNat with
  | nil =>
    dsimp only
    split
    · exact leave_activations h k' _
    · exact fail_activations h k' _
  | cons target outer =>
    dsimp only
    split
    · exact fail_activations h k' _
    · have hsame : k'.body.code = k.body.code := Control.code_next hk
      exact h.within rfl hsame fun hu => hu.branch hk hdrop

/-- a call, once the caller is past it -/
theorem call_activations (h : Activations inst code ts s.frame k callers) (j : UInt32) (site : Site) :
    KeepsActivations inst code ts (call inst ⟨s, k, callers⟩ j site) := by
  cases hf : inst.function j with
  | error t =>
    rw [call_missing hf]
    exact fail_activations h k _
  | ok f =>
    cases hbody : f.body with
    | host host =>
      rw [call_host hf hbody]
      obtain ⟨result, stack⟩ := host.call s.store.stack
      cases result with
      | error t => exact fail_activations (s := ⟨_, s.frame⟩) h k (.located t site)
      | ok _ => exact h
    | code body =>
      rw [call_code hf hbody]
      cases henter : f.enter inst s.store with
      | error t => exact fail_activations h k _
      | ok entered =>
        obtain ⟨frame, store⟩ := entered
        obtain ⟨-, stack, hstack, rfl⟩ := Function.enter_ok henter
        have hmem : f ∈ inst.functions := Array.mem_of_getElem? (Instance.function_ok_iff.1 hf)
        exact .called hmem hbody ⟨rfl, Frame.types_enter hstack, .start body⟩ h

theorem finishSequence_activations {c : Config} (h : c.Activated inst code ts) :
    KeepsActivations inst code ts c.finishSequence := by
  unfold finishSequence
  cases hblocks : c.control.blocks with
  | nil => exact leave_activations h c.control none
  | cons b blocks => exact h.within rfl rfl fun hu => hu.close hblocks

/-- **Whatever the code is, a step keeps what is said here of active functions** -/
theorem step_activations (c : Config) (h : c.Activated inst code ts) : KeepsActivations inst code ts (c.step inst) := by
  unfold step
  cases hnext : c.control.next? with
  | none => exact finishSequence_activations h
  | some next =>
    obtain ⟨i, control⟩ := next
    have hevolves := i.exec_evolves inst c.state
    have hgoes := i.exec_goesOnAfter inst c.state
    unfold Exec.Ends at hevolves hgoes
    dsimp only
    cases hexec : i.exec inst c.state with
    | error t s =>
      rw [hexec] at hevolves
      exact fail_activations (h.within hevolves.types rfl id) control _
    | ok flow s =>
      rw [hexec] at hevolves hgoes
      have hbefore : Activations inst code ts s.frame c.control c.callers := h.within hevolves.types rfl id
      have hpast (hi : i.GoesOn) : Activations inst code ts s.frame control c.callers :=
        hbefore.within rfl (Control.code_next hnext) fun hu => hu.next hnext hi
      cases flow with
      | next => exact hpast hgoes
      | enter label body => exact (hpast hgoes).within rfl rfl fun hu => hu.enter label body
      | branch depth => exact branch_activations hbefore hnext depth _
      | ret => exact leave_activations hbefore control _
      | call j => exact call_activations (hpast hgoes) j _

theorem start_activations {frame : Frame} {store : Store} (code : List Instr) :
    (start ⟨store, frame⟩ code).Activated inst code frame.types :=
  .outermost ⟨rfl, rfl, .start code⟩

/-- and the outermost locals have their types in the end -/
theorem run_types {c : Config} (h : c.Activated inst code ts) {fuel : Nat} {o : Outcome}
    (hr : run inst fuel c = some o) : o.state.frame.types = ts :=
  run_holds step_activations h hr

end Config

end WasmCore
