/-
What a trap leaves as it was.

An instruction checks before it changes: all in it that can trap comes before the one thing that writes to the memory, a
global or a local, if it writes at all (`Instr.exec_checksFirst`). So where it traps, and where it hands over to a branch, a
return or a call, it has touched the operand stack only (`State.Restacked`). What follows it enters or leaves functions and
touches the operand stack. A step that ends a run therefore leaves the memory, the globals and the locals of all functions
that are still active as they were before it (`Config.TrapsAt.untouched`, `Config.step_ended`).
-/
import WasmCore.Proofs.Steps
import WasmCore.Proofs.Trapping.Point

namespace WasmCore

/-! ## Instructions -/

/-- the same state but for the operand stack -/
def State.Restacked (s t : State) : Prop :=
  ∃ stack, t = { s with store.stack := stack }

namespace State.Restacked

variable {s t u : State}

theorem refl (s : State) : s.Restacked s :=
  ⟨s.store.stack, rfl⟩

theorem trans (h : s.Restacked t) (h' : t.Restacked u) : s.Restacked u := by
  obtain ⟨stack, rfl⟩ := h
  obtain ⟨stack', rfl⟩ := h'
  exact ⟨stack', rfl⟩

end State.Restacked

namespace Exec

variable {α β : Type} {x : Exec α}

/-- the computation touches the operand stack only, whether it answers or traps -/
def Restacks (x : Exec α) : Prop :=
  ∀ s, Ends x s (fun _ t => s.Restacked t) fun _ t => s.Restacked t

/-- if the computation traps, it has touched the operand stack only -/
def TrapsRestacked (x : Exec α) : Prop :=
  ∀ s, Ends x s (fun _ _ => True) fun _ t => s.Restacked t

/-- the computation does not trap, and control goes on to the next instruction -/
def GoesOn (x : Exec Flow) : Prop :=
  ∀ s, Ends x s (fun flow _ => flow = .next) fun _ _ => False

/-- It has touched the operand stack only if it traps, and if it answers anything but to go on. -/
def ChecksFirst (x : Exec Flow) : Prop :=
  ∀ s, Ends x s (fun flow t => flow = .next ∨ s.Restacked t) fun _ t => s.Restacked t

/-! ### One operation after another -/

theorem restacks_pure (a : α) : Restacks (pure a) :=
  fun s => .refl s

theorem restacks_throw (t : Trap) : Restacks (throw t : Exec α) :=
  fun s => .refl s

theorem restacks_ofExcept (r : Except Trap α) : Restacks (ofExcept r) := by
  cases r with
  | ok a => exact restacks_pure a
  | error t => exact restacks_throw t

/-- what is computed from the state alone -/
theorem restacks_get {f : State → Exec α} (h : ∀ s, Restacks (f s)) : Restacks (get >>= f) :=
  fun s => h s s

theorem restacks_bind {f : α → Exec β} (hx : Restacks x) (hf : ∀ a, Restacks (f a)) : Restacks (x >>= f) := by
  intro s
  apply ends_bind.2
  apply (hx s).mono
  · intro a t ht
    exact (hf a t).mono (fun _ _ h => ht.trans h) fun _ _ h => ht.trans h
  · intro _ t ht
    exact ht

theorem Restacks.checksFirst {x : Exec Flow} (h : Restacks x) : ChecksFirst x :=
  fun s => (h s).mono (fun _ _ ht => .inr ht) fun _ _ ht => ht

/-- another check -/
theorem checksFirst_bind {f : α → Exec Flow} (hx : Restacks x) (hf : ∀ a, ChecksFirst (f a)) :
    ChecksFirst (x >>= f) := by
  intro s
  apply ends_bind.2
  apply (hx s).mono
  · intro a t ht
    exact (hf a t).mono (fun _ _ h => h.imp_right ht.trans) fun _ _ h => ht.trans h
  · intro _ t ht
    exact ht

/-- the change, after which nothing can fail -/
theorem checksFirst_change {f : α → Exec Flow} (hx : TrapsRestacked x) (hf : ∀ a, GoesOn (f a)) :
    ChecksFirst (x >>= f) := by
  intro s
  apply ends_bind.2
  apply (hx s).mono
  · intro a t _
    exact (hf a t).mono (fun _ _ h => .inl h) fun _ _ h => h.elim
  · intro _ t ht
    exact ht

theorem checksFirst_pure (flow : Flow) : ChecksFirst (pure flow) :=
  (restacks_pure flow).checksFirst

theorem goesOn_next : GoesOn (pure .next) :=
  fun _ => rfl

theorem goesOn_push (c : Cell) : GoesOn (push c >>= fun _ => pure .next) :=
  fun _ => rfl

/-! ### Operations -/

theorem restacks_push (c : Cell) : Restacks (push c) :=
  fun s => ⟨s.store.stack.push c, rfl⟩

theorem restacks_pop : Restacks pop := by
  intro s
  apply ends_bind.2
  apply ends_bind.2
  apply ends_ofExcept
  · rintro ⟨c, stack⟩ _
    exact ⟨stack, rfl⟩
  · intro _ _
    exact .refl s

theorem restacks_peek : Restacks peek :=
  restacks_get fun _ => restacks_ofExcept _

theorem restacks_readMemory (address length : Nat) : Restacks (readMemory address length) :=
  restacks_get fun _ => restacks_ofExcept _

theorem restacks_pages : Restacks pages :=
  restacks_get fun _ => restacks_pure _

theorem restacks_readLocal (i : UInt32) : Restacks (readLocal i) :=
  restacks_get fun _ => restacks_ofExcept _

theorem restacks_readGlobal (i : UInt32) : Restacks (readGlobal i) :=
  restacks_get fun _ => restacks_bind (restacks_ofExcept _) fun _ => restacks_pure _

theorem restacks_enterBody (restarts : Bool) (type : BlockType) (body : List Instr) :
    Restacks (enterBody restarts type body) :=
  restacks_get fun _ => restacks_pure _

theorem trapsRestacked_writeMemory (address length n : Nat) : TrapsRestacked (writeMemory address length n) := by
  intro s
  apply ends_bind.2
  apply ends_bind.2
  apply ends_ofExcept
  · intro _ _
    trivial
  · intro _ _
    exact .refl s

theorem trapsRestacked_growMemory (delta : Nat) : TrapsRestacked (growMemory delta) := by
  intro s
  apply ends_bind.2
  apply ends_get.2
  by_cases h : s.store.memory.canGrow delta
  · rw [if_pos h]
    trivial
  · rw [if_neg h]
    trivial

theorem trapsRestacked_writeLocal (i : UInt32) (c : Cell) : TrapsRestacked (writeLocal i c) := by
  intro s
  apply ends_bind.2
  apply ends_get.2
  by_cases h : i.toNat < s.frame.size
  · rw [if_pos h]
    trivial
  · rw [if_neg h]
    exact .refl s

theorem trapsRestacked_writeGlobal (i : UInt32) (c : Cell) : TrapsRestacked (writeGlobal i c) := by
  intro s
  apply ends_bind.2
  apply ends_bind.2
  apply ends_ofExcept
  · intro _ _
    trivial
  · intro _ _
    exact .refl s

end Exec

open Exec in
/-- **An instruction checks before it changes.** The memory, the globals and the locals are as before if it traps or if
control does not simply go on after it, in valid and in invalid code. -/
theorem Instr.exec_checksFirst (inst : Instance) (i : Instr) : (i.exec inst).ChecksFirst := by
  cases i with
  -- those that change something else than the operand stack, after their checks
  | store op arg =>
    apply checksFirst_bind restacks_pop
    intro value
    apply checksFirst_bind restacks_pop
    intro base
    exact checksFirst_change (trapsRestacked_writeMemory _ _ _) fun _ => goesOn_next
  | memoryGrow =>
    apply checksFirst_bind restacks_pop
    intro delta
    apply checksFirst_change (trapsRestacked_growMemory _)
    intro before
    cases before with
    | none => exact goesOn_push _
    | some before => exact goesOn_push _
  | localSet i =>
    apply checksFirst_bind restacks_pop
    intro c
    exact checksFirst_change (trapsRestacked_writeLocal i c) fun _ => goesOn_next
  | localTee i =>
    apply checksFirst_bind restacks_peek
    intro c
    exact checksFirst_change (trapsRestacked_writeLocal i c) fun _ => goesOn_next
  | globalSet i =>
    apply checksFirst_bind restacks_pop
    intro c
    exact checksFirst_change (trapsRestacked_writeGlobal i c) fun _ => goesOn_next
  -- those that change the operand stack only
  | unreachable => exact (restacks_throw _).checksFirst
  | nop => exact checksFirst_pure _
  | drop => exact checksFirst_bind restacks_pop fun _ => checksFirst_pure _
  | select =>
    apply checksFirst_bind restacks_pop
    intro condition
    apply checksFirst_bind restacks_pop
    intro b
    apply checksFirst_bind restacks_pop
    intro a
    exact checksFirst_bind (restacks_push _) fun _ => checksFirst_pure _
  | const v => exact checksFirst_bind (restacks_push _) fun _ => checksFirst_pure _
  | unary op =>
    apply checksFirst_bind restacks_pop
    intro a
    exact checksFirst_bind (restacks_push _) fun _ => checksFirst_pure _
  | binary op =>
    apply checksFirst_bind restacks_pop
    intro b
    apply checksFirst_bind restacks_pop
    intro a
    apply checksFirst_bind (restacks_ofExcept _)
    intro c
    exact checksFirst_bind (restacks_push c) fun _ => checksFirst_pure _
  | load op arg =>
    apply checksFirst_bind restacks_pop
    intro base
    apply checksFirst_bind (restacks_readMemory _ _)
    intro n
    exact checksFirst_bind (restacks_push _) fun _ => checksFirst_pure _
  | memorySize =>
    apply checksFirst_bind restacks_pages
    intro n
    exact checksFirst_bind (restacks_push _) fun _ => checksFirst_pure _
  | localGet i =>
    apply checksFirst_bind (restacks_readLocal i)
    intro c
    exact checksFirst_bind (restacks_push c) fun _ => checksFirst_pure _
  | globalGet i =>
    apply checksFirst_bind (restacks_readGlobal i)
    intro c
    exact checksFirst_bind (restacks_push c) fun _ => checksFirst_pure _
  | call i => exact checksFirst_pure _
  | callIndirect typeIndex tableIndex =>
    apply checksFirst_bind restacks_pop
    intro slot
    apply checksFirst_bind (restacks_ofExcept _)
    intro declared
    exact checksFirst_bind (restacks_ofExcept _) fun _ => checksFirst_pure _
  | block type body => exact (restacks_enterBody _ _ _).checksFirst
  | loop type body => exact (restacks_enterBody _ _ _).checksFirst
  | ite type body otherwise =>
    apply checksFirst_bind restacks_pop
    intro condition
    exact (restacks_enterBody _ _ _).checksFirst
  | br depth => exact checksFirst_pure _
  | brIf depth => exact checksFirst_bind restacks_pop fun _ => checksFirst_pure _
  | brTable targets fallback => exact checksFirst_bind restacks_pop fun _ => checksFirst_pure _
  | ret => exact checksFirst_pure _

theorem Instr.exec_error {inst : Instance} {i : Instr} {s s' : State} {t : Trap} (h : i.exec inst s = .error t s') :
    s.Restacked s' := by
  have hfirst := i.exec_checksFirst inst s
  unfold Exec.Ends at hfirst
  rwa [h] at hfirst

theorem Instr.exec_ok {inst : Instance} {i : Instr} {s s' : State} {flow : Flow} (h : i.exec inst s = .ok flow s') :
    flow = .next ∨ s.Restacked s' := by
  have hfirst := i.exec_checksFirst inst s
  unfold Exec.Ends at hfirst
  rwa [h] at hfirst

/-! ## Steps -/

namespace Config

variable {inst : Instance} {c c' : Config}

/-- the locals of the functions that are active, the innermost first -/
def frames (c : Config) : List Frame :=
  c.state.frame :: c.callers.map Caller.frame

theorem getLast?_frames (c : Config) : c.frames.getLast? = some c.outermostFrame := by
  unfold frames outermostFrame
  rw [List.getLast?_cons, List.getLast?_map]
  cases c.callers.getLast? <;> rfl

/-- The memory and the globals are the same, and so are the locals of all functions that are still active: one may have been
left. -/
structure Untouched (c c' : Config) : Prop where
  memory : c'.state.store.memory = c.state.store.memory
  globals : c'.state.store.globals = c.state.store.globals
  frames : c'.frames = c.frames ∨ c'.frames = c.frames.tail

theorem Untouched.outermostFrame (h : c.Untouched c') : c'.outermostFrame = c.outermostFrame := by
  apply Option.some.inj
  rw [← getLast?_frames, ← getLast?_frames]
  rcases h.frames with heq | heq
  · rw [heq]
  · -- the function that has been left is not the outermost one, since another is active after it
    have hframes : c.frames = c.state.frame :: c'.frames := by
      rw [heq]
      rfl
    rw [hframes]
    exact List.getLast?_cons_cons.symm

/-- control moves on -/
theorem Untouched.after {s : State} {control : Control} (before : c.state.Restacked s)
    (h : Untouched ⟨s, control, c.callers⟩ c') : c.Untouched c' := by
  obtain ⟨stack, rfl⟩ := before
  exact ⟨h.memory, h.globals, h.frames⟩

theorem LeaveTraps.untouched {site : Option Site} {e : ExecError} (h : c.LeaveTraps site e c') : c.Untouched c' := by
  cases h with
  | short waiting unwind =>
    refine ⟨rfl, rfl, .inr ?_⟩
    simp only [Config.frames, waiting, List.map_cons, List.tail_cons]

theorem FollowTraps.untouched {site : Site} {flow : Flow} {e : ExecError} (h : c.FollowTraps inst site flow e c') :
    c.Untouched c' := by
  cases h with
  | beyond | cells | missing | host | refused => exact ⟨rfl, rfl, .inl rfl⟩
  | out blocks leave => exact leave.untouched
  | ret leave => exact leave.untouched

/-- **A step that traps has touched nothing but the operand stack**, in valid and in invalid code -/
theorem TrapsAt.untouched {e : ExecError} (h : c.TrapsAt inst e c') : c.Untouched c' := by
  cases h with
  | instr next exec => exact .after (Instr.exec_error exec) ⟨rfl, rfl, .inl rfl⟩
  | follow next exec traps =>
    rcases Instr.exec_ok exec with rfl | hrestacked
    · cases traps
    · exact .after hrestacked traps.untouched
  | finish next blocks leave => exact leave.untouched

/-! ### The end of a run -/

theorem leave_ok {site : Option Site} {s : State} (h : c.leave site = .ended ⟨.ok (), s⟩) :
    s = c.state ∧ c.callers = [] := by
  unfold leave at h
  cases hcallers : c.callers with
  | nil =>
    rw [hcallers] at h
    cases h
    exact ⟨rfl, rfl⟩
  | cons caller callers =>
    simp only [hcallers] at h
    split at h <;> cases h

theorem branch_ok {depth : UInt32} {site : Site} {s : State} (h : c.branch depth site = .ended ⟨.ok (), s⟩) :
    s = c.state ∧ c.callers = [] := by
  unfold branch at h
  cases hdrop : c.control.blocks.drop depth.toNat with
  | nil =>
    simp only [hdrop] at h
    by_cases hd : depth.toNat = c.control.blocks.length
    · rw [if_pos hd] at h
      exact leave_ok h
    · rw [if_neg hd] at h
      cases h
  | cons target outer =>
    simp only [hdrop] at h
    split at h <;> cases h

/-- a call does not end the run, but by trapping -/
theorem call_ok {i : UInt32} {site : Site} {s : State} : c.call inst i site ≠ .ended ⟨.ok (), s⟩ := by
  intro h
  cases hf : inst.function i with
  | error t =>
    rw [call_missing hf] at h
    cases h
  | ok f =>
    cases hbody : f.body with
    | host host =>
      rw [call_host hf hbody] at h
      split at h <;> cases h
    | code code =>
      rw [call_code hf hbody] at h
      split at h <;> cases h

theorem follow_ok {flow : Flow} {site : Site} {s : State} (h : follow inst c site flow = .ended ⟨.ok (), s⟩) :
    flow ≠ .next ∧ s = c.state ∧ c.callers = [] := by
  cases flow with
  | next => cases h
  | enter label body => cases h
  | branch depth => exact ⟨nofun, branch_ok h⟩
  | ret => exact ⟨nofun, leave_ok h⟩
  | call i => exact (call_ok h).elim

/-- the last step of a run that succeeds leaves the outermost sequence, and does nothing else to the state -/
theorem step_ok {s : State} (h : c.step inst = .ended ⟨.ok (), s⟩) : c.state.Restacked s ∧ c.callers = [] := by
  unfold step at h
  cases hnext : c.control.next? with
  | none =>
    simp only [hnext, finishSequence] at h
    cases hblocks : c.control.blocks with
    | nil =>
      rw [hblocks] at h
      obtain ⟨rfl, hcallers⟩ := leave_ok h
      exact ⟨.refl _, hcallers⟩
    | cons b blocks =>
      rw [hblocks] at h
      cases h
  | some next =>
    obtain ⟨i, control⟩ := next
    simp only [hnext] at h
    cases hexec : i.exec inst c.state with
    | error t state =>
      rw [hexec] at h
      cases h
    | ok flow state =>
      rw [hexec] at h
      obtain ⟨hflow, rfl, hcallers⟩ := follow_ok h
      exact ⟨(Instr.exec_ok hexec).resolve_left hflow, hcallers⟩

/-- **The step that ends a run has no effect** on the memory, the globals and the outermost locals, whether the run fails or
succeeds. -/
theorem step_ended {o : Outcome} (h : c.step inst = .ended o) :
    o.state.store.memory = c.state.store.memory ∧ o.state.store.globals = c.state.store.globals ∧
      o.state.frame = c.outermostFrame := by
  obtain ⟨result, s⟩ := o
  cases result with
  | error e =>
    obtain ⟨c', htraps⟩ := step_error_iff.1 ⟨s, h⟩
    have hfail := h.symm.trans htraps.step
    cases hfail
    exact ⟨htraps.untouched.memory, htraps.untouched.globals, htraps.untouched.outermostFrame⟩
  | ok _ =>
    obtain ⟨⟨stack, rfl⟩, hcallers⟩ := step_ok h
    refine ⟨rfl, rfl, ?_⟩
    simp [Config.outermostFrame, hcallers]

end Config

end WasmCore
