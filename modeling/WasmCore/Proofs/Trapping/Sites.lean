/-
Sites name the faulting instruction.

A run that fails has come to a last step. If the error has a site, that step ran an instruction, and the site is where this
instruction stands: its index in the innermost sequence, which is the one at the top of the control stack, the body of the
active function or a body nested in it; and the leading byte of its opcode (`Config.TrapsAt.names`). So it is never an
instruction of a function that waits. If the error has no site, the step was at the end of the body of a function that was
called within the run, and there were too few cells for its results (`Config.TrapsAt.endsShort`).

How many cells those are is said by what its caller has kept: the height of the stack where the function was entered, and
the number of its results. That the caller has kept these is an invariant of the run (`Config.reaches_entered`).
-/
import WasmCore.Proofs.Structured.Scoping
import WasmCore.Proofs.Trapping.Requests
import WasmCore.Proofs.Typing.Activations

namespace WasmCore

variable {inst : Instance}

/-! ## The top of the control stack -/

def Entry.sequence : Entry → Sequence
  | .function body => body
  | .construct block => block.body

namespace Config

theorem getLast_controlStack (c : Config) : c.controlStack.getLast?.map Entry.sequence = some c.control.innermost := by
  obtain ⟨state, ⟨blocks, body⟩, callers⟩ := c
  cases blocks with
  | nil => simp [controlStack, Control.entries, Control.innermost, Entry.sequence]
  | cons b blocks =>
    rw [controlStack, Control.entries, List.map_cons, List.reverse_cons, ← List.cons_append, ← List.append_assoc,
      List.getLast?_append]
    rfl

/-! ## Where functions were entered -/

variable {c c₀ d : Config}

theorem leave_callers {site : Option Site} (h : c.leave site = .running d) : d.callers.length < c.callers.length := by
  unfold leave at h
  cases hcallers : c.callers with
  | nil =>
    rw [hcallers] at h
    cases h
  | cons caller callers =>
    simp only [hcallers] at h
    split at h
    · cases h
      exact Nat.lt_succ_self _
    · cases h

theorem branch_callers {depth : UInt32} {site : Site} (h : c.branch depth site = .running d) :
    d.callers.length ≤ c.callers.length := by
  unfold branch at h
  split at h
  · split at h
    · exact Nat.le_of_lt (leave_callers h)
    · cases h
  · split at h
    · cases h
    · cases h
      exact Nat.le_refl _

/-- The function `f` of the guest is about to run its body, over its arguments' place on the stack; `caller` waits for it and
has kept the height that the stack has and the number of its results. -/
structure Enters (inst : Instance) (d : Config) (f : Function) (caller : Caller) (callers : List Caller) : Prop where
  function : f ∈ inst.functions
  body : f.body = .code d.control.body.code
  control : d.control = .start d.control.body.code
  waiting : d.callers = caller :: callers
  height : caller.height = d.state.store.stack.height
  arity : caller.arity = f.type.results.length

theorem call_enters {j : UInt32} {site : Site} (h : c.call inst j site = .running d)
    (hmore : c.callers.length < d.callers.length) : ∃ f caller, d.Enters inst f caller c.callers := by
  cases hf : inst.function j with
  | error t =>
    rw [call_missing hf] at h
    cases h
  | ok f =>
    cases hbody : f.body with
    | host host =>
      rw [call_host hf hbody] at h
      split at h
      · cases h
      · cases h
        exact absurd hmore (Nat.lt_irrefl _)
    | code body =>
      rw [call_code hf hbody] at h
      split at h
      · cases h
      · cases h
        exact ⟨f, _, Array.mem_of_getElem? (Instance.function_ok_iff.1 hf), hbody, rfl, rfl, rfl, rfl⟩

theorem follow_enters {site : Site} {flow : Flow} (h : follow inst c site flow = .running d)
    (hmore : c.callers.length < d.callers.length) : ∃ f caller, d.Enters inst f caller c.callers := by
  cases flow with
  | next =>
    cases h
    exact absurd hmore (Nat.lt_irrefl _)
  | enter label body =>
    cases h
    exact absurd hmore (Nat.lt_irrefl _)
  | branch depth => exact absurd hmore (Nat.not_lt.2 (branch_callers h))
  | ret => exact absurd (leave_callers h) (Nat.lt_asymm hmore)
  | call j => exact call_enters h hmore

/-- a step after which more functions wait has entered one -/
theorem step_enters (h : c.step inst = .running d) (hmore : c.callers.length < d.callers.length) :
    ∃ f caller, d.Enters inst f caller c.callers := by
  unfold step at h
  cases hnext : c.control.next? with
  | none =>
    simp only [hnext, finishSequence] at h
    split at h
    · exact absurd (leave_callers h) (Nat.lt_asymm hmore)
    · cases h
      exact absurd hmore (Nat.lt_irrefl _)
  | some next =>
    obtain ⟨i, control⟩ := next
    simp only [hnext] at h
    cases hexec : i.exec inst c.state with
    | error t s =>
      rw [hexec] at h
      cases h
    | ok flow s =>
      simp only [hexec] at h
      exact follow_enters (c := ⟨s, control, c.callers⟩) h hmore

/-- The active function runs the body that it has run since it was entered, and so do those that wait, but for the outermost
one, which was not entered within the run. -/
inductive Entered (inst : Instance) (c₀ c : Config) : Control → List Caller → Prop
  | outermost {k : Control} : Entered inst c₀ c k []
  | called {k : Control} {d : Config} {f : Function} {caller : Caller} {callers : List Caller}
      (before : c₀.Reaches inst d) (since : d.Reaches inst c) (enters : d.Enters inst f caller callers)
      (same : k.body.code = d.control.body.code) (outer : Entered inst c₀ c caller.control callers) :
      Entered inst c₀ c k (caller :: callers)

namespace Entered

variable {k k' : Control} {callers : List Caller}

theorem later (h : Entered inst c₀ c k callers) (hr : c.Reaches inst d) : Entered inst c₀ d k callers := by
  induction h with
  | outermost => exact .outermost
  | called before since enters same _ ih => exact .called before (since.trans hr) enters same ih

/-- the active function goes on -/
theorem within (h : Entered inst c₀ c k callers) (same : k'.body.code = k.body.code) : Entered inst c₀ c k' callers := by
  cases h with
  | outermost => exact .outermost
  | called before since enters same' outer => exact .called before since enters (same.trans same') outer

theorem step (h : Entered inst c₀ c c.control c.callers) (hr : c₀.Reaches inst c) (hs : c.step inst = .running d) :
    Entered inst c₀ d d.control d.callers := by
  have hlater := h.later (.single hs)
  have hafter := hr.tail hs
  cases step_advances hs with
  | passed next => exact hlater.within (Control.code_next next)
  | @opened i control _ _ _ _ next _ =>
    have hsame : control.body.code = c.control.body.code := Control.code_next next
    exact hlater.within hsame
  | @branched i control _ _ _ _ next _ =>
    have hsame : control.body.code = c.control.body.code := Control.code_next next
    exact hlater.within hsame
  | closed _ => exact hlater.within rfl
  | entered next _ _ control_eq =>
    obtain ⟨f, caller, henters⟩ := step_enters hs (Nat.lt_succ_self _)
    cases henters.waiting
    exact .called hafter .refl henters rfl (hlater.within (control_eq ▸ Control.code_next next))
  | left waiting =>
    rw [waiting] at hlater
    cases hlater with
    | called _ _ _ _ outer => exact outer

end Entered

/-- **Who waits has kept what it waits for**, wherever a run comes to -/
theorem reaches_entered (h : c₀.Reaches inst c) (hstart : c₀.callers = []) :
    Entered inst c₀ c c.control c.callers := by
  induction h with
  | refl =>
    rw [hstart]
    exact .outermost
  | tail hr hs ih => exact ih.step hr hs

/-! ## The last step -/

/-- The site is where the instruction stands that is to be run next: the element of that index in the sequence at the top of
the control stack, of which nothing but what comes from there on is left. This sequence belongs to the active function: it is
the body `body` or a body nested in it, and all that is above the function's own entry are the constructs around it. -/
inductive Names (inst : Instance) (code : List Instr) (c : Config) : Site → Prop
  | mk {i : Instr} {control : Control} {body : List Instr} {path : List (Nat × Bool)} {around : List Instr}
      {top : Entry} {n : Nat} (next : c.control.next? = some (i, control)) (active : c.Runs inst code body)
      (place : enclosing body path = some (around, top.sequence.code))
      (uppermost : c.controlStack.getLast? = some top) (own : c.controlStack.length = c.floor + 1 + around.length)
      (element : top.sequence.code[n]? = some i) (left : top.sequence.rest = top.sequence.code.drop n) :
      Names inst code c ⟨i.opcode, n⟩

/-- The body of a function has come to its end that was entered within the run from `c₀`, and there are fewer cells than those
over which it was entered and its results. -/
inductive EndsShort (inst : Instance) (c₀ c : Config) : Trap → Prop
  | mk {d : Config} {f : Function} {caller : Caller} {callers : List Caller} (next : c.control.next? = none)
      (blocks : c.control.blocks = []) (body : f.body = .code c.control.body.code)
      (waiting : c.callers = caller :: callers) (before : c₀.Reaches inst d) (since : d.Reaches inst c)
      (enters : d.Enters inst f caller callers)
      (short : c.state.store.stack.height < d.state.store.stack.height + f.type.results.length) :
      EndsShort inst c₀ c
        (.stackUnderflow (d.state.store.stack.height + f.type.results.length) c.state.store.stack.height)

variable {code : List Instr} {s : State} {e : ExecError} {i : Instr} {control : Control}

theorem length_controlStack (c : Config) : c.controlStack.length = c.floor + 1 + c.control.blocks.length := by
  rw [floor_eq, controlStack, List.length_append, Control.length_entries]
  omega

/-- the instruction that comes next is named by its opcode and the index that it is taken from -/
theorem names_next (hr : (start s code).Reaches inst c) (hnext : c.control.next? = some (i, control)) :
    c.Names inst code ⟨i.opcode, control.innermost.index⟩ := by
  obtain ⟨body, hscopes⟩ := reaches_scoped hr
  obtain ⟨path, hplace⟩ := hscopes.place
  obtain ⟨around, hpath, hopen⟩ := hplace.enclosed
  obtain ⟨top, htop, hsequence⟩ := Option.map_eq_some_iff.1 c.getLast_controlStack
  obtain ⟨-, n, helement, hafter⟩ := hplace.next hnext
  obtain ⟨hlt, hget⟩ := List.getElem?_eq_some_iff.1 helement
  have hindex : control.innermost.index = n := by
    rw [Sequence.index, hafter, List.length_drop]
    omega
  rw [hindex]
  obtain ⟨rest, hrest, rfl⟩ := Control.next?_eq_some hnext
  simp only [Control.innermost_withRest] at helement hafter hlt hget
  refine .mk hnext (runs_of_scopes hscopes) (hsequence ▸ hpath) htop ?_ (hsequence ▸ helement) ?_
  · rw [length_controlStack, hopen.length_eq]
  · rw [hsequence, hrest, List.drop_eq_getElem_cons hlt, hget, ← hafter]

theorem endsShort_finish {site : Option Site} (hr : c₀.Reaches inst c) (hstart : c₀.callers = [])
    (hnext : c.control.next? = none) (hblocks : c.control.blocks = []) (h : c.LeaveTraps site e d) :
    EndsShort inst c₀ c e.trap := by
  cases h with
  | @short caller callers t waiting unwind =>
    have hentered := reaches_entered hr hstart
    rw [waiting] at hentered
    cases hentered with
    | called before since enters same _ =>
      obtain ⟨rfl, hshort⟩ := OperandStack.error_unwind unwind
      rw [enters.height, enters.arity]
      exact .mk hnext hblocks (same ▸ enters.body) waiting before since enters (enters.height ▸ enters.arity ▸ hshort)

theorem LeaveTraps.site_eq {site : Option Site} (h : c.LeaveTraps site e d) : e.site = site := by
  cases h
  rfl

theorem FollowTraps.site_eq {site : Site} {flow : Flow} (h : c.FollowTraps inst site flow e d) : e.site = some site := by
  cases h with
  | beyond | cells | missing | host | refused => rfl
  | out blocks leave => exact leave.site_eq
  | ret leave => exact leave.site_eq

/-- a step that traps with a site runs the instruction that the site names -/
theorem TrapsAt.names {site : Site} (hr : (start s code).Reaches inst c) (h : c.TrapsAt inst e d)
    (hsite : e.site = some site) : c.Names inst code site := by
  cases h with
  | instr next exec =>
    cases hsite
    exact names_next hr next
  | follow next exec traps =>
    cases traps.site_eq.symm.trans hsite
    exact names_next hr next
  | finish next blocks leave => cases leave.site_eq.symm.trans hsite

/-- a step that traps without a site is at the end of a function that has not left its results -/
theorem TrapsAt.endsShort (hr : (start s code).Reaches inst c) (h : c.TrapsAt inst e d) (hsite : e.site = none) :
    EndsShort inst (start s code) c e.trap := by
  cases h with
  | instr next exec => cases hsite
  | follow next exec traps => cases traps.site_eq.symm.trans hsite
  | finish next blocks leave => exact endsShort_finish hr rfl next blocks leave

end Config

namespace Machine

/-- **Sites name the faulting instruction.** Whatever the code, the functions and the state are, if a sequence fails, its run
has come to a step that traps. If the error has a site, this step ran the instruction that the site names, by its index and
its opcode, in the innermost sequence of the active function. If it has none, the step was at the end of the body of a
function that was called within the run and has not left its results, and the trap is for want of these. -/
theorem failure_sites {m m' : Machine} {fuel : Nat} {code : List Instr} {frame frame' : Frame} {e : ExecError}
    (h : m.execute fuel code frame = some (.error e, frame', m')) :
    ∃ c d, Config.Reaches m.inst (.start ⟨m.store, frame⟩ code) c ∧ c.TrapsAt m.inst e d ∧
      (∀ site, e.site = some site → c.Names m.inst code site) ∧
      (e.site = none → Config.EndsShort m.inst (.start ⟨m.store, frame⟩ code) c e.trap) := by
  obtain ⟨c, s, hreaches, hlast, -, -⟩ := execute_last h
  obtain ⟨d, htraps⟩ := Config.step_error_iff.1 ⟨s, hlast⟩
  exact ⟨c, d, hreaches, htraps, fun _ => htraps.names hreaches, htraps.endsShort hreaches⟩

/-- a function that traps within a block, and one that leaves no result -/
def faulty : Machine :=
  ⟨⟨#[], #[.guest "f" ⟨[], []⟩ [] [.block .empty [.const (.i32 0), .drop, .unreachable]],
    .guest "g" ⟨[], [.i32]⟩ [] []], #[], 1⟩, #[], ⟨.empty 1, .new 0 none, #[], 0⟩⟩

/-- The site is that of the third instruction in the block of the callee, and not of the call, which is the second one of its
caller. The call of the function without a result fails without a site. -/
theorem failure_sites_nested :
    (∃ c, Config.Reaches faulty.inst (.start ⟨faulty.store, .empty⟩ [.nop, .call 0]) c ∧
      c.Names faulty.inst [.nop, .call 0] ⟨0x00, 2⟩) ∧
    ∃ c, Config.Reaches faulty.inst (.start ⟨faulty.store, .empty⟩ [.call 1]) c ∧
      Config.EndsShort faulty.inst (.start ⟨faulty.store, .empty⟩ [.call 1]) c (.stackUnderflow 1 0) := by
  have hsited : faulty.execute 6 [.nop, .call 0] .empty =
      some (.error (.located .unreachable ⟨0x00, 2⟩), .empty, faulty) := rfl
  have hunlocated : faulty.execute 2 [.call 1] .empty =
      some (.error (.unlocated (.stackUnderflow 1 0)), .empty, faulty) := rfl
  obtain ⟨c, -, hreaches, -, hnames, -⟩ := failure_sites hsited
  obtain ⟨c', -, hreaches', -, -, hshort⟩ := failure_sites hunlocated
  exact ⟨⟨c, hreaches, hnames _ rfl⟩, c', hreaches', hshort rfl⟩

end Machine

end WasmCore
