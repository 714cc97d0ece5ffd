/-
One control stack and many.

A configuration keeps each function's open constructs apart. The loop of `Machine.Flat` has all of them on one control stack,
and tells a function's own by numbers. The two run in step: laid out on one stack (`Config.flatten`), a configuration does
what the loop does (`Config.flatten_step`), as long as its innermost sequence is at some point of its code, which in a run it
is. So both come to the same outcomes (`Flat.run_start`, `Machine.execute_flat`), and the loop comes through nothing but what
a configuration laid out can be (`Flat.reaches_flatten`).
-/
import WasmCore.Machine.Flat
import WasmCore.Proofs.Structured.Scoping

namespace WasmCore

variable {inst : Instance}

/-! ## Parts of a round -/

namespace Flat

variable {m : Flat} {idx : Nat} {e : Flat.Entry}

theorem get_bind (f : Flat → Part Unit) (m : Flat) : ((get : Part Flat) >>= f) m = f m m :=
  rfl

theorem modify_bind (g : Flat → Flat) (f : Unit → Part Unit) (m : Flat) :
    ((modify g : Part Unit) >>= f) m = f () (g m) :=
  rfl

theorem unwindTo_eq (height keep : Nat) (m : Flat) : unwindTo height keep m =
    match m.store.stack.unwind height keep with
    | .error t => .error t m
    | .ok stack => .ok () { m with store.stack := stack } := by
  have hpart : unwindTo height keep m = EStateM.bind (ofExcept (m.store.stack.unwind height keep))
      (fun stack m => .ok () { m with store.stack := stack }) m := rfl
  rw [hpart]
  cases m.store.stack.unwind height keep <;> rfl

theorem leaveFunction_called {calls : List Activation} {act : Activation} (hcalls : m.calls = calls ++ [act])
    (hidx : idx ≠ 0) : leaveFunction idx m =
      match m.store.stack.unwind act.base act.arity with
      | .error t => .error t { m with store.depth := m.store.depth - 1, ctrl := m.ctrl.take idx, calls }
      | .ok stack =>
        .ok () { m with store := { m.store with stack, depth := m.store.depth - 1 }, ctrl := m.ctrl.take idx, calls } := by
  have hlast : m.calls.getLast? = some act := by rw [hcalls, List.getLast?_concat]
  have hrest : m.calls.dropLast = calls := by rw [hcalls, List.dropLast_concat]
  unfold leaveFunction
  rw [modify_bind, if_pos hidx, get_bind]
  dsimp only
  rw [hlast]
  dsimp only
  rw [modify_bind, unwindTo_eq, hrest]

/-- a branch that stops at an entry of the active function goes there -/
theorem target?_split {lower upper : List Flat.Entry} (hctrl : m.ctrl = lower ++ e :: upper)
    (hfloor : m.floor ≤ lower.length) : m.target? upper.length = some (lower.length, e) := by
  have hlen : m.ctrl.length = lower.length + (1 + upper.length) := by
    rw [hctrl, List.length_append, List.length_cons, Nat.add_comm 1]
  have hidx : m.ctrl.length - (1 + upper.length) = lower.length := by omega
  rw [target?, hidx, if_pos ⟨by omega, hfloor⟩, hctrl, List.getElem?_append_right (Nat.le_refl _), Nat.sub_self]
  rfl

/-- one that counts further does not -/
theorem target?_below {depth : Nat} (h : m.ctrl.length ≤ m.floor + depth) : m.target? depth = none :=
  if_neg (by omega)

theorem branch_eq (depth : UInt32) (m : Flat) : branch depth m =
    match m.target? depth.toNat with
    | none => .error (.invalidBranchDepth depth) m
    | some (idx, e) => branchTo idx e m := by
  have hpart : branch depth m = (match m.target? depth.toNat with
      | none => throw (.invalidBranchDepth depth)
      | some (idx, e) => branchTo idx e : Part Unit) m := rfl
  rw [hpart]
  cases m.target? depth.toNat <;> rfl

theorem branchTo_function (he : e.owner = .function) : branchTo idx e m = leaveFunction idx m := by
  unfold branchTo
  rw [he]

theorem branchTo_construct {label : Label} (he : e.owner = .construct label) : branchTo idx e m =
    match m.store.stack.unwind label.height label.branchArity with
    | .error t => .error t m
    | .ok stack => .ok () { m with
        store.stack := stack
        ctrl := if label.restarts then m.ctrl.take idx ++ [{ e with pc := 0 }] else m.ctrl.take idx } := by
  simp only [branchTo, he, bind, EStateM.bind, unwindTo_eq]
  cases m.store.stack.unwind label.height label.branchArity with
  | error t => rfl
  | ok stack => cases label.restarts <;> rfl

section

variable {lower upper : List Flat.Entry} {depth : UInt32} (hctrl : m.ctrl = lower ++ e :: upper)
  (hdepth : upper.length = depth.toNat)
include hctrl hdepth

/-- a branch to the entry of the active function leaves this -/
theorem branch_function (he : e.owner = .function) (hfloor : m.floor = lower.length) :
    branch depth m = leaveFunction m.floor m := by
  have htarget := target?_split hctrl (Nat.le_of_eq hfloor)
  rw [hdepth, ← hfloor] at htarget
  rw [branch_eq, htarget]
  exact branchTo_function he

/-- a branch to a construct of the active function leaves this or starts it again -/
theorem branch_construct {label : Label} (he : e.owner = .construct label) (hfloor : m.floor ≤ lower.length) :
    branch depth m =
      match m.store.stack.unwind label.height label.branchArity with
      | .error t => .error t m
      | .ok stack => .ok () { m with
          store.stack := stack
          ctrl := if label.restarts then lower ++ [{ e with pc := 0 }] else lower } := by
  have htarget := target?_split hctrl hfloor
  rw [hdepth] at htarget
  have htake : m.ctrl.take lower.length = lower := by rw [hctrl, List.take_left' rfl]
  rw [branch_eq, htarget]
  dsimp only
  rw [branchTo_construct he, htake]

end

/-- a branch that counts further than the active function's entries -/
theorem branch_invalid {depth : UInt32} (h : m.ctrl.length ≤ m.floor + depth.toNat) :
    branch depth m = .error (.invalidBranchDepth depth) m := by
  rw [branch_eq, target?_below h]

theorem callHost_eq (h : HostFunc) (m : Flat) : callHost h m =
    match h.call m.store.stack with
    | (.error t, stack) => .error t { m with store.stack := stack }
    | (.ok (), stack) => .ok () { m with store.stack := stack } := by
  have hpart : callHost h m =
      (ofExcept (h.call m.store.stack).1 : Part Unit) { m with store.stack := (h.call m.store.stack).2 } := rfl
  rw [hpart]
  rcases h.call m.store.stack with ⟨_ | _, stack⟩ <;> rfl

theorem enterGuest_eq (f : Function) (code : List Instr) (m : Flat) : enterGuest inst f code m =
    match f.enter inst m.store with
    | .error t => .error t m
    | .ok (frame, store) => .ok () { m with
        store
        ctrl := m.ctrl ++ [⟨code, 0, .function⟩]
        calls := m.calls ++ [⟨frame, store.stack.height, f.type.results.length, m.ctrl.length⟩] } := by
  unfold enterGuest Function.enter
  rw [get_bind]
  by_cases hd : inst.maxCallDepth ≤ m.store.depth
  · rw [if_pos hd, if_pos hd]
    rfl
  · rw [if_neg hd, if_neg hd]
    dsimp only
    rw [get_bind]
    cases Frame.enter m.store.stack f.type.params f.locals <;> rfl

theorem enterCall_missing {i : UInt32} {t : Trap} (hf : inst.function i = .error t) :
    enterCall inst i m = .error t m := by
  simp only [enterCall, hf, bind, EStateM.bind]
  rfl

theorem enterCall_host {i : UInt32} {f : Function} {h : HostFunc} (hf : inst.function i = .ok f) (hbody : f.body = .host h) :
    enterCall inst i m = callHost h m := by
  simp only [enterCall, hf, bind, EStateM.bind, ofExcept, pure, EStateM.pure, hbody]

theorem enterCall_guest {i : UInt32} {f : Function} {code : List Instr} (hf : inst.function i = .ok f)
    (hbody : f.body = .code code) : enterCall inst i m = enterGuest inst f code m := by
  simp only [enterCall, hf, bind, EStateM.bind, ofExcept, pure, EStateM.pure, hbody]

/-! ## A step -/

variable {top : Flat.Entry}

theorem withState_store (m : Flat) (s : State) : (m.withState s).store = s.store := by
  unfold withState
  cases m.calls.getLast? <;> rfl

theorem withState_ctrl (m : Flat) (s : State) : (m.withState s).ctrl = m.ctrl := by
  unfold withState
  cases m.calls.getLast? <;> rfl

theorem withState_floor (m : Flat) (s : State) : (m.withState s).floor = m.floor := by
  unfold withState floor
  cases hlast : m.calls.getLast? <;> simp [hlast]

theorem withState_advance (m : Flat) (top : Flat.Entry) (s : State) (store : Store) (ctrl : List Flat.Entry) :
    { (m.advance top).withState s with store, ctrl } = { m.withState s with store, ctrl } := by
  unfold withState advance
  cases m.calls.getLast? <;> rfl

/-- taking an instruction changes nothing but the place of the uppermost entry -/
theorem advance_split {lower upper : List Flat.Entry} {e : Flat.Entry} (hctrl : m.ctrl = lower ++ e :: upper)
    (htop : m.ctrl.getLast? = some top) : ∃ e' upper', (m.advance top).ctrl = lower ++ e' :: upper' ∧
      upper'.length = upper.length ∧ { e' with pc := 0 } = { e with pc := 0 } := by
  unfold advance
  rw [hctrl] at htop ⊢
  rcases List.eq_nil_or_concat' upper with rfl | ⟨upper, e', rfl⟩
  · rw [List.getLast?_concat] at htop
    cases htop
    exact ⟨{ top with pc := top.pc + 1 }, [], by simp only [List.dropLast_concat], rfl, rfl⟩
  · rw [← List.cons_append, ← List.append_assoc] at htop ⊢
    rw [List.dropLast_concat, List.append_assoc]
    exact ⟨e, upper ++ [_], rfl, by simp, rfl⟩

/-- what a step leads to of which a part has ended like this -/
def settle (site : Option Site) : EStateM.Result Trap Flat Unit → Progress
  | .ok _ m => m.goOn
  | .error t m => .ended (m.finish (.error ⟨t, site⟩))

theorem goOn_running (h : m.ctrl ≠ []) : m.goOn = .running m := by
  unfold goOn
  cases hctrl : m.ctrl with
  | nil => exact absurd hctrl h
  | cons e ctrl => rfl

theorem step_finishSequence (htop : m.ctrl.getLast? = some top) (hend : top.code[top.pc]? = none) :
    m.step inst = settle none (finishSequence top m) := by
  simp only [step, htop, round, hend, EStateM.adaptExcept]
  cases finishSequence top m <;> rfl

theorem round_exec {i : Instr} (hi : top.code[top.pc]? = some i) : round inst top m =
    EStateM.adaptExcept (.located · ⟨i.opcode, top.pc⟩) (EStateM.bind (exec inst i) (follow inst)) (m.advance top) := by
  simp only [round, hi]
  rfl

section

variable {i : Instr} (htop : m.ctrl.getLast? = some top) (hi : top.code[top.pc]? = some i)
include htop hi

theorem step_error {t : Trap} {s : State} (hexec : i.exec inst ⟨m.store, m.frame⟩ = .error t s) :
    m.step inst = .ended (((m.advance top).withState s).finish (.error (.located t ⟨i.opcode, top.pc⟩))) := by
  have hpart : exec inst i (m.advance top) = .error t ((m.advance top).withState s) := by
    simp only [exec, show (m.advance top).frame = m.frame from rfl, show (m.advance top).store = m.store from rfl, hexec]
  simp only [step, htop, round_exec hi, EStateM.adaptExcept, EStateM.bind, hpart]

theorem step_ok {flow : Flow} {s : State} (hexec : i.exec inst ⟨m.store, m.frame⟩ = .ok flow s) :
    m.step inst = settle (some ⟨i.opcode, top.pc⟩) (follow inst flow ((m.advance top).withState s)) := by
  have hpart : exec inst i (m.advance top) = .ok flow ((m.advance top).withState s) := by
    simp only [exec, show (m.advance top).frame = m.frame from rfl, show (m.advance top).store = m.store from rfl, hexec]
  simp only [step, htop, round_exec hi, EStateM.adaptExcept, EStateM.bind, hpart]
  cases follow inst flow ((m.advance top).withState s) <;> rfl

end

end Flat

/-! ## A configuration laid out -/

/-- the sequence as an entry of the one control stack -/
def Sequence.flat (owner : Flat.Owner) (q : Sequence) : Flat.Entry :=
  ⟨q.code, q.code.length - q.rest.length, owner⟩

theorem Sequence.flat_start (owner : Flat.Owner) (code : List Instr) : (start code).flat owner = ⟨code, 0, owner⟩ :=
  congrArg (Flat.Entry.mk _ · _) (Nat.sub_self _)

def OpenBlock.flat (b : OpenBlock) : Flat.Entry :=
  b.body.flat (.construct b.label)

def Entry.flat : Entry → Flat.Entry
  | .function body => body.flat .function
  | .construct block => block.flat

/-- what the innermost sequence belongs to -/
def Control.owner (k : Control) : Flat.Owner :=
  match k.blocks with
  | [] => .function
  | b :: _ => .construct b.label

theorem Control.getLast_entries (k : Control) : (k.entries.map Entry.flat).getLast? = some (k.innermost.flat k.owner) := by
  obtain ⟨blocks, body⟩ := k
  cases blocks with
  | nil => rfl
  | cons b blocks =>
    rw [entries_cons, List.map_append]
    exact List.getLast?_concat

/-- the functions that these have called: each has the locals that the next one has kept, the last one those of the active
function -/
def Caller.activations (frame : Frame) : List Caller → List Flat.Activation
  | [] => []
  | caller :: callers =>
    Caller.activations caller.frame callers ++
      [⟨frame, caller.height, caller.arity, (Caller.entries (caller :: callers)).length⟩]

/-- all of its functions on one control stack -/
def Config.flatten (c : Config) : Flat :=
  ⟨c.state.store, c.outermostFrame, c.controlStack.map Entry.flat, Caller.activations c.state.frame c.callers⟩

def Progress.flatten : Progress → Flat.Progress
  | .running c => .running c.flatten
  | .ended o => .ended o

theorem Caller.length_activations (frame : Frame) (callers : List Caller) :
    (Caller.activations frame callers).length = callers.length := by
  induction callers generalizing frame with
  | nil => rfl
  | cons caller callers ih => rw [activations, List.length_append, ih, List.length_singleton, List.length_cons]

theorem Caller.map_labelIndex (frame : Frame) (callers : List Caller) :
    (Caller.activations frame callers).map Flat.Activation.labelIndex = Caller.indices callers := by
  induction callers generalizing frame with
  | nil => rfl
  | cons caller callers ih => rw [activations, List.map_append, ih, indices, List.map_singleton]

namespace Config

variable {c : Config} {s : State} {k : Control} {caller : Caller} {callers : List Caller}

/-- the outermost frame stays where it is when the active function is left -/
theorem outermostFrame_cons (s : State) (k : Control) (caller : Caller) (callers : List Caller) (store : Store)
    (k' : Control) : outermostFrame ⟨s, k, caller :: callers⟩ = outermostFrame ⟨⟨store, caller.frame⟩, k', callers⟩ := by
  cases callers with
  | nil => rfl
  | cons caller' callers =>
    simp only [outermostFrame]
    rw [List.getLast?_cons_cons]
    rfl

theorem flatten_frame (c : Config) : c.flatten.frame = c.state.frame := by
  obtain ⟨s, k, callers⟩ := c
  cases callers with
  | nil => rfl
  | cons caller callers => simp [Flat.frame, flatten, Caller.activations]

theorem flatten_floor (c : Config) : c.flatten.floor = (Caller.entries c.callers).length := by
  obtain ⟨s, k, callers⟩ := c
  cases callers with
  | nil => rfl
  | cons caller callers => simp [Flat.floor, flatten, Caller.activations]

theorem flatten_withState (c : Config) (s : State) : c.flatten.withState s = flatten ⟨s, c.control, c.callers⟩ := by
  obtain ⟨s', k, callers⟩ := c
  cases callers with
  | nil => rfl
  | cons caller callers =>
    have houter : outermostFrame ⟨s', k, caller :: callers⟩ = outermostFrame ⟨s, k, caller :: callers⟩ :=
      (outermostFrame_cons s' k caller callers s.store k).trans (outermostFrame_cons s k caller callers s.store k).symm
    simp only [Flat.withState, flatten, Caller.activations, List.getLast?_concat, List.dropLast_concat, houter]
    rfl

/-- the active function's own entry, and those above it -/
theorem flatten_ctrl (s : State) (blocks : List OpenBlock) (body : Sequence) (callers : List Caller) :
    (flatten ⟨s, ⟨blocks, body⟩, callers⟩).ctrl =
      (Caller.entries callers).map Entry.flat ++ body.flat .function :: (blocks.map OpenBlock.flat).reverse := by
  simp only [flatten, controlStack, Control.entries, List.map_append, List.map_cons, List.map_reverse, List.map_map]
  rfl

/-- the entry of an open construct, and those above it -/
theorem flatten_ctrl_construct (s : State) (inner : List OpenBlock) (b : OpenBlock) (outer : List OpenBlock)
    (body : Sequence) (callers : List Caller) : (flatten ⟨s, ⟨inner ++ b :: outer, body⟩, callers⟩).ctrl =
      (flatten ⟨s, ⟨outer, body⟩, callers⟩).ctrl ++ b.flat :: (inner.map OpenBlock.flat).reverse := by
  simp [flatten_ctrl]

/-- the entries of the active function -/
theorem drop_flatten_floor (c : Config) : c.flatten.ctrl.drop c.flatten.floor = c.control.entries.map Entry.flat := by
  rw [flatten_floor, ← List.length_map Entry.flat]
  exact (congrArg (List.drop _) List.map_append).trans List.drop_left

theorem length_flatten_ctrl (c : Config) : c.flatten.ctrl.length = c.flatten.floor + 1 + c.control.blocks.length := by
  obtain ⟨s, ⟨blocks, body⟩, callers⟩ := c
  rw [flatten_ctrl, flatten_floor, List.length_append, List.length_cons, List.length_map, List.length_reverse,
    List.length_map, Nat.add_assoc, Nat.add_comm 1]

theorem flatten_ctrl_ne_nil (c : Config) : c.flatten.ctrl ≠ [] := by
  rw [← List.length_pos_iff, length_flatten_ctrl]
  omega

theorem flatten_finish (c : Config) (e : ExecError) : .ended (c.flatten.finish (.error e)) = (c.fail e).flatten := by
  simp only [Flat.finish, flatten, Caller.length_activations, fail, Progress.flatten]

/-- the uppermost entry is that of the innermost sequence, and the others do not depend on where this is -/
theorem flatten_ctrl_innermost (s : State) (k : Control) (callers : List Caller) : ∃ lower, ∀ rest,
    (flatten ⟨s, k.withRest rest, callers⟩).ctrl = lower ++ [Sequence.flat k.owner { k.innermost with rest }] := by
  obtain ⟨blocks, body⟩ := k
  cases blocks with
  | nil => exact ⟨(Caller.entries callers).map Entry.flat, fun rest => flatten_ctrl s [] _ callers⟩
  | cons b blocks =>
    exact ⟨(flatten ⟨s, ⟨blocks, body⟩, callers⟩).ctrl, fun rest => flatten_ctrl_construct s [] _ blocks body callers⟩

theorem flatten_entered (c : Config) (frame : Frame) (store : Store) (code : List Instr) (height arity : Nat) :
    flatten ⟨⟨store, frame⟩, .start code, ⟨c.state.frame, c.control, height, arity⟩ :: c.callers⟩ =
      { c.flatten with
        store
        ctrl := c.flatten.ctrl ++ [⟨code, 0, .function⟩]
        calls := c.flatten.calls ++ [⟨frame, height, arity, c.flatten.ctrl.length⟩] } := by
  have hctrl : (flatten ⟨⟨store, frame⟩, .start code, ⟨c.state.frame, c.control, height, arity⟩ :: c.callers⟩).ctrl =
      c.flatten.ctrl ++ [⟨code, 0, .function⟩] := by
    rw [← Sequence.flat_start]
    exact flatten_ctrl _ [] _ _
  have houter := outermostFrame_cons ⟨store, frame⟩ (.start code) ⟨c.state.frame, c.control, height, arity⟩ c.callers
    c.state.store c.control
  rw [← hctrl]
  simp only [flatten, houter, List.length_map]
  rfl

/-! ## In step -/

/-- leaving the active function cuts the control stack at its own entry -/
theorem settle_leave (c : Config) (site : Option Site) :
    Flat.settle site (Flat.leaveFunction c.flatten.floor c.flatten) = (c.leave site).flatten := by
  obtain ⟨s, k, callers⟩ := c
  cases callers with
  | nil => rfl
  | cons caller callers =>
    have hfloor := flatten_floor ⟨s, k, caller :: callers⟩
    have hne : (flatten ⟨s, k, caller :: callers⟩).floor ≠ 0 := by
      rw [hfloor, Caller.entries, List.length_append, Control.length_entries]
      omega
    have htake : (flatten ⟨s, k, caller :: callers⟩).ctrl.take (flatten ⟨s, k, caller :: callers⟩).floor =
        (Caller.entries (caller :: callers)).map Entry.flat := by
      rw [hfloor]
      exact (congrArg (List.take _) (flatten_ctrl s k.blocks k.body _)).trans (List.take_left' (List.length_map _))
    -- what is left, over whatever store
    have hflat (store : Store) : flatten ⟨⟨store, caller.frame⟩, caller.control, callers⟩ =
        ⟨store, outermostFrame ⟨s, k, caller :: callers⟩, (Caller.entries (caller :: callers)).map Entry.flat,
          Caller.activations caller.frame callers⟩ := by
      rw [outermostFrame_cons s k caller callers store caller.control]
      rfl
    rw [Flat.leaveFunction_called rfl hne, htake]
    unfold leave
    dsimp only
    cases hu : s.store.stack.unwind caller.height caller.arity with
    | error t =>
      rw [← flatten_finish, hflat]
      simp only [flatten, hu]
      rfl
    | ok stack =>
      rw [Progress.flatten, ← Flat.goOn_running (flatten_ctrl_ne_nil _), hflat]
      simp only [flatten, hu]
      rfl

theorem settle_branch (c : Config) (depth : UInt32) (site : Site) :
    Flat.settle (some site) (Flat.branch depth c.flatten) = (c.branch depth site).flatten := by
  obtain ⟨s, ⟨blocks, body⟩, callers⟩ := c
  unfold branch
  cases hdrop : blocks.drop depth.toNat with
  | nil =>
    have hle := List.drop_eq_nil_iff.1 hdrop
    dsimp only
    by_cases hd : depth.toNat = blocks.length
    · have hctrl := flatten_ctrl s blocks body callers
      have hfloor : (flatten ⟨s, ⟨blocks, body⟩, callers⟩).floor = ((Caller.entries callers).map Entry.flat).length :=
        (flatten_floor _).trans (List.length_map _).symm
      rw [if_pos hd, Flat.branch_function hctrl (by rw [List.length_reverse, List.length_map, hd]) rfl hfloor]
      exact settle_leave _ _
    · have hlen := length_flatten_ctrl ⟨s, ⟨blocks, body⟩, callers⟩
      dsimp only at hlen
      rw [if_neg hd, Flat.branch_invalid (by omega)]
      exact flatten_finish _ _
  | cons target outer =>
    -- what is open in the target, and what it is open in
    obtain ⟨inner, hinner, rfl⟩ : ∃ inner, inner.length = depth.toNat ∧ blocks = inner ++ target :: outer := by
      have hlt := List.length_lt_of_drop_ne_nil (hdrop ▸ List.cons_ne_nil target outer)
      exact ⟨blocks.take depth.toNat, List.length_take_of_le (Nat.le_of_lt hlt), by rw [← hdrop, List.take_append_drop]⟩
    have hctrl := flatten_ctrl_construct s inner target outer body callers
    have hfloor : (flatten ⟨s, ⟨inner ++ target :: outer, body⟩, callers⟩).floor ≤
        (flatten ⟨s, ⟨outer, body⟩, callers⟩).ctrl.length := by
      rw [length_flatten_ctrl, flatten_floor, flatten_floor, Nat.add_assoc]
      exact Nat.le_add_right _ _
    rw [Flat.branch_construct hctrl (by rw [List.length_reverse, List.length_map, hinner]) rfl hfloor]
    dsimp only
    cases hu : s.store.stack.unwind target.label.height target.label.branchArity with
    | error t =>
      rw [← flatten_finish]
      simp only [flatten, hu]
      rfl
    | ok stack =>
      let blocks := if target.label.restarts then { target with body := .start target.body.code } :: outer else outer
      have hblocks : (flatten ⟨s, ⟨blocks, body⟩, callers⟩).ctrl = if target.label.restarts then
          (flatten ⟨s, ⟨outer, body⟩, callers⟩).ctrl ++ [{ target.flat with pc := 0 }]
        else (flatten ⟨s, ⟨outer, body⟩, callers⟩).ctrl := by
        dsimp only [blocks]
        cases target.label.restarts with
        | false => rfl
        | true =>
          have hstart : (⟨target.label, .start target.body.code⟩ : OpenBlock).flat = { target.flat with pc := 0 } :=
            Sequence.flat_start _ _
          rw [if_pos rfl, if_pos rfl, ← hstart]
          exact flatten_ctrl_construct s [] _ outer body callers
      rw [Progress.flatten, ← Flat.goOn_running (flatten_ctrl_ne_nil _), ← hblocks]
      simp only [flatten, hu]
      rfl

theorem settle_call (c : Config) (i : UInt32) (site : Site) :
    Flat.settle (some site) (Flat.enterCall inst i c.flatten) = (c.call inst i site).flatten := by
  cases hf : inst.function i with
  | error t =>
    rw [call_missing hf, Flat.enterCall_missing hf]
    exact flatten_finish _ _
  | ok f =>
    cases hbody : f.body with
    | host h =>
      rw [call_host hf hbody, Flat.enterCall_host hf hbody, Flat.callHost_eq]
      dsimp only [flatten]
      rcases h.call c.state.store.stack with ⟨t | _, stack⟩
      · exact flatten_finish { c with state.store.stack := stack } _
      · exact Flat.goOn_running (flatten_ctrl_ne_nil { c with state.store.stack := stack })
    | code body =>
      rw [call_code hf hbody, Flat.enterCall_guest hf hbody, Flat.enterGuest_eq]
      dsimp only [flatten]
      cases f.enter inst c.state.store with
      | error t => exact flatten_finish _ _
      | ok entered =>
        obtain ⟨frame, store⟩ := entered
        rw [Progress.flatten, ← Flat.goOn_running (flatten_ctrl_ne_nil _), flatten_entered]
        rfl

theorem settle_finishSequence (c : Config) {top : Flat.Entry} (htop : top.owner = c.control.owner) :
    Flat.settle none (Flat.finishSequence top c.flatten) = c.finishSequence.flatten := by
  obtain ⟨s, ⟨blocks, body⟩, callers⟩ := c
  unfold Flat.finishSequence finishSequence
  rw [htop]
  cases blocks with
  | nil =>
    have hlen := length_flatten_ctrl ⟨s, ⟨[], body⟩, callers⟩
    rw [← settle_leave]
    exact congrArg (fun idx => Flat.settle none (Flat.leaveFunction idx _)) (Nat.sub_eq_of_eq_add hlen)
  | cons b blocks =>
    have hctrl : (flatten ⟨s, ⟨b :: blocks, body⟩, callers⟩).ctrl.dropLast =
        (flatten ⟨s, ⟨blocks, body⟩, callers⟩).ctrl :=
      (congrArg List.dropLast (flatten_ctrl_construct s [] b blocks body callers)).trans List.dropLast_concat
    rw [Progress.flatten, ← Flat.goOn_running (flatten_ctrl_ne_nil _)]
    simp only [flatten] at hctrl ⊢
    rw [← hctrl]
    rfl

theorem settle_follow (c : Config) (site : Site) (flow : Flow) :
    Flat.settle (some site) (Flat.follow inst flow c.flatten) = (follow inst c site flow).flatten := by
  cases flow with
  | next => exact Flat.goOn_running (flatten_ctrl_ne_nil c)
  | enter label body =>
    have hctrl : (flatten ⟨c.state, c.control.enter label body, c.callers⟩).ctrl =
        c.flatten.ctrl ++ [⟨body, 0, .construct label⟩] := by
      rw [← Sequence.flat_start]
      exact flatten_ctrl_construct c.state [] ⟨label, .start body⟩ c.control.blocks c.control.body c.callers
    have hflat : flatten ⟨c.state, c.control.enter label body, c.callers⟩ =
        { c.flatten with ctrl := c.flatten.ctrl ++ [⟨body, 0, .construct label⟩] } := by
      rw [← hctrl]
      rfl
    exact (congrArg Flat.goOn hflat).symm.trans (Flat.goOn_running (flatten_ctrl_ne_nil _))
  | branch depth => exact c.settle_branch depth site
  | ret => exact c.settle_leave (some site)
  | call i => exact c.settle_call i site

theorem flatten_top (s : State) (k : Control) (callers : List Caller) :
    (flatten ⟨s, k, callers⟩).ctrl.getLast? = some (k.innermost.flat k.owner) := by
  simp only [flatten, controlStack, List.map_append, List.getLast?_append, k.getLast_entries, Option.some_or]

theorem flatten_advance {i : Instr} {rest : List Instr} (hrest : k.innermost.rest = i :: rest)
    (hlen : rest.length < k.innermost.code.length) : (flatten ⟨s, k, callers⟩).advance (k.innermost.flat k.owner) =
      flatten ⟨s, k.withRest rest, callers⟩ := by
  obtain ⟨lower, hctrl⟩ := flatten_ctrl_innermost s k callers
  have hpc : k.innermost.code.length - k.innermost.rest.length + 1 = k.innermost.code.length - rest.length := by
    rw [hrest, List.length_cons]
    omega
  have htop := hctrl k.innermost.rest
  rw [Control.withRest_rest] at htop
  have hadvance : (flatten ⟨s, k, callers⟩).ctrl.dropLast ++ [{ k.innermost.flat k.owner with
      pc := (k.innermost.flat k.owner).pc + 1 }] = (flatten ⟨s, k.withRest rest, callers⟩).ctrl := by
    rw [htop, List.dropLast_concat, hctrl rest]
    exact congrArg (fun pc => lower ++ [⟨k.innermost.code, pc, k.owner⟩]) hpc
  unfold Flat.advance
  rw [hadvance]
  rfl

/-- **The loop goes in step with the configuration**, if the innermost sequence is at some point of its code -/
theorem flatten_step (c : Config) (h : c.control.innermost.rest <:+ c.control.innermost.code) :
    c.flatten.step inst = (c.step inst).flatten := by
  obtain ⟨s, k, callers⟩ := c
  obtain ⟨done, hdone⟩ := h
  dsimp only at hdone
  have htop := flatten_top s k callers
  have hpc : (k.innermost.flat k.owner).pc = done.length := by
    rw [Sequence.flat, ← hdone, List.length_append, Nat.add_sub_cancel_right]
  unfold step
  cases hrest : k.innermost.rest with
  | nil =>
    have hend : (k.innermost.flat k.owner).code[(k.innermost.flat k.owner).pc]? = none := by
      rw [hpc, Sequence.flat, ← hdone, hrest, List.append_nil, List.getElem?_eq_none (Nat.le_refl _)]
    rw [Control.next?_nil hrest, Flat.step_finishSequence htop hend]
    exact settle_finishSequence _ rfl
  | cons i rest =>
    have hi : (k.innermost.flat k.owner).code[(k.innermost.flat k.owner).pc]? = some i := by
      rw [hpc, Sequence.flat, ← hdone, hrest, List.getElem?_append_right (Nat.le_refl _), Nat.sub_self]
      rfl
    have hlen : k.innermost.code.length = done.length + (rest.length + 1) := by
      rw [← hdone, hrest, List.length_append, List.length_cons]
    have hindex : (k.withRest rest).innermost.index = (k.innermost.flat k.owner).pc := by
      rw [hpc, Control.innermost_withRest, Sequence.index]
      dsimp only
      omega
    have hstate : (⟨(flatten ⟨s, k, callers⟩).store, (flatten ⟨s, k, callers⟩).frame⟩ : State) = s :=
      congrArg (State.mk s.store) (flatten_frame _)
    rw [Control.next?_cons hrest]
    dsimp only
    rw [hindex]
    cases hexec : i.exec inst s with
    | error t s' =>
      rw [← hstate] at hexec
      rw [Flat.step_error htop hi hexec, flatten_advance hrest (by omega), flatten_withState]
      exact flatten_finish _ _
    | ok flow s' =>
      rw [← hstate] at hexec
      rw [Flat.step_ok htop hi hexec, flatten_advance hrest (by omega), flatten_withState]
      exact settle_follow _ _ flow

end Config

/-! ## Runs -/

namespace Flat

/-- the states of the loop that a run comes through -/
abbrev Reaches (inst : Instance) : Flat → Flat → Prop :=
  Relation.ReflTransGen fun m m' => m.step inst = .running m'

theorem flatten_start (s : State) (code : List Instr) : (Config.start s code).flatten = start s code :=
  congrArg (fun e => (⟨s.store, s.frame, [e], []⟩ : Flat)) (Sequence.flat_start _ _)

/-- **The loop comes through configurations laid out**, those of the same run -/
theorem reaches_flatten {s : State} {code : List Instr} {m : Flat} (h : (start s code).Reaches inst m) :
    ∃ c, (Config.start s code).Reaches inst c ∧ m = c.flatten := by
  induction h with
  | refl => exact ⟨_, .refl, (flatten_start s code).symm⟩
  | @tail m m' _ hstep ih =>
    obtain ⟨c, hc, rfl⟩ := ih
    obtain ⟨body, hscopes⟩ := Config.reaches_scoped hc
    obtain ⟨path, hplace⟩ := hscopes.place
    rw [c.flatten_step hplace.suffix_innermost] at hstep
    cases hnext : c.step inst with
    | running c' =>
      rw [hnext] at hstep
      cases hstep
      exact ⟨c', hc.tail hnext, rfl⟩
    | ended o =>
      rw [hnext] at hstep
      cases hstep

/-- **Both come to the same outcomes**, in as many steps -/
theorem run_start (fuel : Nat) (s : State) (code : List Instr) :
    run inst fuel (start s code) = Config.run inst fuel (.start s code) := by
  have hrun : ∀ c, (Config.start s code).Reaches inst c → run inst fuel c.flatten = c.run inst fuel := by
    induction fuel with
    | zero => exact fun _ _ => rfl
    | succ fuel ih =>
      intro c hc
      obtain ⟨body, hscopes⟩ := Config.reaches_scoped hc
      obtain ⟨path, hplace⟩ := hscopes.place
      unfold run Config.run
      rw [c.flatten_step hplace.suffix_innermost]
      cases hnext : c.step inst with
      | running c' => exact ih c' (hc.tail hnext)
      | ended o => rfl
  rw [← flatten_start]
  exact hrun _ .refl

end Flat

/-- what is run as the body of a function is what the loop makes of it -/
theorem Machine.execute_flat (fuel : Nat) (m : Machine) (code : List Instr) (frame : Frame) :
    m.execute fuel code frame = (Flat.run m.inst fuel (.start ⟨m.store, frame⟩ code)).map fun o =>
      (o.result, o.state.frame, { m with store := o.state.store }) := by
  rw [Flat.run_start]
  rfl

end WasmCore
