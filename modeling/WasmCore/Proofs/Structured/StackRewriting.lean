/-
Rewriting the stack, exactly.

A branch to an open construct, the end of a function and the operation that an embedding program has for it all cut cells
out from under the top ones. Read from the bottom up, what they leave are the lowest cells and then the top ones, in their
order (`OperandStack.Cut`). They fail for want of cells and for nothing else, and then the stack is what it was.

Where a step goes that leaves a construct or a function is an `Exit`: a height, a number of cells to take along, and what
goes on there. `Config.step_exits` is about all four ways in which a step can take one, and `Machine.callGuest_exits` about
the function that a run started with, which is left by whoever started the run.
-/
import WasmCore.Proofs.Embedding.Operations
import WasmCore.Proofs.Structured.ControlStack

namespace WasmCore

/-! ## Cells from the bottom up -/

namespace OperandStack

/-- the cells, the lowest one first -/
def fromBottom (s : OperandStack) : List Cell :=
  s.cells.reverse

/-- `t` has the lowest cells of `s` and above them its top ones, and nothing of what was between them -/
structure Cut (s : OperandStack) (lowest keep : Nat) (t : OperandStack) : Prop where
  cells : t.fromBottom = s.fromBottom.take lowest ++ s.fromBottom.drop (s.height - keep)
  capacity : t.capacity = s.capacity

/-- the top cells are the last ones from the bottom up -/
theorem reverse_take_cells (s : OperandStack) (n : Nat) :
    (s.cells.take n).reverse = s.fromBottom.drop (s.height - n) := by
  rw [fromBottom, List.drop_reverse, s.height_eq]
  rcases Nat.le_total n s.cells.length with h | h
  · rw [Nat.sub_sub_self h]
  · rw [Nat.sub_eq_zero_of_le h, Nat.sub_zero, List.take_length, List.take_of_length_le h]

/-- what is under the top cells are the first ones -/
theorem reverse_drop_cells (s : OperandStack) (n : Nat) :
    (s.cells.drop n).reverse = s.fromBottom.take (s.height - n) := by
  rw [fromBottom, List.take_reverse, s.height_eq]
  rcases Nat.le_total n s.cells.length with h | h
  · rw [Nat.sub_sub_self h]
  · rw [Nat.sub_eq_zero_of_le h, Nat.sub_zero, List.drop_length, List.drop_of_length_le h]

/-- nothing is cut out of a stack by taking it apart above its top cells -/
theorem Cut.self (s : OperandStack) (keep : Nat) : s.Cut (s.height - keep) keep s :=
  ⟨(List.take_append_drop _ _).symm, rfl⟩

/-- `dropKeep` succeeds exactly if nothing is to be dropped or there are as many cells as it goes through. -/
theorem dropKeep_exact (s : OperandStack) (drop keep : Nat) :
    (drop = 0 ∨ drop + keep ≤ s.height →
      ∃ t, s.dropKeep drop keep = .ok t ∧ s.Cut (s.height - drop - keep) keep t ∧ (drop = 0 → t = s)) ∧
    (¬ (drop = 0 ∨ drop + keep ≤ s.height) →
      s.dropKeep drop keep = .error (.stackUnderflow (min (drop + keep) maxCount) s.height)) := by
  rw [dropKeep_eq]
  by_cases hzero : drop = 0
  · refine ⟨fun _ => ⟨s, if_pos hzero, ?_, fun _ => rfl⟩, fun h => absurd (.inl hzero) h⟩
    rw [hzero, Nat.sub_zero]
    exact .self s keep
  · rw [if_neg hzero]
    by_cases hfew : s.height < drop + keep
    · refine ⟨fun h => ?_, fun _ => if_pos hfew⟩
      rcases h with h | h
      · exact absurd h hzero
      · exact absurd hfew (Nat.not_lt.2 h)
    · refine ⟨fun _ => ⟨_, if_neg hfew, ⟨?_, rfl⟩, fun h => absurd h hzero⟩, fun h => absurd (.inr (Nat.not_lt.1 hfew)) h⟩
      rw [fromBottom, cells_withCells, List.reverse_append, reverse_drop_cells, reverse_take_cells, Nat.add_comm keep,
        Nat.sub_sub]

/-- Cutting down to a height succeeds exactly if that many cells and the kept ones are there. -/
theorem unwind_exact (s : OperandStack) (height keep : Nat) :
    (height + keep ≤ s.height → ∃ t, s.unwind height keep = .ok t ∧ s.Cut height keep t) ∧
    (s.height < height + keep → s.unwind height keep = .error (.stackUnderflow (height + keep) s.height)) := by
  refine ⟨fun hle => ?_, unwind_short⟩
  have hgoes : s.height - (height + keep) + keep ≤ s.height := by omega
  have hlowest : s.height - (s.height - (height + keep)) - keep = height := by omega
  obtain ⟨t, ht, hcut, -⟩ := (s.dropKeep_exact (s.height - (height + keep)) keep).1 (.inr hgoes)
  rw [hlowest] at hcut
  refine ⟨t, ?_, hcut⟩
  rw [unwind, if_neg (Nat.not_lt.2 hle), ht]

end OperandStack

/-! ## Exits from constructs and functions -/

/-- where a branch or the end of a function goes -/
structure Exit where
  /-- height of the stack there -/
  height : Nat
  /-- how many of the top cells are taken along -/
  keep : Nat
  /-- what goes on there, over what is left of the stack -/
  resume : OperandStack → Config

namespace Config

variable {inst : Instance} {c d : Config} {site : Option Site} {exit : Exit}

/-- to an open construct, which starts again or is left -/
def toConstruct (c : Config) (target : OpenBlock) (outer : List OpenBlock) : Exit where
  height := target.label.height
  keep := if target.label.restarts then 0 else target.label.arity
  resume stack :=
    let blocks :=
      if target.label.restarts then { target with body := .start target.body.code } :: outer else outer
    { c with state.store.stack := stack, control.blocks := blocks }

/-- out of the active function, to the one that has called it -/
def toCaller (c : Config) (caller : Caller) (callers : List Caller) : Exit where
  height := caller.height
  keep := caller.arity
  resume stack :=
    ⟨⟨{ c.state.store with stack, depth := c.state.store.depth - 1 }, caller.frame⟩, caller.control, callers⟩

/-- the next step takes this exit; before that it has come to `d`, by the instruction at the site if there is one -/
inductive Exits (inst : Instance) (c : Config) : (d : Config) → Option Site → Exit → Prop
  | branch {i : Instr} {control : Control} {s : State} {depth : UInt32} {target : OpenBlock} {outer : List OpenBlock}
      (next : c.control.next? = some (i, control)) (exec : i.exec inst c.state = .ok (.branch depth) s)
      (drop : control.blocks.drop depth.toNat = target :: outer) :
      Exits inst c ⟨s, control, c.callers⟩ (some ⟨i.opcode, control.innermost.index⟩)
        (toConstruct ⟨s, control, c.callers⟩ target outer)
  /-- a branch past all open constructs -/
  | past {i : Instr} {control : Control} {s : State} {depth : UInt32} {caller : Caller} {callers : List Caller}
      (next : c.control.next? = some (i, control)) (exec : i.exec inst c.state = .ok (.branch depth) s)
      (all : depth.toNat = control.blocks.length) (waiting : c.callers = caller :: callers) :
      Exits inst c ⟨s, control, c.callers⟩ (some ⟨i.opcode, control.innermost.index⟩)
        (toCaller ⟨s, control, c.callers⟩ caller callers)
  | ret {i : Instr} {control : Control} {s : State} {caller : Caller} {callers : List Caller}
      (next : c.control.next? = some (i, control)) (exec : i.exec inst c.state = .ok .ret s)
      (waiting : c.callers = caller :: callers) :
      Exits inst c ⟨s, control, c.callers⟩ (some ⟨i.opcode, control.innermost.index⟩)
        (toCaller ⟨s, control, c.callers⟩ caller callers)
  /-- the body of the active function has come to its end -/
  | ended {caller : Caller} {callers : List Caller}
      (blocks : c.control.blocks = []) (rest : c.control.body.rest = []) (waiting : c.callers = caller :: callers) :
      Exits inst c c none (toCaller c caller callers)

/-- goes on over the stack that the exit leaves, or fails for want of cells with the stack as it is -/
structure Takes (d : Config) (site : Option Site) (exit : Exit) (p : Progress) : Prop where
  enough : exit.height + exit.keep ≤ d.state.store.stack.height →
    ∃ t, p = .running (exit.resume t) ∧ d.state.store.stack.Cut exit.height exit.keep t
  short : d.state.store.stack.height < exit.height + exit.keep →
    ∃ o, p = .ended o ∧
      o.result = .error ⟨.stackUnderflow (exit.height + exit.keep) d.state.store.stack.height, site⟩ ∧
      o.state.store = { d.state.store with depth := d.state.store.depth - d.callers.length }

theorem branch_takes {depth : UInt32} {site : Site} {target : OpenBlock} {outer : List OpenBlock}
    (h : c.control.blocks.drop depth.toNat = target :: outer) :
    c.Takes (some site) (c.toConstruct target outer) (c.branch depth site) := by
  have hunwind := c.state.store.stack.unwind_exact target.label.height target.label.branchArity
  simp only [branch, h]
  constructor
  · intro henough
    obtain ⟨t, ht, hcut⟩ := hunwind.1 henough
    rw [ht]
    exact ⟨t, rfl, hcut⟩
  · intro hshort
    rw [hunwind.2 hshort]
    exact ⟨_, rfl, rfl, rfl⟩

theorem leave_takes {caller : Caller} {callers : List Caller} (h : c.callers = caller :: callers) (site : Option Site) :
    c.Takes site (c.toCaller caller callers) (c.leave site) := by
  have hunwind := c.state.store.stack.unwind_exact caller.height caller.arity
  simp only [leave, h]
  constructor
  · intro henough
    obtain ⟨t, ht, hcut⟩ := hunwind.1 henough
    rw [ht]
    exact ⟨t, rfl, hcut⟩
  · intro hshort
    -- the function that is left is counted off first, and those that wait for it afterwards
    have hdepth : c.state.store.depth - c.callers.length = c.state.store.depth - 1 - callers.length := by
      rw [h, List.length_cons]
      omega
    rw [hunwind.2 hshort, hdepth]
    exact ⟨_, rfl, rfl, rfl⟩

theorem step_exits (h : c.Exits inst d site exit) : d.Takes site exit (c.step inst) := by
  cases h with
  | branch next exec drop =>
    simp only [step, next, exec, follow]
    exact branch_takes drop
  | @past i control s depth caller callers next exec all waiting =>
    have hdrop : control.blocks.drop depth.toNat = [] := List.drop_of_length_le (Nat.le_of_eq all.symm)
    simp only [step, next, exec, follow, Config.branch, hdrop, if_pos all]
    exact leave_takes (c := ⟨s, control, c.callers⟩) waiting _
  | @ret i control s caller callers next exec waiting =>
    simp only [step, next, exec, follow]
    exact leave_takes (c := ⟨s, control, c.callers⟩) waiting _
  | ended blocks rest waiting =>
    simp only [step, Control.next?, finishSequence, blocks, rest]
    exact leave_takes waiting none

end Config

/-! ## Heights and counts of exits -/

open Exec in
/-- a construct is entered at the height that the stack then has -/
theorem Instr.exec_height (inst : Instance) (i : Instr) (s : State) :
    Ends (i.exec inst) s (fun flow t => ∀ label body, flow = .enter label body → label.height = t.store.stack.height)
      fun _ _ => True := by
  cases i with
  | block | loop =>
    refine ends_bind.2 (ends_get.2 fun label body h => ?_)
    cases h
    rfl
  | ite =>
    refine ends_bind_any fun _ s => ends_bind.2 (ends_get.2 fun label body h => ?_)
    cases h
    rfl
  | br | ret | call => exact fun _ _ h => nomatch h
  | brIf =>
    refine ends_bind_any fun condition s => ?_
    cases condition.isTrue <;> exact fun _ _ h => nomatch h
  | brTable => exact ends_bind_any fun _ _ => fun _ _ h => nomatch h
  | callIndirect =>
    exact ends_bind_any fun _ _ => ends_bind_any fun _ _ => ends_bind_any fun _ _ => fun _ _ h => nomatch h
  | _ =>
    refine (exec_next rfl s).mono (fun flow s hflow label body h => ?_) fun _ _ h => h
    rw [hflow] at h
    cases h

/-- what is open after an instruction that enters a construct -/
theorem Instr.exec_opens {inst : Instance} {i : Instr} {s t : State} {label : Label} {body : List Instr}
    (h : i.exec inst s = .ok (.enter label body) t) :
    (∃ second, i.Opens second ⟨label, .start body⟩) ∧ label.height = t.store.stack.height := by
  have hgives := i.exec_gives inst s
  have hheight := i.exec_height inst s
  unfold Exec.Ends at hgives hheight
  rw [h] at hgives hheight
  exact ⟨hgives, hheight label body rfl⟩

/-- who waits for a guest function that has been called within a run -/
theorem Config.call_waits {inst : Instance} {c d : Config} {j : UInt32} {site : Site} {f : Function} {body : List Instr}
    (hf : inst.function j = .ok f) (hbody : f.body = .code body) (h : c.call inst j site = .running d) :
    d.callers = ⟨c.state.frame, c.control, d.state.store.stack.height, f.type.results.length⟩ :: c.callers := by
  rw [call_code hf hbody] at h
  split at h
  · cases h
  · cases h
    rfl

/-! ## The function that a run started with -/

theorem Machine.callGuest_exits {m : Machine} {fuel : Nat} {f : Function} {code : List Instr} {frame : Frame}
    {store : Store} {s : State} (henter : f.enter m.inst m.store = .ok (frame, store))
    (hrun : Config.run m.inst fuel (.start ⟨store, frame⟩ code) = some ⟨.ok (), s⟩) :
    (store.stack.height + f.type.results.length ≤ s.store.stack.height →
      ∃ t, m.callGuest fuel f code =
          some (.ok (), { m with store := { s.store with stack := t, depth := s.store.depth - 1 } }) ∧
        s.store.stack.Cut store.stack.height f.type.results.length t) ∧
    (s.store.stack.height < store.stack.height + f.type.results.length →
      m.callGuest fuel f code =
        some (.error (.unlocated (.stackUnderflow (store.stack.height + f.type.results.length) s.store.stack.height)),
          { m with store := { s.store with depth := s.store.depth - 1 } })) := by
  have hunwind := s.store.stack.unwind_exact store.stack.height f.type.results.length
  have hcall : m.callGuest fuel f code =
      some (m.returned store.stack.height f.type.results.length ⟨.ok (), s⟩) := by
    rw [callGuest_eq, henter]
    simp only [hrun, Option.map_some]
  simp only [hcall, Machine.returned, Machine.stack]
  constructor
  · intro henough
    obtain ⟨t, ht, hcut⟩ := hunwind.1 henough
    rw [ht]
    exact ⟨t, rfl, hcut⟩
  · intro hshort
    rw [hunwind.2 hshort]

/-! ## All of them -/

/-- **Rewriting the stack is exact.** `dropKeep` succeeds exactly if nothing is to be dropped or as many cells are there as
it goes through, however large the numbers are; it leaves the lowest cells and its top ones, and a failure leaves the
machine as it was. Any step that branches to an open construct or leaves a function that was called within the run leaves
the lowest cells, as many as the height that it goes back to, and the top ones that it takes along; or it fails for want of
exactly that many cells, with the cells as they are. So does the end of a function that the embedding program has called.
A branch takes nothing along where it starts a loop again, and the results of a `block` or an `if` otherwise; a function
takes its results. -/
theorem stack_rewriting :
    (∀ (m : Machine) (fuel drop keep : Nat),
      (drop = 0 ∨ drop + keep ≤ m.stack.height →
        ∃ t, m.operate fuel (.dropKeep drop keep) = some (.ok [], m.withStack t) ∧
          m.stack.Cut (m.stack.height - drop - keep) keep t ∧ (drop = 0 → t = m.stack)) ∧
      (¬ (drop = 0 ∨ drop + keep ≤ m.stack.height) →
        m.operate fuel (.dropKeep drop keep) =
          m.failed (.stackUnderflow (min (drop + keep) OperandStack.maxCount) m.stack.height))) ∧
    (∀ (inst : Instance) (c d : Config) (site : Option Site) (exit : Exit), c.Exits inst d site exit →
      d.Takes site exit (c.step inst)) ∧
    (∀ (m : Machine) (fuel : Nat) (f : Function) (code : List Instr) (frame : Frame) (store : Store) (s : State),
      f.enter m.inst m.store = .ok (frame, store) →
      Config.run m.inst fuel (.start ⟨store, frame⟩ code) = some ⟨.ok (), s⟩ →
      (store.stack.height + f.type.results.length ≤ s.store.stack.height →
        ∃ t, m.callGuest fuel f code =
            some (.ok (), { m with store := { s.store with stack := t, depth := s.store.depth - 1 } }) ∧
          s.store.stack.Cut store.stack.height f.type.results.length t) ∧
      (s.store.stack.height < store.stack.height + f.type.results.length →
        m.callGuest fuel f code =
          some (.error (.unlocated (.stackUnderflow (store.stack.height + f.type.results.length) s.store.stack.height)),
            { m with store := { s.store with depth := s.store.depth - 1 } }))) ∧
    (∀ (inst : Instance) (i : Instr) (s t : State) (label : Label) (body : List Instr),
      i.exec inst s = .ok (.enter label body) t →
      (∃ second, i.Opens second ⟨label, .start body⟩) ∧ label.height = t.store.stack.height) ∧
    (∀ (inst : Instance) (c d : Config) (j : UInt32) (site : Site) (f : Function) (body : List Instr),
      inst.function j = .ok f → f.body = .code body → c.call inst j site = .running d →
      d.callers = ⟨c.state.frame, c.control, d.state.store.stack.height, f.type.results.length⟩ :: c.callers) := by
  refine ⟨fun m fuel drop keep => ?_, fun inst c d site exit => Config.step_exits,
    fun m fuel f code frame store s => Machine.callGuest_exits, fun inst i s t label body => Instr.exec_opens,
    fun inst c d j site f body => Config.call_waits⟩
  have hexact := m.stack.dropKeep_exact drop keep
  simp only [Machine.operate]
  constructor
  · intro henough
    obtain ⟨t, ht, hcut⟩ := hexact.1 henough
    rw [ht]
    exact ⟨t, rfl, hcut⟩
  · intro hshort
    rw [hexact.2 hshort]

/-- Two of five cells go from under the top one. A function that returns one result over three cells, of which its caller
had one, leaves that one and its result; over two cells that were both its caller's it has nothing to return. -/
theorem stack_rewriting_returns :
    let stack (cells : List Cell) : OperandStack := (OperandStack.empty 1).pushAll cells
    let store (cells : List Cell) : Store := ⟨stack cells, .new 0 none, #[], 1⟩
    let m : Machine := ⟨⟨#[], #[], #[], 1⟩, #[], store [1, 2, 3, 4, 5]⟩
    let returning (cells : List Cell) (height : Nat) : Config :=
      ⟨⟨store cells, .empty⟩, .start [.ret], [⟨.empty, .start [], height, 1⟩]⟩
    (∃ t, m.operate 0 (.dropKeep 2 1) = some (.ok [], m.withStack t) ∧ t.fromBottom = [1, 2, 5]) ∧
    (∃ d, (returning [7, 8, 9] 1).step m.inst = .running d ∧ d.state.store.stack.fromBottom = [7, 9]) ∧
    ∃ o, (returning [7, 8] 2).step m.inst = .ended o ∧
      o.result = .error (.located (.stackUnderflow 3 2) ⟨Instr.ret.opcode, 0⟩) ∧
      o.state.store.stack.fromBottom = [7, 8] := by
  intro stack store m returning
  obtain ⟨dropped, returns, -⟩ := stack_rewriting
  have hret (cells : List Cell) (height : Nat) := returns m.inst (returning cells height) _ _ _ (.ret rfl rfl rfl)
  refine ⟨?_, ?_, ?_⟩
  · obtain ⟨t, ht, hcut, -⟩ := (dropped m 0 2 1).1 (by decide)
    exact ⟨t, ht, hcut.cells⟩
  · obtain ⟨t, ht, hcut⟩ := (hret [7, 8, 9] 1).enough (by decide)
    exact ⟨_, ht, hcut.cells⟩
  · obtain ⟨o, ho, hresult, hstore⟩ := (hret [7, 8] 2).short (by decide)
    refine ⟨o, ho, hresult, ?_⟩
    rw [hstore]
    rfl

end WasmCore
