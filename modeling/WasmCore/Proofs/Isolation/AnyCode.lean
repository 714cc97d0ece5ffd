/-
Any code over more cells.

Nothing stops code that has not been validated from taking more cells than it has put on the stack: it then takes those of
its caller. Until then it does over more cells what it does without them (`Config.step_alike`, `Config.run_alike`), and
without them the point at which it would take a cell that is not its own is a stack underflow. So what an embedding program
asks of a machine with the cells `base` under the rest of its stack goes the same way as without them, and leaves them there,
unless it runs out of cells without them (`Machine.invoke_alike`).
-/
import WasmCore.Proofs.Isolation.Invocation

namespace WasmCore

variable {base : List Cell} {inst : Instance}

/-! ## Calls with too few arguments -/

theorem Function.enter_short (f : Function) {s : Store} (hroom : s.depth < inst.maxCallDepth)
    (hfew : s.stack.height < f.type.params.length) :
    f.enter inst s = .error (.stackUnderflow f.type.params.length s.stack.height) := by
  simp only [enter, if_neg (Nat.not_le.2 hroom), Frame.enter, OperandStack.popMany_short hfew]
  rfl

/-- a function is refused, or entered, the same way over more cells, unless it is short of arguments without them -/
theorem Function.enter_alike (inst : Instance) (f : Function) {s t : Store} (hst : s.Over base t) :
    (∃ e, f.enter inst s = .error e ∧ f.enter inst t = .error e) ∨
    (∃ frame s' t', f.enter inst s = .ok (frame, s') ∧ f.enter inst t = .ok (frame, t') ∧ s'.Over base t') ∨
    ∃ needed depth, f.enter inst s = .error (.stackUnderflow needed depth) := by
  rcases Nat.lt_or_ge s.depth inst.maxCallDepth with hroom | hfull
  · rcases Nat.lt_or_ge s.stack.height f.type.params.length with hfew | hargs
    · exact .inr (.inr ⟨_, _, f.enter_short hroom hfew⟩)
    · rcases f.enter_over inst hst hargs with hrefused | hentered
      · exact .inl hrefused
      · exact .inr (.inl hentered)
  · exact .inl ⟨_, f.enter_full hfull, f.enter_full (hst.depth ▸ hfull)⟩

/-! ## Steps and runs -/

/-- the run failed for want of cells -/
def Outcome.Short (o : Outcome) : Prop :=
  ∃ needed depth site, o.result = .error ⟨.stackUnderflow needed depth, site⟩

namespace Config

variable {c d : Config}

theorem fail_short (c : Config) (needed depth : Nat) (site : Site) (q : Progress) :
    (c.fail (.located (.stackUnderflow needed depth) site)).Alike base q :=
  .short ⟨_, _, rfl, rfl, rfl⟩

theorem Over.call (h : c.Over base d) (i : UInt32) (site : Site) :
    (c.call inst i site).Alike base (d.call inst i site) := by
  cases hf : inst.function i with
  | error t =>
    rw [call_missing hf, call_missing hf]
    exact .same (h.fail _)
  | ok f =>
    cases hbody : f.body with
    | host host =>
      rw [call_host hf hbody, call_host hf hbody]
      rcases Nat.lt_or_ge c.state.store.stack.height host.type.params.length with hfew | hargs
      · rw [host.call_short hfew]
        exact fail_short _ _ _ _ _
      · obtain ⟨result, s, t, hs, ht, hst⟩ := host.call_over h.state.store.stack hargs
        rw [hs, ht]
        cases result with
        | error e => exact .same ((h.withStack hst).fail _)
        | ok _ => exact .same (.running (h.withStack hst))
    | code body =>
      rw [call_code hf hbody, call_code hf hbody]
      rcases f.enter_alike inst h.state.store with ⟨e, hs, ht⟩ | ⟨frame, s, t, hs, ht, hst⟩ | ⟨needed, depth, hs⟩
      · rw [hs, ht]
        exact .same (h.fail _)
      · rw [hs, ht]
        refine .same (.running ⟨⟨hst, rfl⟩, rfl, ?_⟩)
        simp only [List.map_cons, Caller.over, h.callers, h.control, h.state.frame, hst.stack.height]
      · rw [hs]
        exact fail_short _ _ _ _ _

/-- **A step of any code goes the same way over more cells**, unless it runs out of cells without them -/
theorem step_alike (h : c.Over base d) : (c.step inst).Alike base (d.step inst) := by
  unfold step
  rw [h.control, Control.next?_over]
  cases c.control.next? with
  | none => exact h.finishSequence
  | some next =>
    obtain ⟨i, control⟩ := next
    have hframed := i.exec_framed inst c.state d.state h.state
    simp only [Option.map_some, Control.innermost_over]
    generalize i.exec inst c.state = p at hframed
    generalize i.exec inst d.state = q at hframed
    cases hframed with
    | short => exact fail_short _ _ _ _ _
    | @error e s t state =>
      have hover : Over base ⟨s, control, c.callers⟩ ⟨t, control.over base.length, d.callers⟩ := ⟨state, rfl, h.callers⟩
      exact .same (hover.fail _)
    | @ok flow _ s t answer state =>
      have hover : Over base ⟨s, control, c.callers⟩ ⟨t, control.over base.length, d.callers⟩ := ⟨state, rfl, h.callers⟩
      cases answer
      cases flow with
      | call i => exact hover.call i _
      | next | enter | branch | ret => exact hover.follow _ (fun i hi => by cases hi)

/-- **A run of any code goes the same way over more cells**, for as many steps as it is given, unless it runs out of cells
without them -/
theorem run_alike (inst : Instance) (h : c.Over base d) (fuel : Nat) :
    Option.Rel (Outcome.Over base) (run inst fuel c) (run inst fuel d) ∨ ∃ o, run inst fuel c = some o ∧ o.Short := by
  induction fuel generalizing c d with
  | zero => exact .inl .none
  | succ fuel ih =>
    have hstep : (c.step inst).Alike base (d.step inst) := step_alike h
    unfold run
    generalize c.step inst = p at hstep
    generalize d.step inst = q at hstep
    cases hstep with
    | same h =>
      cases h with
      | running h => exact ih h
      | ended h => exact .inl (.some h)
    | short hshort =>
      obtain ⟨o, ⟨t, site⟩, rfl, hresult, rfl⟩ := hshort
      exact .inr ⟨o, rfl, _, _, site, hresult⟩

end Config

/-! ## What an embedding program asks -/

namespace Machine

/-- the answer is that cells are wanting -/
def ShortOfCells {α : Type} (answer : Bounded α) : Prop :=
  ∃ needed depth site m, answer = some (.error ⟨.stackUnderflow needed depth, site⟩, m)

/-- the same answer over the cells `base`, or a want of cells without them -/
def AnswersAlike {α : Type} (base : List Cell) (p q : Bounded α) : Prop :=
  Option.Rel (AnswersOver base) p q ∨ ShortOfCells p

variable {α : Type} {m n : Machine} {f : Function} {fuel : Nat}

theorem Over.refused (h : m.Over base n) (e : Trap) : AnswersAlike base (m.failed e : Bounded α) (n.failed e) :=
  .inl (h.failed e)

/-- what follows goes the same way, if it does so after the same answer and passes failures on -/
theorem AnswersAlike.bind {β : Type} {p q : Bounded α} (h : AnswersAlike base p q)
    {f g : Except ExecError α × Machine → Bounded β}
    (same : ∀ answer m n, Over base m n → AnswersAlike base (f (answer, m)) (g (answer, n)))
    (passes : ∀ e m, ∃ m', f (.error e, m) = some (.error e, m')) : AnswersAlike base (p.bind f) (q.bind g) := by
  rcases h with hrel | ⟨needed, depth, site, m, rfl⟩
  · cases hrel with
    | none => exact .inl .none
    | @some a b hab =>
      obtain ⟨_, m⟩ := a
      obtain ⟨answer, n⟩ := b
      obtain ⟨rfl, hover⟩ := hab
      exact same answer m n hover
  · obtain ⟨m', hm'⟩ := passes ⟨.stackUnderflow needed depth, site⟩ m
    exact .inr ⟨needed, depth, site, m', hm'⟩

/-- the results are cut out of what the run left, if they are there -/
theorem Over.returned_alike (h : m.Over base n) {o p : Outcome} (hop : o.Over base p) (height arity : Nat) :
    AnswersAlike base (some (m.returned height arity o)) (some (n.returned (height + base.length) arity p)) := by
  rcases Nat.lt_or_ge o.state.store.stack.height (height + arity) with hfew | hle
  · cases hresult : o.result with
    | error e =>
      have hfailed : o.result ≠ .ok () := by simp [hresult]
      exact .inl (.some (h.returned hop fun hok => absurd hok hfailed))
    | ok _ =>
      right
      simp only [Machine.returned, hresult, Machine.stack, OperandStack.unwind_short hfew]
      exact ⟨_, _, _, _, rfl⟩
  · exact .inl (.some (h.returned hop fun _ => hle))

theorem callFunction_alike (h : m.Over base n) (fuel : Nat) (i : UInt32) :
    AnswersAlike base (m.callFunction fuel i) (n.callFunction fuel i) := by
  unfold callFunction
  rw [h.inst]
  cases hf : m.inst.function i with
  | error t => exact h.refused t
  | ok f =>
    dsimp only
    cases hbody : f.body with
    | host host =>
      have hstack : m.stack.Over base n.stack := h.store.stack
      dsimp only
      rcases Nat.lt_or_ge m.stack.height host.type.params.length with hfew | hargs
      · rw [host.call_short hfew]
        exact .inr ⟨_, _, _, _, rfl⟩
      · obtain ⟨result, s, t, hs, ht, hst⟩ := host.call_over hstack hargs
        rw [hs, ht]
        exact .inl (.some ⟨rfl, h.withStack hst⟩)
    | code code =>
      dsimp only
      rw [callGuest_eq, callGuest_eq, h.inst]
      rcases f.enter_alike m.inst h.store with ⟨e, hs, ht⟩ | ⟨frame, s, t, hs, ht, hst⟩ | ⟨needed, depth, hs⟩
      · rw [hs, ht]
        exact h.refused e
      · have hstart : Config.Over base (.start ⟨s, frame⟩ code) (.start ⟨t, frame⟩ code) := ⟨⟨hst, rfl⟩, rfl, rfl⟩
        have hruns := Config.run_alike m.inst hstart fuel
        rw [hs, ht]
        dsimp only
        generalize Config.run m.inst fuel (.start ⟨s, frame⟩ code) = p at hruns
        generalize Config.run m.inst fuel (.start ⟨t, frame⟩ code) = q at hruns
        rcases hruns with hrel | ⟨o, rfl, hshort⟩
        · cases hrel with
          | none => exact .inl .none
          | some ho =>
            rw [hst.stack.height]
            exact h.returned_alike ho _ _
        · obtain ⟨needed, depth, site, hresult⟩ := hshort
          have hanswer : (m.returned s.stack.height f.type.results.length o).1 = o.result := by
            simp only [returned, hresult]
          exact .inr ⟨needed, depth, site, (m.returned s.stack.height f.type.results.length o).2, by
            rw [← hresult, ← hanswer]; rfl⟩
      · rw [hs]
        exact .inr ⟨_, _, _, _, rfl⟩

theorem call_alike (h : m.Over base n) (fuel : Nat) (i : UInt32) : AnswersAlike base (m.call fuel i) (n.call fuel i) := by
  unfold call
  rw [h.inst]
  cases hf : m.inst.function i with
  | error t => exact h.refused t
  | ok f =>
    refine (callFunction_alike h fuel i).bind (fun answer m' n' h' => ?_) fun e m' => ⟨m', rfl⟩
    cases answer with
    | error e => exact .inl (.some ⟨rfl, h'⟩)
    | ok _ =>
      have hstack : m'.stack.Over base n'.stack := h'.store.stack
      simp only [popValues]
      rcases Nat.lt_or_ge m'.stack.height f.type.results.length with hfew | hresults
      · rw [OperandStack.popMany_short hfew]
        exact .inr ⟨_, _, _, _, rfl⟩
      · obtain ⟨cs, s, hs⟩ := OperandStack.popMany_of_le hresults
        obtain ⟨t, ht, hst⟩ := hstack.popMany hs
        rw [hs, ht]
        exact .inl (.some ⟨rfl, h'.withStack hst⟩)

/-- **An invocation of any function goes the same way over more cells**, and leaves them underneath, unless it runs out of
cells without them -/
theorem invoke_alike (h : m.Over base n) (fuel : Nat) (name : String) (args : List Val) :
    AnswersAlike base (m.invoke fuel name args) (n.invoke fuel name args) := by
  have hstack : m.stack.Over base n.stack := h.store.stack
  have hexport : n.findExport name = m.findExport name := by
    rw [findExport, findExport, h.exports]
  unfold invoke
  rw [hexport, h.inst]
  cases m.findExport name with
  | none => exact h.refused _
  | some i =>
    dsimp only
    cases m.inst.function i with
    | error t => exact h.refused t
    | ok f =>
      dsimp only
      by_cases hargs : args.map Val.type ≠ f.type.params
      · rw [if_pos hargs, if_pos hargs]
        exact h.refused _
      · rw [if_neg hargs, if_neg hargs]
        have hcalls := call_alike (h.withStack (hstack.pushAll (args.map Val.toCell))) fuel i
        refine hcalls.bind (fun answer m' n' h' => ?_) fun e m' => ⟨_, rfl⟩
        have hcut : m'.stack.Over base n'.stack := h'.store.stack
        cases answer with
        | ok vs => exact .inl (.some ⟨rfl, h'⟩)
        | error e =>
          simp only [hstack.height]
          exact .inl (.some ⟨rfl, h'.withStack (hcut.truncate _)⟩)

end Machine

end WasmCore
