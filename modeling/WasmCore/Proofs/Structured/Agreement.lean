/-
The machine and the evaluator agree.

`Task.Simulated` says that the machine comes to the ending of a task, in any surroundings of open constructs and waiting
functions. It passes from the parts of a task to the task, hence holds of whatever the evaluator answers
(`Task.eval_simulated`), by induction on the levels of recursion. The converse is by induction on the steps of the
machine: a run that ends within so many steps passes through every part of a task, and is shorter from there, so each
part has an ending (`Task.answers`). Together they give `Machine.execute_iff_evaluate`, which holds of any code, since
neither side asks whether it is valid.
-/
import WasmCore.Proofs.Structured.Simulation

namespace WasmCore

variable {inst : Instance}

namespace Progress

theorem run_succ {p : Progress} {fuel : Nat} {o : Outcome} (h : p.run inst fuel = some o) :
    p.run inst (fuel + 1) = some o := by
  induction fuel generalizing p with
  | zero =>
    cases p with
    | running c => cases h
    | ended o => exact h
  | succ fuel ih =>
    cases p with
    | running c =>
      rw [run_running] at h ⊢
      exact ih h
    | ended o => exact h

theorem run_le {p : Progress} {m n : Nat} {o : Outcome} (hmn : m ≤ n) (h : p.run inst m = some o) :
    p.run inst n = some o := by
  induction hmn with
  | refl => exact h
  | step _ ih => exact run_succ ih

/-- a run that ends within so many steps does so from every point that it passes -/
theorem Leads.ends {p q : Progress} (h : p.Leads inst q) {fuel : Nat} {o : Outcome} (hp : p.run inst fuel = some o) :
    q.run inst fuel = some o := by
  obtain ⟨n, hn⟩ := h
  rw [← hn fuel]
  exact run_le (Nat.le_add_left fuel n) hp

end Progress

namespace Task

open Completion Ending

/-! ## Tasks and points of a run -/

/-- the points of a run at which the machine starts with the task, in the surroundings `k` and `callers` -/
inductive Starts (inst : Instance) (k : Control) (callers : List Caller) : Task → State → Progress → Prop
  | sequence {code s index} (rest : k.innermost.rest = code) (length : k.innermost.code.length = index + code.length) :
      Starts inst k callers (.sequence k.blocks.length index code) s (Config.step inst ⟨s, k, callers⟩)
  | instr {site i s} : Starts inst k callers (.instr k.blocks.length site i) s (Config.perform inst ⟨s, k, callers⟩ i site)
  | loop {height arity body s} : Starts inst k callers (.loop k.blocks.length height body) s
      (.running ⟨s, k.enter ⟨true, height, arity⟩ body, callers⟩)
  | call {site index s} : Starts inst k callers (.call site index) s (Config.call inst ⟨s, k, callers⟩ index site)

/-- A task hands over only to tasks of lower rank, unless the machine makes a step. -/
def rank : Task → Nat
  | sequence .. => 2
  | instr .. => 1
  | loop .. | call .. => 0

/-- any task may follow a step -/
theorem rank_lt (t : Task) (steps rank : Nat) : 3 * steps + t.rank < 3 * (steps + 1) + rank := by
  cases t <;> simp only [Task.rank] <;> omega

/-- what the machine does when the task has ended -/
def after (k : Control) (callers : List Caller) : Task → Ending → Progress
  | sequence .., ending => ending.complete k callers
  | _, ending => ending.resume k callers

/-- the machine comes from the start of the task to its ending -/
def Simulated (inst : Instance) (t : Task) (s : State) (ending : Ending) : Prop :=
  ∀ k callers p, Starts inst k callers t s p → p.Leads inst (t.after k callers ending)

variable {s : State} {k : Control} {callers : List Caller}

/-- a body that is entered starts like any sequence -/
theorem Starts.body (label : Label) (body : List Instr) : Starts inst (k.enter label body) callers
    (.sequence (k.blocks.length + 1) 0 body) s (Config.step inst ⟨s, k.enter label body, callers⟩) :=
  .sequence rfl (Nat.zero_add _).symm

/-- a function starts like any sequence, in surroundings of its own -/
theorem Starts.function (body : List Instr) : Starts inst (.start body) callers (.sequence 0 0 body) s
    (Config.step inst ⟨s, .start body, callers⟩) :=
  .sequence rfl (Nat.zero_add _).symm

/-- How a call or an instruction is evaluated, and what the machine does meanwhile in the surroundings `k` and
`callers`: it has ended at once, or it is another task in the same place, or it is a task inside with something to do at
its end. -/
inductive Unfolds (inst : Instance) (k : Control) (callers : List Caller) (rank : Nat) :
    ((Task → State → Option Ending) → Option Ending) → Progress → Prop
  | ended {F p} (ending : Ending) (eval_eq : ∀ eval, F eval = some ending) (point : p = ending.resume k callers) :
      Unfolds inst k callers rank F p
  | same {F t s p} (eval_eq : ∀ eval, F eval = eval t s) (starts : Starts inst k callers t s p)
      (after_eq : ∀ ending, t.after k callers ending = ending.resume k callers) (lt : t.rank < rank) :
      Unfolds inst k callers rank F p
  | inside {F t s c k' callers' leave} (eval_eq : ∀ eval, F eval = (eval t s).map leave)
      (starts : Starts inst k' callers' t s (Config.step inst c))
      (after_eq : ∀ ending, t.after k' callers' ending = (leave ending).resume k callers) :
      Unfolds inst k callers rank F (.running c)

theorem call_unfolds (site : Site) (index : UInt32) (s : State) :
    Unfolds inst k callers 0 (evalWith inst · (.call site index) s) (Config.call inst ⟨s, k, callers⟩ index site) := by
  simp only [evalWith, Config.call]
  cases inst.function index with
  | error t => exact .ended (trapped t site s) (fun _ => rfl) rfl
  | ok f =>
    dsimp only
    cases f.body with
    | host host =>
      dsimp only
      generalize host.call s.store.stack = called
      obtain ⟨result, stack⟩ := called
      cases result with
      | error t => exact .ended (trapped t site { s with store.stack := stack }) (fun _ => rfl) rfl
      | ok _ => exact .ended (normal, { s with store.stack := stack }) (fun _ => rfl) rfl
    | code body =>
      dsimp only
      by_cases hd : inst.maxCallDepth ≤ s.store.depth
      · simp only [if_pos hd]
        exact .ended (trapped .callStackExhausted site s) (fun _ => rfl) rfl
      · simp only [if_neg hd]
        cases Frame.enter s.store.stack f.type.params f.locals with
        | error t => exact .ended (trapped t site s) (fun _ => rfl) rfl
        | ok entered => exact .inside (fun _ => rfl) (.function body) fun inner => complete_function inner _ _ _ _

theorem block_unfolds (s : State) (type : BlockType) (body : List Instr) :
    Unfolds inst k callers 1
      (fun eval => (eval (.sequence (k.blocks.length + 1) 0 body) s).map (leaveBlock s.store.stack.height type.arity))
      (.running ⟨s, k.enter ⟨false, s.store.stack.height, type.arity⟩ body, callers⟩) :=
  .inside (fun _ => rfl) (.body _ body) fun inner => complete_block inner _ _ _

/-- an indirect call is the call of the function that it finds -/
theorem exec_callIndirect (typeIndex tableIndex : UInt32) (s : State) :
    (Instr.callIndirect typeIndex tableIndex).exec inst s =
      ((do return .call (← indirectTarget inst typeIndex tableIndex)) : Exec Flow) s := by
  simp only [Instr.exec, indirectTarget, bind, EStateM.bind]
  cases Exec.pop s with
  | error t s => rfl
  | ok slot s =>
    cases inst.type typeIndex with
    | error t => rfl
    | ok declared => rfl

theorem callIndirect_unfolds (site : Site) (typeIndex tableIndex : UInt32) (s : State) :
    Unfolds inst k callers 1 (evalWith inst · (.instr k.blocks.length site (.callIndirect typeIndex tableIndex)) s)
      (Config.perform inst ⟨s, k, callers⟩ (.callIndirect typeIndex tableIndex) site) := by
  simp only [evalWith, Config.perform, exec_callIndirect, bind, EStateM.bind]
  cases indirectTarget inst typeIndex tableIndex s with
  | error t s => exact .ended (trapped t site s) (fun _ => rfl) rfl
  | ok index s => exact .same (fun _ => rfl) .call (fun _ => rfl) Nat.zero_lt_one

theorem instr_unfolds (site : Site) (i : Instr) (s : State) :
    Unfolds inst k callers 1 (evalWith inst · (.instr k.blocks.length site i) s)
      (Config.perform inst ⟨s, k, callers⟩ i site) := by
  cases i with
  | block type body => exact block_unfolds s type body
  | loop type body => exact .same (fun _ => rfl) .loop (fun _ => rfl) Nat.zero_lt_one
  | ite type body otherwise =>
    simp only [evalWith, Config.perform, Instr.exec, bind, EStateM.bind]
    cases Exec.pop s with
    | error t s => exact .ended (trapped t site s) (fun _ => rfl) rfl
    | ok condition s => exact block_unfolds s type _
  | br depth => exact .ended _ (fun _ => rfl) (resume_pending s depth site).symm
  | brIf depth =>
    simp only [evalWith, Config.perform, Instr.exec, bind, EStateM.bind]
    cases Exec.pop s with
    | error t s => exact .ended (trapped t site s) (fun _ => rfl) rfl
    | ok condition s =>
      dsimp only
      cases condition.isTrue with
      | true => exact .ended _ (fun _ => rfl) (resume_pending s depth site).symm
      | false => exact .ended (normal, s) (fun _ => rfl) rfl
  | brTable targets fallback =>
    simp only [evalWith, Config.perform, Instr.exec, bind, EStateM.bind]
    cases Exec.pop s with
    | error t s => exact .ended (trapped t site s) (fun _ => rfl) rfl
    | ok i s => exact .ended _ (fun _ => rfl) (resume_pending s _ site).symm
  | ret => exact .ended (ret site, s) (fun _ => rfl) rfl
  | call index => exact .same (fun _ => rfl) .call (fun _ => rfl) Nat.zero_lt_one
  | callIndirect typeIndex tableIndex => exact callIndirect_unfolds site typeIndex tableIndex s
  | _ => exact .ended _ (fun _ => rfl) (Config.perform_own rfl site)

/-! ## From the evaluator to the machine -/

section Simulated

variable {eval : Task → State → Option Ending} {ending : Ending}

/-- whatever is made up of simulated tasks leads to its ending -/
theorem Unfolds.leads {rank : Nat} {F : (Task → State → Option Ending) → Option Ending} {p : Progress}
    (h : ∀ t s e, eval t s = some e → t.Simulated inst s e) (hu : Unfolds inst k callers rank F p)
    (he : F eval = some ending) : p.Leads inst (ending.resume k callers) := by
  cases hu with
  | ended _ eval_eq point =>
    rw [eval_eq] at he
    cases he
    exact .of_eq point
  | same eval_eq starts after_eq =>
    rw [eval_eq] at he
    rw [← after_eq]
    exact h _ _ _ he k callers p starts
  | inside eval_eq starts after_eq =>
    rw [eval_eq, Option.map_eq_some_iff] at he
    obtain ⟨inner, hinner, rfl⟩ := he
    rw [← after_eq]
    exact (Progress.leads_step _).trans (h _ _ _ hinner _ _ _ starts)

theorem sequence_simulated (h : ∀ t s e, eval t s = some e → t.Simulated inst s e) {nesting index : Nat} {code : List Instr}
    (he : evalWith inst eval (.sequence nesting index code) s = some ending) :
    (sequence nesting index code).Simulated inst s ending := by
  intro k callers p hp
  cases hp with
  | sequence hrest hlength =>
    cases code with
    | nil =>
      cases he
      rw [Config.step_nil hrest]
      exact .refl _
    | cons i rest =>
      simp only [evalWith, Option.bind_eq_some_iff] at he
      obtain ⟨⟨c, s'⟩, hi, he⟩ := he
      have hindex : k.innermost.code.length - rest.length - 1 = index := by
        rw [hlength, List.length_cons]; omega
      have hlead := h _ _ _ hi (k.withRest rest) callers _ (by rw [← k.length_withRest rest]; exact .instr)
      rw [Config.step_cons hrest, hindex]
      refine hlead.trans ?_
      rw [after, ← complete_withRest ending rest]
      cases c with
      | normal =>
        refine (Progress.leads_step _).trans (h _ _ _ he _ callers _ ?_)
        rw [← k.length_withRest rest]
        refine .sequence (by rw [k.innermost_withRest]) ?_
        rw [k.innermost_withRest, hlength, List.length_cons]; omega
      | branch | ret | trap => cases he; exact .refl _

theorem loop_simulated (h : ∀ t s e, eval t s = some e → t.Simulated inst s e) {nesting height : Nat} {body : List Instr}
    (he : evalWith inst eval (.loop nesting height body) s = some ending) :
    (loop nesting height body).Simulated inst s ending := by
  intro k callers p hp
  cases hp with
  | @loop _ arity =>
    simp only [evalWith, Option.bind_eq_some_iff] at he
    obtain ⟨⟨c, s'⟩, hbody, he⟩ := he
    refine (Progress.leads_step _).trans ((h _ _ _ hbody _ callers _ (.body _ _)).trans ?_)
    rw [after, complete_loop]
    cases c with
    | normal => cases he; exact .refl _
    | branch depth site =>
      cases depth with
      | zero =>
        dsimp only at he ⊢
        rw [OperandStack.trim_eq_unwind] at he
        cases hu : s'.store.stack.unwind height 0 with
        | ok stack =>
          rw [hu] at he
          exact h _ _ _ he k callers _ .loop
        | error t =>
          rw [hu] at he
          cases he
          exact .refl _
      | succ depth => cases he; exact .refl _
    | ret site => cases he; exact .refl _
    | trap e => cases he; exact .refl _

theorem evalWith_simulated (h : ∀ t s e, eval t s = some e → t.Simulated inst s e) {t : Task}
    (he : evalWith inst eval t s = some ending) : t.Simulated inst s ending := by
  cases t with
  | sequence nesting index code => exact sequence_simulated h he
  | loop nesting height body => exact loop_simulated h he
  | instr nesting site i =>
    intro k callers p hp
    cases hp
    exact (instr_unfolds site i s).leads h he
  | call site index =>
    intro k callers p hp
    cases hp
    exact (call_unfolds site index s).leads h he

end Simulated

/-- **The machine comes to whatever the evaluator answers** -/
theorem eval_simulated {fuel : Nat} {t : Task} {ending : Ending} (he : Task.eval inst fuel t s = some ending) :
    t.Simulated inst s ending := by
  induction fuel generalizing t s ending with
  | zero => cases he
  | succ fuel ih => exact evalWith_simulated (fun _ _ _ => ih) he

/-! ## More fuel -/

theorem Unfolds.mono {rank : Nat} {F : (Task → State → Option Ending) → Option Ending} {p : Progress}
    {f g : Task → State → Option Ending} (h : ∀ t s e, f t s = some e → g t s = some e)
    (hu : Unfolds inst k callers rank F p) {ending : Ending} (he : F f = some ending) : F g = some ending := by
  cases hu with
  | ended _ eval_eq => rw [eval_eq] at he ⊢; exact he
  | same eval_eq => rw [eval_eq] at he ⊢; exact h _ _ _ he
  | inside eval_eq =>
    rw [eval_eq, Option.map_eq_some_iff] at he ⊢
    obtain ⟨inner, hinner, hleave⟩ := he
    exact ⟨inner, h _ _ _ hinner, hleave⟩

theorem evalWith_mono {f g : Task → State → Option Ending} (h : ∀ t s e, f t s = some e → g t s = some e) {t : Task}
    {ending : Ending} (he : evalWith inst f t s = some ending) : evalWith inst g t s = some ending := by
  cases t with
  | sequence nesting index code =>
    cases code with
    | nil => exact he
    | cons i rest =>
      simp only [evalWith, Option.bind_eq_some_iff] at he ⊢
      obtain ⟨⟨c, s'⟩, hi, he⟩ := he
      refine ⟨_, h _ _ _ hi, ?_⟩
      cases c with
      | normal => exact h _ _ _ he
      | branch | ret | trap => exact he
  | loop nesting height body =>
    simp only [evalWith, Option.bind_eq_some_iff] at he ⊢
    obtain ⟨⟨c, s'⟩, hbody, he⟩ := he
    refine ⟨_, h _ _ _ hbody, ?_⟩
    cases c with
    | branch depth site =>
      cases depth with
      | zero =>
        dsimp only at he ⊢
        cases hu : s'.store.stack.trim height 0 with
        | ok stack => rw [hu] at he; exact h _ _ _ he
        | error t => rw [hu] at he; exact he
      | succ depth => exact he
    | normal | ret | trap => exact he
  | instr nesting site i =>
    -- any surroundings with so many constructs will do
    obtain ⟨k, rfl⟩ : ∃ k : Control, k.blocks.length = nesting :=
      ⟨⟨List.replicate nesting ⟨⟨false, 0, 0⟩, .start []⟩, .start []⟩, List.length_replicate⟩
    exact (@instr_unfolds inst k [] site i s).mono h he
  | call site index => exact (@call_unfolds inst (.start []) [] site index s).mono h he

theorem eval_succ {fuel : Nat} {t : Task} {ending : Ending} (he : Task.eval inst fuel t s = some ending) :
    Task.eval inst (fuel + 1) t s = some ending := by
  induction fuel generalizing t s ending with
  | zero => cases he
  | succ fuel ih => exact evalWith_mono (fun _ _ _ => ih) he

theorem eval_le {m n : Nat} (hmn : m ≤ n) {t : Task} {ending : Ending} (he : Task.eval inst m t s = some ending) :
    Task.eval inst n t s = some ending := by
  induction hmn with
  | refl => exact he
  | step _ ih => exact eval_succ ih

/-! ## From the machine to the evaluator -/

/-- if the machine's run from the start of the task on ends within so many steps, then the evaluator has an answer -/
def Answers (inst : Instance) (steps : Nat) (t : Task) : Prop :=
  ∀ s k callers p o, Starts inst k callers t s p → p.run inst steps = some o →
    ∃ fuel ending, Task.eval inst fuel t s = some ending

section Answers

variable {steps : Nat}

theorem Unfolds.answers {rank : Nat} {F : (Task → State → Option Ending) → Option Ending} {p : Progress} {o : Outcome}
    (ih : ∀ m (t : Task), 3 * m + t.rank < 3 * steps + rank → t.Answers inst m)
    (hu : Unfolds inst k callers rank F p) (hrun : p.run inst steps = some o) :
    ∃ fuel ending, F (Task.eval inst fuel) = some ending := by
  cases hu with
  | ended ending eval_eq => exact ⟨0, ending, eval_eq _⟩
  | same eval_eq starts _ lt =>
    obtain ⟨fuel, ending, he⟩ := ih steps _ (by omega) _ _ _ _ _ starts hrun
    exact ⟨fuel, ending, by rw [eval_eq, he]⟩
  | inside eval_eq starts =>
    cases steps with
    | zero => cases hrun
    | succ m =>
      rw [Progress.run_running] at hrun
      obtain ⟨fuel, inner, he⟩ := ih m _ (rank_lt _ m rank) _ _ _ _ _ starts hrun
      refine ⟨fuel, ?_⟩
      rw [eval_eq, he]
      exact ⟨_, rfl⟩

theorem sequence_answers {nesting index : Nat} {code : List Instr}
    (ih : ∀ m (t : Task), 3 * m + t.rank < 3 * steps + 2 → t.Answers inst m) :
    (sequence nesting index code).Answers inst steps := by
  intro s k callers p o hp hrun
  cases hp with
  | sequence hrest hlength =>
    cases code with
    | nil => exact ⟨1, (normal, s), rfl⟩
    | cons i rest =>
      have hindex : k.innermost.code.length - rest.length - 1 = index := by
        rw [hlength, List.length_cons]; omega
      rw [Config.step_cons hrest, hindex] at hrun
      have hstart : Starts inst (k.withRest rest) callers (.instr k.blocks.length ⟨i.opcode, index⟩ i) s
          (Config.perform inst ⟨s, k.withRest rest, callers⟩ i ⟨i.opcode, index⟩) := by
        rw [← k.length_withRest rest]; exact .instr
      obtain ⟨n, ⟨c, s'⟩, hn⟩ := ih steps _ (by simp only [rank]; omega) _ _ _ _ _ hstart hrun
      have hrun' := (eval_simulated hn _ _ _ hstart).ends hrun
      cases c with
      | normal =>
        cases steps with
        | zero => cases hrun'
        | succ m =>
          have hstart' : Starts inst (k.withRest rest) callers (.sequence k.blocks.length (index + 1) rest) s'
              (Config.step inst ⟨s', k.withRest rest, callers⟩) := by
            rw [← k.length_withRest rest]
            refine .sequence (by rw [k.innermost_withRest]) ?_
            rw [k.innermost_withRest, hlength, List.length_cons]; omega
          dsimp only [after, resume] at hrun'
          rw [Progress.run_running] at hrun'
          obtain ⟨n', ending, hn'⟩ := ih m _ (rank_lt _ m 2) _ _ _ _ _ hstart' hrun'
          refine ⟨max n n' + 1, ending, ?_⟩
          simp only [Task.eval, evalWith, eval_le (Nat.le_max_left n n') hn, Option.bind_some]
          exact eval_le (Nat.le_max_right n n') hn'
      | branch | ret | trap =>
        refine ⟨n + 1, ?_⟩
        rw [Task.eval, evalWith, hn]
        exact ⟨_, rfl⟩

theorem loop_answers {nesting height : Nat} {body : List Instr}
    (ih : ∀ m (t : Task), 3 * m + t.rank < 3 * steps → t.Answers inst m) :
    (loop nesting height body).Answers inst steps := by
  intro s k callers p o hp hrun
  cases hp with
  | @loop _ arity =>
    cases steps with
    | zero => cases hrun
    | succ m =>
      rw [Progress.run_running] at hrun
      obtain ⟨n, ⟨c, s'⟩, hn⟩ := ih m _ (rank_lt _ m 0) _ _ _ _ _ (.body _ _) hrun
      have hrun' := (eval_simulated hn _ _ _ (.body _ _)).ends hrun
      rw [after, complete_loop] at hrun'
      cases c with
      | branch depth site =>
        cases depth with
        | zero =>
          dsimp only at hrun'
          cases hu : s'.store.stack.unwind height 0 with
          | ok stack =>
            simp only [hu] at hrun'
            obtain ⟨n', ending, hn'⟩ := ih m (.loop k.blocks.length height body) (rank_lt _ m 0) _ _ _ _ _ .loop hrun'
            refine ⟨max n n' + 1, ending, ?_⟩
            simp only [Task.eval, evalWith, eval_le (Nat.le_max_left n n') hn, Option.bind_some, OperandStack.trim_eq_unwind, hu]
            exact eval_le (Nat.le_max_right n n') hn'
          | error t =>
            refine ⟨n + 1, trapped t site s', ?_⟩
            simp only [Task.eval, evalWith, hn, Option.bind_some, OperandStack.trim_eq_unwind, hu]
        | succ depth =>
          refine ⟨n + 1, (.branch depth site, s'), ?_⟩
          simp only [Task.eval, evalWith, hn, Option.bind_some]
      | normal | ret | trap =>
        refine ⟨n + 1, ?_⟩
        rw [Task.eval, evalWith, hn]
        exact ⟨_, rfl⟩

/-- **The evaluator answers whenever the machine's run ends** -/
theorem answers (steps : Nat) (t : Task) : t.Answers inst steps := by
  induction h : 3 * steps + t.rank using Nat.strongRecOn generalizing steps t with
  | ind n ih =>
    subst h
    cases t with
    | sequence nesting index code => exact sequence_answers fun m t hlt => ih _ hlt m t rfl
    | loop nesting height body => exact loop_answers fun m t hlt => ih _ hlt m t rfl
    | instr nesting site i =>
      intro s k callers p o hp hrun
      cases hp
      obtain ⟨fuel, ending, he⟩ := (instr_unfolds site i s).answers (fun m t hlt => ih _ hlt m t rfl) hrun
      exact ⟨fuel + 1, ending, he⟩
    | call site index =>
      intro s k callers p o hp hrun
      cases hp
      obtain ⟨fuel, ending, he⟩ := (call_unfolds site index s).answers (fun m t hlt => ih _ hlt m t rfl) hrun
      exact ⟨fuel + 1, ending, he⟩

end Answers

end Task

/-! ## Whole runs -/

/-- at the outermost level the run ends without cutting the stack -/
theorem Ending.complete_outermost (ending : Ending) (code : List Instr) :
    ending.complete (.start code) [] = .ended ⟨ending.1.result, ending.2⟩ := by
  obtain ⟨c, s⟩ := ending
  cases c with
  | branch depth site =>
    simp only [complete, Config.jump, Control.start, List.drop_nil]
    rfl
  | normal | ret | trap => rfl

/-- **The machine implements structured control flow.** From any state, for any code and frame, the machine's run ends
if and only if the evaluator answers, and then with the same result, frame and machine. -/
theorem Machine.execute_iff_evaluate (m : Machine) (code : List Instr) (frame : Frame)
    (r : Except ExecError Unit × Frame × Machine) :
    (∃ fuel, m.execute fuel code frame = some r) ↔ ∃ fuel, m.evaluate fuel code frame = some r := by
  have hstart (fuel : Nat) : Config.run m.inst fuel (.start ⟨m.store, frame⟩ code) =
      (Progress.running ⟨⟨m.store, frame⟩, .start code, []⟩).run m.inst fuel := rfl
  constructor
  · rintro ⟨steps, h⟩
    simp only [execute, Option.map_eq_some_iff, hstart] at h
    obtain ⟨o, hrun, rfl⟩ := h
    cases steps with
    | zero => cases hrun
    | succ steps =>
      rw [Progress.run_running] at hrun
      obtain ⟨fuel, ending, he⟩ := Task.answers steps _ _ _ _ _ _ (.function code) hrun
      have hend := (Task.eval_simulated he _ _ _ (.function code)).ends hrun
      rw [Task.after, Ending.complete_outermost] at hend
      cases hend
      exact ⟨fuel, by rw [evaluate, he]; rfl⟩
  · rintro ⟨fuel, h⟩
    simp only [evaluate, Option.map_eq_some_iff] at h
    obtain ⟨ending, he, rfl⟩ := h
    obtain ⟨n, hn⟩ := (Progress.leads_step _).trans (Task.eval_simulated he _ [] _ (.function code))
    refine ⟨n, ?_⟩
    rw [execute, hstart, ← Nat.add_zero n, hn 0, Task.after, Ending.complete_outermost]
    rfl

end WasmCore
