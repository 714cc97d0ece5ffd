/-
Lexical scoping on one control stack.

The loop of `Machine.Flat` tells the entries of one function from those of another by nothing but the numbers that it has
put aside, and takes activations away without comparing them with the entries that it takes away. That this goes well is an
invariant of its runs, for any code (`Flat.control_stack`): the entries of functions are the first one and those at the
numbers put aside (`Flat.Labelled`), and above that of the active function are the constructs around its next instruction in
the text of its body (`Flat.Placed`).

So a branch of depth `k` that is taken within `n` constructs goes where the text says (`Flat.Targets`): to the construct
number `k`, counted from the innermost one, or out of the function if there are no more than `k` of them, and it is invalid
if there are fewer. And a function does not come near the entries of its callers: whatever entries these are, a step leaves
them as they are and does the same above them (`Flat.step_atop`).
-/
import WasmCore.Proofs.Structured.CallerEntries

namespace WasmCore

variable {inst : Instance}

/-! ## Branches -/

/-- the instruction takes a branch, for which it has taken its condition or its index off the stack -/
inductive Instr.Takes (s : State) : Instr → (depth : UInt32) → State → Prop
  | br {depth} : Takes s (.br depth) depth s
  | brIf {depth c stack} (pop : s.store.stack.pop = .ok (c, stack)) (taken : c.isTrue) :
      Takes s (.brIf depth) depth { s with store.stack := stack }
  | brTable {targets fallback c stack} (pop : s.store.stack.pop = .ok (c, stack)) :
      Takes s (.brTable targets fallback) (targets[c.index.toNat]?.getD fallback) { s with store.stack := stack }

theorem Instr.Takes.exec {i : Instr} {depth : UInt32} {s t : State} (h : i.Takes s depth t) :
    i.exec inst s = .ok (.branch depth) t := by
  cases h with
  | br => rfl
  | brIf pop taken =>
    simp only [Instr.exec, bind, EStateM.bind, Exec.pop_eq, pop, if_pos taken]
    rfl
  | brTable pop =>
    simp only [Instr.exec, bind, EStateM.bind, Exec.pop_eq, pop]
    rfl

namespace Flat

/-- the step fails for this reason -/
def Progress.Traps (t : Trap) : Progress → Prop
  | .running _ => False
  | .ended o => ∃ site, o.result = .error ⟨t, site⟩

theorem Progress.Traps.unique {p : Progress} {t u : Trap} (ht : p.Traps t) (hu : p.Traps u) : t = u := by
  cases p with
  | running m => cases ht
  | ended o =>
    obtain ⟨site, ht⟩ := ht
    obtain ⟨site', hu⟩ := hu
    rw [ht] at hu
    cases hu
    rfl

variable {m : Flat} {own top : Flat.Entry}

/-! ## The invariant -/

/-- The entries of functions are the first one and one for each function that was called within the run, in the order of the
calls. -/
structure Labelled (m : Flat) : Prop where
  functions : ∀ n, (∃ e, m.ctrl[n]? = some e ∧ e.owner = .function) ↔ n = 0 ∨ ∃ act ∈ m.calls, act.labelIndex = n
  increasing : (m.calls.map Activation.labelIndex).Pairwise (· < ·)
  positive : ∀ act ∈ m.calls, 1 ≤ act.labelIndex

/-- the entry is that of the construct: of its first or its second body -/
def Entry.IsOf (e : Flat.Entry) (i : Instr) : Prop :=
  ∃ second b, i.Opens second b ∧ e = b.flat

/-- `body` is what the active function runs: the outermost sequence, or the body of a function that its caller has just
called -/
inductive Runs (inst : Instance) (code : List Instr) (m : Flat) : (body : List Instr) → Prop
  | outermost (calls_eq : m.calls = []) : Runs inst code m code
  | called {body : List Instr} {act : Activation} {f : Function} {i : Instr} {e : Flat.Entry} {n : Nat}
      (active : m.calls.getLast? = some act) (waiting : m.ctrl[act.labelIndex - 1]? = some e) (after : e.pc = n + 1)
      (turn : e.code[n]? = some i) (calls : i.MayCall inst f) (body_eq : f.body = .code body) : Runs inst code m body

/-- The entry of the active function is `own`, and the uppermost one is `top`; the instruction that comes next in `top` stands
within the constructs `around` in the text of the function, the innermost of them first, and these are what the entries above
`own` are of. Each entry under `top` goes on right after the construct that is open in it. -/
structure Placed (inst : Instance) (code : List Instr) (m : Flat) (own top : Flat.Entry) (path : List (Nat × Bool))
    (around : List Instr) : Prop where
  active : m.ctrl[m.floor]? = some own
  function : own.owner = .function
  runs : m.Runs inst code own.code
  uppermost : m.ctrl.getLast? = some top
  place : enclosing own.code path = some (around, top.code)
  within : top.pc ≤ top.code.length
  turns : (m.ctrl.drop m.floor).dropLast.map Entry.pc = (path.map fun turn => turn.1 + 1).reverse
  constructs : List.Forall₂ Entry.IsOf (m.ctrl.drop (m.floor + 1)).reverse around

end Flat

/-- a sequence that goes on after a turn -/
theorem Sequence.pc_flat {q : Sequence} {i : Instr} {n : Nat} (turn : q.code[n]? = some i)
    (after : q.rest = q.code.drop (n + 1)) (owner : Flat.Owner) : (q.flat owner).pc = n + 1 := by
  obtain ⟨hlt, -⟩ := List.getElem?_eq_some_iff.1 turn
  rw [flat, after, List.length_drop]
  exact Nat.sub_sub_self hlt

namespace Config

variable {c : Config} {s : State} {code : List Instr}

theorem flatten_labelled (c : Config) : c.flatten.Labelled where
  functions n := by
    have hcalls : (∃ act ∈ c.flatten.calls, act.labelIndex = n) ↔ n ∈ Caller.indices c.callers := by
      rw [← Caller.map_labelIndex c.state.frame, List.mem_map]
      rfl
    rw [hcalls, ← Caller.function_iff c.callers c.control n]
    simp only [flatten, controlStack, List.getElem?_map, Option.map_eq_some_iff]
    constructor
    · rintro ⟨_, ⟨e, he, rfl⟩, hown⟩
      cases e with
      | function body => exact ⟨body, he⟩
      | construct block => cases hown
    · rintro ⟨body, he⟩
      exact ⟨_, ⟨_, he, rfl⟩, rfl⟩
  increasing := by
    have hincreasing := Caller.pairwise_indices c.callers
    rwa [← Caller.map_labelIndex c.state.frame] at hincreasing
  positive act hact := by
    have hmem : act.labelIndex ∈ Caller.indices c.callers := by
      rw [← Caller.map_labelIndex c.state.frame]
      exact List.mem_map_of_mem hact
    exact (Caller.le_of_mem_indices hmem).1

theorem Runs.flatten {body : List Instr} (h : c.Runs inst code body) : c.flatten.Runs inst code body := by
  obtain ⟨s, k, callers⟩ := c
  cases h with
  | outermost callers_eq =>
    cases callers_eq
    exact .outermost rfl
  | @called _ f i n caller callers waiting body_eq calls turn after =>
    cases waiting
    -- the caller's uppermost entry is the one right below that of the active function
    have hcaller := flatten_top ⟨s.store, caller.frame⟩ caller.control callers
    rw [List.getLast?_eq_getElem?] at hcaller
    have hlen : ((Caller.entries (caller :: callers)).map Entry.flat).length = (Caller.entries (caller :: callers)).length :=
      List.length_map _
    have hwaiting : (Config.flatten ⟨s, k, caller :: callers⟩).ctrl[(Caller.entries (caller :: callers)).length - 1]? =
        some (caller.control.innermost.flat caller.control.owner) := by
      rw [flatten_ctrl s k.blocks k.body, List.getElem?_append_left, ← hcaller, ← hlen]
      · rfl
      · rw [hlen, Caller.entries, List.length_append, Control.length_entries]
        omega
    exact .called List.getLast?_concat hwaiting (Sequence.pc_flat turn after _) turn calls body_eq

end Config

theorem Scoped.body_code {code : List Instr} {path : List (Nat × Bool)} {k : Control} (h : Scoped code path k) :
    k.body.code = code := by
  induction h with
  | body => rfl
  | construct _ _ _ _ _ ih => exact ih

/-- each sequence but the innermost one goes on after its turn -/
theorem Scoped.turns {code : List Instr} {path : List (Nat × Bool)} {k : Control} (h : Scoped code path k) :
    (k.entries.map Entry.flat).dropLast.map Flat.Entry.pc = (path.map fun turn => turn.1 + 1).reverse := by
  induction h with
  | body => rfl
  | @construct path blocks q i n second b _ turn after _ _ ih =>
    have houter := List.dropLast_append_getLast? _ (Control.mk blocks q).getLast_entries
    rw [Control.entries_cons, List.map_append, List.map_singleton, List.dropLast_concat, ← houter, List.map_append, ih, List.map_singleton,
      Sequence.pc_flat turn after, List.map_cons, List.reverse_cons]

namespace Config

variable {c : Config} {s : State} {code : List Instr}

/-- **Where a run comes to, the entries of the active function are placed**, whatever the code is -/
theorem flatten_placed (h : (start s code).Reaches inst c) :
    ∃ own top path around, c.flatten.Placed inst code own top path around := by
  obtain ⟨body, hscopes⟩ := reaches_scoped h
  obtain ⟨path, hplace⟩ := hscopes.place
  obtain ⟨around, hpath, hopen⟩ := hplace.enclosed
  have hruns := (runs_of_scopes hscopes).flatten
  obtain ⟨s', ⟨blocks, own⟩, callers⟩ := c
  obtain rfl : own.code = body := hplace.body_code
  have hctrl := flatten_ctrl s' blocks own callers
  have hfloor : (flatten ⟨s', ⟨blocks, own⟩, callers⟩).floor = ((Caller.entries callers).map Entry.flat).length :=
    (flatten_floor _).trans (List.length_map _).symm
  have habove : (flatten ⟨s', ⟨blocks, own⟩, callers⟩).ctrl.drop ((flatten ⟨s', ⟨blocks, own⟩, callers⟩).floor + 1) =
      (blocks.map OpenBlock.flat).reverse := by
    rw [← List.drop_drop, drop_flatten_floor, Control.entries, List.map_cons, ← List.map_reverse, List.map_map, List.map_reverse]
    rfl
  refine ⟨own.flat .function, _, path, around, ?_, rfl, hruns, flatten_top _ _ _, hpath, Nat.sub_le _ _, ?_, ?_⟩
  · rw [hctrl, hfloor, List.getElem?_append_right (Nat.le_refl _), Nat.sub_self]
    rfl
  · rw [drop_flatten_floor]
    exact hplace.turns
  · rw [habove, List.reverse_reverse, List.forall₂_map_left_iff]
    refine hopen.flip.imp fun b i h => ?_
    obtain ⟨second, hopens⟩ := h
    exact ⟨second, b, hopens, rfl⟩

end Config

/-! ## Where branches go -/

namespace Flat

variable {m : Flat} {s : State} {own top : Flat.Entry} {code : List Instr} {path : List (Nat × Bool)} {around : List Instr}

theorem Placed.split (h : m.Placed inst code own top path around) : ∃ lower above, m.ctrl = lower ++ own :: above.reverse ∧
    lower.length = m.floor ∧ List.Forall₂ Entry.IsOf above around := by
  obtain ⟨hlt, hown⟩ := List.getElem?_eq_some_iff.1 h.active
  refine ⟨m.ctrl.take m.floor, (m.ctrl.drop (m.floor + 1)).reverse, ?_, List.length_take_of_le (Nat.le_of_lt hlt),
    h.constructs⟩
  rw [List.reverse_reverse, ← hown, ← List.drop_eq_getElem_cons hlt, List.take_append_drop]

/-- the entry of the construct number `k`, with those below and above it -/
theorem Placed.split_construct (h : m.Placed inst code own top path around) {k : Nat} (hk : k < around.length) :
    ∃ (b : OpenBlock) (lower upper : List Flat.Entry), m.ctrl = lower ++ b.flat :: upper ∧ m.floor < lower.length ∧
      upper.length = k ∧ b.flat.IsOf around[k] := by
  obtain ⟨below, above, hctrl, hbelow, habove⟩ := h.split
  have hlt : k < above.length := by rwa [habove.length_eq]
  have hof : above[k].IsOf around[k] := habove.get hlt hk
  obtain ⟨second, b, hopens, hb⟩ := hof
  refine ⟨b, below ++ own :: (above.drop (k + 1)).reverse, (above.take k).reverse, ?_, ?_, ?_, ⟨second, b, hopens, rfl⟩⟩
  · have hsplit : above = above.take k ++ b.flat :: above.drop (k + 1) := by
      rw [← hb, ← List.drop_eq_getElem_cons hlt, List.take_append_drop]
    rw [hctrl]
    conv_lhs => rw [hsplit]
    simp
  · rw [← hbelow, List.length_append]
    exact Nat.lt_add_of_pos_right (Nat.succ_pos _)
  · rw [List.length_reverse, List.length_take_of_le (Nat.le_of_lt hlt)]

/-- The active function has been left in the state `s`: this has ended the run, or completed the call if the results are
there. -/
inductive Left (m : Flat) (s : State) : Progress → Prop
  | ended (outermost : m.calls = []) : Left m s (.ended ⟨.ok (), s⟩)
  | returned {act : Activation} {stack : OperandStack} (active : m.calls.getLast? = some act)
      (unwind : s.store.stack.unwind act.base act.arity = .ok stack) :
      Left m s (.running
        ⟨{ s.store with stack, depth := s.store.depth - 1 }, m.outer, m.ctrl.take m.floor, m.calls.dropLast⟩)
  | short {act : Activation} {p : Progress} (active : m.calls.getLast? = some act)
      (few : s.store.stack.height < act.base + act.arity)
      (traps : p.Traps (.stackUnderflow (act.base + act.arity) s.store.stack.height)) : Left m s p

/-- The construct of an entry has been branched to in the state `s`: it has been left, or a loop has been started again, if
there are as many cells as the branch carries. -/
inductive Reached (m : Flat) (s : State) (idx : Nat) (e : Flat.Entry) (label : Label) : Progress → Prop
  | closed {stack : OperandStack} (unwind : s.store.stack.unwind label.height label.branchArity = .ok stack)
      (leaves : label.restarts = false) :
      Reached m s idx e label (.running { m.withState s with store := { s.store with stack }, ctrl := m.ctrl.take idx })
  | restarted {stack : OperandStack} (unwind : s.store.stack.unwind label.height label.branchArity = .ok stack)
      (restarts : label.restarts = true) :
      Reached m s idx e label (.running
        { m.withState s with store := { s.store with stack }, ctrl := m.ctrl.take idx ++ [{ e with pc := 0 }] })
  | short {p : Progress} (few : s.store.stack.height < label.height + label.branchArity)
      (traps : p.Traps (.stackUnderflow (label.height + label.branchArity) s.store.stack.height)) :
      Reached m s idx e label p

/-- Where the branch of a depth goes that is taken within the constructs `around`, the innermost first; `s` is the state from
which it is taken. -/
structure Targets (inst : Instance) (m : Flat) (around : List Instr) (depth : UInt32) (s : State) : Prop where
  invalid : (m.step inst).Traps (.invalidBranchDepth depth) ↔ around.length < depth.toNat
  /-- the entry that is counted is the active function's own, which is left -/
  function : depth.toNat = around.length → m.ctrl.length - (1 + depth.toNat) = m.floor ∧ m.Left s (m.step inst)
  construct : (hd : depth.toNat < around.length) → ∃ e label, m.ctrl[m.ctrl.length - (1 + depth.toNat)]? = some e ∧
    e.IsOf around[depth.toNat] ∧ e.owner = .construct label ∧
    m.Reached s (m.ctrl.length - (1 + depth.toNat)) e label (m.step inst)

theorem Left.valid {p : Progress} {depth : UInt32} (h : m.Left s p) : ¬ p.Traps (.invalidBranchDepth depth) := by
  intro htraps
  cases h with
  | ended =>
    obtain ⟨_, hresult⟩ := htraps
    cases hresult
  | returned => exact htraps
  | short _ _ traps => cases htraps.unique traps

theorem Reached.valid {p : Progress} {idx : Nat} {e : Flat.Entry} {label : Label} {depth : UInt32}
    (h : m.Reached s idx e label p) : ¬ p.Traps (.invalidBranchDepth depth) := by
  intro htraps
  cases h with
  | closed | restarted => exact htraps
  | short _ traps => cases htraps.unique traps

theorem left_leaveFunction (hpos : ∀ act ∈ m.calls, 1 ≤ act.labelIndex) (hfloor : m.floor < m.ctrl.length) (s : State)
    (site : Option Site) : m.Left s (settle site (leaveFunction (m.withState s).floor (m.withState s))) := by
  obtain ⟨store, outer, ctrl, calls⟩ := m
  rcases List.eq_nil_or_concat' calls with rfl | ⟨calls, act, rfl⟩
  · exact .ended rfl
  · have hindex (act : Activation) (store : Store) : floor ⟨store, outer, ctrl, calls ++ [act]⟩ = act.labelIndex := by
      rw [floor, List.getLast?_concat]
    have hne : act.labelIndex ≠ 0 := Nat.ne_of_gt (hpos act (by simp))
    have hstate : (Flat.mk store outer ctrl (calls ++ [act])).withState s =
        ⟨s.store, outer, ctrl, calls ++ [{ act with frame := s.frame }]⟩ := by
      simp only [withState, List.getLast?_concat, List.dropLast_concat]
    rw [hstate, hindex, leaveFunction_called rfl hne]
    dsimp only
    cases hu : s.store.stack.unwind act.base act.arity with
    | ok stack =>
      have hreturned := Left.returned (m := ⟨store, outer, ctrl, calls ++ [act]⟩) List.getLast?_concat hu
      rw [hindex, List.dropLast_concat, ← goOn_running] at hreturned
      · exact hreturned
      · rw [hindex] at hfloor
        rw [← List.length_pos_iff, List.length_take]
        dsimp only at hfloor ⊢
        omega
    | error t =>
      obtain ⟨rfl, hshort⟩ := OperandStack.error_unwind hu
      exact .short List.getLast?_concat hshort ⟨site, rfl⟩

section

variable (h : m.Placed inst code own top path around) {i : Instr} {depth : UInt32} (hi : top.code[top.pc]? = some i)
  (htakes : i.Takes ⟨m.store, m.frame⟩ depth s)
include h hi htakes

/-- the branch is taken when the instruction is done -/
theorem step_takes : ∃ site, m.step inst = settle site (branch depth ((m.advance top).withState s)) := by
  exact ⟨some ⟨i.opcode, top.pc⟩, step_ok h.uppermost hi htakes.exec⟩

theorem step_beyond (hd : around.length < depth.toNat) : (m.step inst).Traps (.invalidBranchDepth depth) := by
  obtain ⟨lower, above, hctrl, hlower, habove⟩ := h.split
  obtain ⟨site, hstep⟩ := step_takes h hi htakes
  obtain ⟨own', above', htaken, hlen, -⟩ := advance_split hctrl h.uppermost
  have hfloor : ((m.advance top).withState s).floor = lower.length := (withState_floor _ _).trans hlower.symm
  have hbelow : ((m.advance top).withState s).ctrl.length ≤ ((m.advance top).withState s).floor + depth.toNat := by
    rw [withState_ctrl, hfloor, htaken, List.length_append, List.length_cons, hlen, List.length_reverse, habove.length_eq]
    omega
  rw [hstep, branch_invalid hbelow]
  exact ⟨site, rfl⟩

theorem step_out (hpos : ∀ act ∈ m.calls, 1 ≤ act.labelIndex) (hd : depth.toNat = around.length) :
    m.Left s (m.step inst) := by
  obtain ⟨lower, above, hctrl, hlower, habove⟩ := h.split
  obtain ⟨site, hstep⟩ := step_takes h hi htakes
  obtain ⟨own', above', htaken, hlen, hsame⟩ := advance_split hctrl h.uppermost
  rw [List.length_reverse, habove.length_eq, ← hd] at hlen
  have hown : own'.owner = .function := (congrArg Entry.owner hsame).trans h.function
  have hlt : (m.advance top).floor < (m.advance top).ctrl.length := by
    rw [htaken, List.length_append, hlower]
    exact Nat.lt_add_of_pos_right (Nat.succ_pos _)
  have hleft := left_leaveFunction (m := m.advance top) hpos hlt s site
  rw [hstep, branch_function ((withState_ctrl _ s).trans htaken) hlen hown ((withState_floor _ _).trans hlower.symm)]
  -- taking the instruction has changed nothing below the uppermost entry
  have htake : (m.advance top).ctrl.take m.floor = m.ctrl.take m.floor := by
    rw [htaken, hctrl, List.take_left' hlower, List.take_left' hlower]
  generalize settle site _ = p at hleft ⊢
  cases hleft with
  | ended outermost => exact .ended outermost
  | returned active unwind =>
    rw [show (m.advance top).ctrl.take (m.advance top).floor = m.ctrl.take m.floor from htake]
    exact .returned active unwind
  | short active few traps => exact .short active few traps

theorem step_in (hd : depth.toNat < around.length) : ∃ e label, m.ctrl[m.ctrl.length - (1 + depth.toNat)]? = some e ∧
    e.IsOf around[depth.toNat] ∧ e.owner = .construct label ∧
    m.Reached s (m.ctrl.length - (1 + depth.toNat)) e label (m.step inst) := by
  obtain ⟨b, lower, upper, hsplit, hlower, hupper, hof⟩ := h.split_construct hd
  obtain ⟨site, hstep⟩ := step_takes h hi htakes
  have hidx : m.ctrl.length - (1 + depth.toNat) = lower.length := by
    rw [hsplit, List.length_append, List.length_cons, hupper]
    omega
  obtain ⟨e', upper', htaken, hlen, hsame⟩ := advance_split hsplit h.uppermost
  have howner : e'.owner = .construct b.label := congrArg Entry.owner hsame
  have hget : m.ctrl[lower.length]? = some b.flat := by
    rw [hsplit, List.getElem?_append_right (Nat.le_refl _), Nat.sub_self]
    rfl
  have htake : m.ctrl.take lower.length = lower := by rw [hsplit, List.take_left' rfl]
  rw [hidx]
  refine ⟨b.flat, b.label, hget, hof, rfl, ?_⟩
  have hfloor : ((m.advance top).withState s).floor ≤ lower.length :=
    Nat.le_trans (Nat.le_of_eq (withState_floor _ _)) (Nat.le_of_lt hlower)
  rw [hstep, branch_construct ((withState_ctrl _ s).trans htaken) (hlen.trans hupper) howner hfloor, withState_store, hsame]
  cases hu : s.store.stack.unwind b.label.height b.label.branchArity with
  | error t =>
    obtain ⟨rfl, hshort⟩ := OperandStack.error_unwind hu
    exact .short hshort ⟨site, rfl⟩
  | ok stack =>
    dsimp only
    rw [withState_advance]
    cases hrestarts : b.label.restarts with
    | false =>
      have hclosed := @Reached.closed m s lower.length b.flat b.label stack hu hrestarts
      have hne : lower ≠ [] := List.length_pos_iff.1 (Nat.zero_lt_of_lt hlower)
      rw [htake, ← goOn_running hne] at hclosed
      exact hclosed
    | true =>
      have hrestarted := @Reached.restarted m s lower.length b.flat b.label stack hu hrestarts
      have hne : lower ++ [{ b.flat with pc := 0 }] ≠ [] := List.append_ne_nil_of_right_ne_nil _ (List.cons_ne_nil _ _)
      rw [htake, ← goOn_running hne] at hrestarted
      exact hrestarted

/-- **A branch goes where the text says**: a depth counts the constructs around the instruction -/
theorem branch_targets (hpos : ∀ act ∈ m.calls, 1 ≤ act.labelIndex) : m.Targets inst around depth s := by
  obtain ⟨lower, above, hctrl, hlower, habove⟩ := h.split
  have hlen : m.ctrl.length = m.floor + 1 + around.length := by
    rw [hctrl, List.length_append, List.length_cons, List.length_reverse, habove.length_eq, hlower]
    omega
  refine ⟨⟨fun htraps => Nat.lt_of_not_le fun hle => ?_, step_beyond h hi htakes⟩, fun hd => ⟨?_, step_out h hi htakes hpos hd⟩,
    step_in h hi htakes⟩
  · rcases Nat.lt_or_eq_of_le hle with hlt | heq
    · obtain ⟨e, label, -, -, -, hreached⟩ := step_in h hi htakes hlt
      exact hreached.valid htraps
    · exact (step_out h hi htakes hpos heq).valid htraps
  · omega

end

/-! ## Runs -/

/-- **The control stack of a run of any code**, at any point of it. The entries of functions are the first one and those at the
numbers that the calls have put aside; above that of the active function are the constructs around the next instruction in the
text of its body, and this is where branches go. What lies below stays as it is through any step, and whatever it is, the step
does the same above it. -/
theorem control_stack {s : State} {code : List Instr} (h : (start s code).Reaches inst m) :
    m.Labelled ∧
    (∃ own top path around, m.Placed inst code own top path around ∧
      ∀ i depth t, top.code[top.pc]? = some i → i.Takes ⟨m.store, m.frame⟩ depth t → m.Targets inst around depth t) ∧
    (∀ m', m.step inst = .running m' → m.ctrl.take m.floor <+: m'.ctrl) ∧
    ∃ p, ∀ lower, lower.length = m.floor →
      (atop lower { m with ctrl := m.ctrl.drop m.floor }).step inst = Progress.atop lower p := by
  obtain ⟨c, hc, rfl⟩ := reaches_flatten h
  obtain ⟨own, top, path, around, hplaced⟩ := Config.flatten_placed hc
  have hlabelled := c.flatten_labelled
  have howners : (c.flatten.ctrl.drop c.flatten.floor).map Entry.owner =
      .function :: (c.control.blocks.map OpenBlock.label).reverse.map .construct := by
    rw [Config.drop_flatten_floor, Control.entries]
    simp [Function.comp_def, Entry.flat, Sequence.flat, OpenBlock.flat]
  obtain ⟨p, hp⟩ := @step_atop inst { c.flatten with ctrl := c.flatten.ctrl.drop c.flatten.floor } _ _ rfl howners
  refine ⟨hlabelled, ⟨own, top, path, around, hplaced, fun i depth t hi htakes => ?_⟩, fun m' hstep => ?_, p, hp⟩
  · exact branch_targets hplaced hi htakes hlabelled.positive
  · have hself : atop (c.flatten.ctrl.take c.flatten.floor) { c.flatten with ctrl := c.flatten.ctrl.drop c.flatten.floor } =
        c.flatten := by
      rw [atop, List.take_append_drop]
    have hlen : (c.flatten.ctrl.take c.flatten.floor).length = c.flatten.floor := by
      rw [List.length_take, c.length_flatten_ctrl]
      omega
    have hover := hp _ hlen
    rw [hself, hstep] at hover
    cases p with
    | ended o => cases hover
    | running m'' =>
      cases hover
      exact List.prefix_append _ _

/-- a function that branches out of more than its loop, which is called from within a block -/
def crossing : Instance :=
  ⟨#[], #[.guest "f" ⟨[], []⟩ [] [.loop .empty [.br 2]]], #[], 4⟩

/-- when it is to branch -/
def crossed : Flat :=
  ⟨⟨.empty 1, .new 0 none, #[], 1⟩, ⟨#[]⟩,
    [⟨[.block .empty [.call 0]], 1, .function⟩, ⟨[.call 0], 1, .construct ⟨false, 0, 0⟩⟩,
      ⟨[.loop .empty [.br 2]], 1, .function⟩, ⟨[.br 2], 0, .construct ⟨true, 0, 0⟩⟩],
    [⟨⟨#[]⟩, 0, 0, 2⟩]⟩

/-- There are four entries, but the two lowest are the caller's: the branch is invalid. -/
theorem control_stack_crossing :
    (start ⟨⟨.empty 1, .new 0 none, #[], 0⟩, ⟨#[]⟩⟩ [.block .empty [.call 0]]).Reaches crossing crossed ∧
    crossed.Labelled ∧ crossed.ctrl.length = 4 ∧ crossed.floor = 2 ∧
    (crossed.step crossing).Traps (.invalidBranchDepth 2) := by
  have hreaches : (start ⟨⟨.empty 1, .new 0 none, #[], 0⟩, ⟨#[]⟩⟩ [.block .empty [.call 0]]).Reaches crossing crossed :=
    .head rfl (.head rfl (.head rfl .refl))
  obtain ⟨hlabelled, ⟨own, top, path, around, hplaced, htargets⟩, -⟩ := control_stack hreaches
  have htop : top = ⟨[.br 2], 0, .construct ⟨true, 0, 0⟩⟩ := (Option.some.inj hplaced.uppermost).symm
  have hlen : 1 = around.length := hplaced.constructs.length_eq
  have hinvalid := (htargets (.br 2) 2 ⟨crossed.store, crossed.frame⟩ (by rw [htop]; rfl) .br).invalid
  exact ⟨hreaches, hlabelled, rfl, rfl, hinvalid.2 (by show around.length < 2; omega)⟩

end Flat

end WasmCore
