/-
Runs of code without loops.

Nothing in a run counts down by itself: a call brings a whole new body along, and functions that call each other may branch
at every level. What does get smaller is a weight (`Config.weight`), which an instruction that calls shares with all that
the called function may do within the calls that are left. So the weight of a function is one number for every number of
calls that may still be nested (`Instance.callWeight`), the active function has its weight under the calls that are left to
it, and each waiting function its own, under more calls. Without loops, every step that goes on takes at least one away
(`Config.Advances.lighter`), so the weight bounds the number of steps (`Config.run_ends`).
-/
import Mathlib.Algebra.GroupWithZero.Nat
import WasmCore.Proofs.Structured.ControlStack

namespace WasmCore

/-! ## Code without loops -/

namespace Instr

/-- no instruction is a loop, at any depth -/
def LoopFree (code : List Instr) : Prop :=
  ∀ type body, loop type body ∉ flattenAll code

variable {i : Instr} {code rest body otherwise : List Instr} {t : BlockType}

theorem loopFree_cons : LoopFree (i :: rest) ↔ LoopFree [i] ∧ LoopFree rest := by
  simp only [LoopFree, flattenAll, List.append_nil, List.mem_append, not_or, forall_and]

theorem loopFree_block : LoopFree [block t body] ↔ LoopFree body := by
  simp only [LoopFree, flattenAll, flatten, List.append_nil, List.mem_cons, reduceCtorEq, false_or]

theorem loopFree_ite : LoopFree [ite t body otherwise] ↔ LoopFree body ∧ LoopFree otherwise := by
  simp only [LoopFree, flattenAll, flatten, List.append_nil, List.mem_cons, reduceCtorEq, false_or, List.mem_append, not_or,
    forall_and]

theorem not_loopFree_loop : ¬ LoopFree [loop t body] :=
  fun h => h t body List.mem_cons_self

/-! ## Weights -/

mutual

/-- how many steps the instruction may take, with its bodies, if a call may take as many within the function -/
def weight (called : Nat) : Instr → Nat
  | block _ body => weightAll called body + 2
  | loop _ body => weightAll called body + 2
  | ite _ body otherwise => max (weightAll called body) (weightAll called otherwise) + 2
  | call _ => called + 1
  | callIndirect .. => called + 1
  | _ => 1

def weightAll (called : Nat) : List Instr → Nat
  | [] => 0
  | i :: rest => weight called i + weightAll called rest

end

theorem weight_pos (called : Nat) (i : Instr) : 0 < weight called i := by
  cases i <;> simp only [weight] <;> omega

/-- what is opened without loops is left by every branch to it, and weighs less than what opened it -/
theorem Opens.lighter {second : Bool} {label : Label} (h : i.Opens second ⟨label, .start body⟩) (hi : LoopFree [i])
    (called : Nat) : label.restarts = false ∧ LoopFree body ∧ weightAll called body + 1 < weight called i := by
  cases h with
  | block => exact ⟨rfl, loopFree_block.1 hi, by simp only [weight]; omega⟩
  | loop => exact absurd hi not_loopFree_loop
  | ite => exact ⟨rfl, (loopFree_ite.1 hi).1, by simp only [weight]; omega⟩
  | otherwise => exact ⟨rfl, (loopFree_ite.1 hi).2, by simp only [weight]; omega⟩

theorem MayCall.weight {inst : Instance} {f : Function} (h : i.MayCall inst f) (called : Nat) :
    weight called i = called + 1 := by
  cases h <;> simp only [Instr.weight]

theorem MayCall.mem {inst : Instance} {f : Function} (h : i.MayCall inst f) : f ∈ inst.functions := by
  cases h with
  | call function => exact Array.mem_of_getElem? function
  | indirect function _ => exact function

end Instr

/-- how many steps a call may take within the function, the one that leaves it included -/
def Function.weight (called : Nat) (f : Function) : Nat :=
  match f.body with
  | .host _ => 0
  | .code code => Instr.weightAll called code + 1

namespace Instance

/-- no function of the guest has a loop -/
def LoopFree (inst : Instance) : Prop :=
  ∀ f ∈ inst.functions, ∀ code, f.body = .code code → Instr.LoopFree code

/-- how many steps a call may take within its function if at most so many calls may be nested, this one included -/
def callWeight (inst : Instance) : Nat → Nat
  | 0 => 0
  | room + 1 => (inst.functions.toList.map (Function.weight (inst.callWeight room))).foldr max 0

theorem weight_le_callWeight {inst : Instance} {f : Function} {code : List Instr} (hf : f ∈ inst.functions)
    (hbody : f.body = .code code) (room : Nat) :
    Instr.weightAll (inst.callWeight room) code + 1 ≤ inst.callWeight (room + 1) := by
  have hmax (ns : List Nat) {n : Nat} (hn : n ∈ ns) : n ≤ ns.foldr max 0 := by
    induction ns with
    | nil => cases hn
    | cons m ns ih =>
      rw [List.foldr_cons]
      rcases List.mem_cons.1 hn with rfl | hn
      · exact Nat.le_max_left _ _
      · exact Nat.le_trans (ih hn) (Nat.le_max_right _ _)
  have hweight : f.weight (inst.callWeight room) = Instr.weightAll (inst.callWeight room) code + 1 := by
    rw [Function.weight, hbody]
  rw [← hweight]
  exact hmax _ (List.mem_map_of_mem hf.val)

end Instance

/-! ## Functions that run or wait -/

namespace Control

/-- no loop is open, and none is ahead -/
structure LoopFree (k : Control) : Prop where
  body : Instr.LoopFree k.body.rest
  blocks : ∀ b ∈ k.blocks, b.label.restarts = false ∧ Instr.LoopFree b.body.rest

/-- how many steps the function has before it, with the end of every sequence -/
def weight (called : Nat) (k : Control) : Nat :=
  (k.blocks.map fun b => Instr.weightAll called b.body.rest + 1).sum + Instr.weightAll called k.body.rest + 1

theorem weight_pos (called : Nat) (k : Control) : 0 < k.weight called :=
  Nat.succ_pos _

theorem loopFree_start {code : List Instr} (h : Instr.LoopFree code) : (start code).LoopFree :=
  ⟨h, fun _ hb => nomatch hb⟩

theorem weight_start (called : Nat) (code : List Instr) : (start code).weight called = Instr.weightAll called code + 1 := by
  simp only [weight, start, Sequence.start, List.map_nil, List.sum_nil, Nat.zero_add]

variable {k control : Control} {i : Instr}

theorem LoopFree.next (h : k.LoopFree) (hnext : k.next? = some (i, control)) :
    Instr.LoopFree [i] ∧ control.LoopFree := by
  obtain ⟨rest, hrest, rfl⟩ := next?_eq_some hnext
  obtain ⟨blocks, body⟩ := k
  cases blocks with
  | nil =>
    have hrest : body.rest = i :: rest := hrest
    have hbody := Instr.loopFree_cons.1 (hrest ▸ h.body)
    exact ⟨hbody.1, hbody.2, fun _ hb => nomatch hb⟩
  | cons b blocks =>
    have hrest : b.body.rest = i :: rest := hrest
    obtain ⟨hlabel, hb⟩ := h.blocks b List.mem_cons_self
    obtain ⟨hi, hrest'⟩ := Instr.loopFree_cons.1 (hrest ▸ hb)
    refine ⟨hi, h.body, fun b' hb' => ?_⟩
    rcases List.mem_cons.1 hb' with rfl | hb'
    · exact ⟨hlabel, hrest'⟩
    · exact h.blocks b' (List.mem_cons_of_mem b hb')

theorem weight_next (called : Nat) (hnext : k.next? = some (i, control)) :
    k.weight called = Instr.weight called i + control.weight called := by
  obtain ⟨rest, hrest, rfl⟩ := next?_eq_some hnext
  obtain ⟨blocks, body⟩ := k
  cases blocks with
  | nil =>
    have hrest : body.rest = i :: rest := hrest
    simp only [weight, withRest, hrest, Instr.weightAll]
    omega
  | cons b blocks =>
    have hrest : b.body.rest = i :: rest := hrest
    simp only [weight, withRest, hrest, Instr.weightAll, List.map_cons, List.sum_cons]
    omega

/-- an instruction is done -/
theorem next_lighter (called : Nat) (hnext : k.next? = some (i, control)) : control.weight called < k.weight called := by
  rw [weight_next called hnext]
  exact Nat.lt_add_of_pos_left (i.weight_pos called)

/-- a construct that is no loop has been opened -/
theorem enter_lighter (called : Nat) (h : k.LoopFree) (hnext : k.next? = some (i, control)) {second : Bool} {label : Label}
    {body : List Instr} (hopens : i.Opens second ⟨label, .start body⟩) :
    (control.enter label body).weight called < k.weight called := by
  obtain ⟨-, -, hbody⟩ := hopens.lighter (h.next hnext).1 called
  have henter : (control.enter label body).weight called = Instr.weightAll called body + 1 + control.weight called := by
    simp only [enter, weight, Sequence.start, List.map_cons, List.sum_cons]
    omega
  rw [henter, weight_next called hnext]
  exact Nat.add_lt_add_right hbody _

/-- open constructs have been left, the innermost ones -/
theorem outer_lighter (called depth : Nat) {target : OpenBlock} {outer : List OpenBlock}
    (h : k.blocks.drop depth = target :: outer) : ({ k with blocks := outer } : Control).weight called < k.weight called := by
  have hsum : k.blocks = k.blocks.take depth ++ target :: outer := by rw [← h, List.take_append_drop]
  have hmap := congrArg (fun bs => (bs.map fun b => Instr.weightAll called b.body.rest + 1).sum) hsum
  simp only [List.map_append, List.map_cons, List.sum_append, List.sum_cons] at hmap
  simp only [weight]
  omega

end Control

/-- the weights of functions that wait, the innermost first; under each of them one more call may be nested -/
def Caller.weights (inst : Instance) (room : Nat) : List Caller → Nat
  | [] => 0
  | caller :: callers => caller.control.weight (inst.callWeight (room - callers.length)) + weights inst room callers

/-! ## Steps and runs -/

namespace Config

variable {inst : Instance} {c d : Config}

/-- no loop is open or ahead in any function that runs or waits -/
structure LoopFree (c : Config) : Prop where
  control : c.control.LoopFree
  callers : ∀ caller ∈ c.callers, caller.control.LoopFree

/-- the weight of all functions that run or wait, if at most so many calls may be nested -/
def weight (inst : Instance) (room : Nat) (c : Config) : Nat :=
  c.control.weight (inst.callWeight (room - c.callers.length)) + Caller.weights inst room c.callers

theorem weight_pos (room : Nat) (c : Config) : 0 < c.weight inst room :=
  Nat.lt_of_lt_of_le (Control.weight_pos _ _) (Nat.le_add_right _ _)

theorem Advances.loopFree (h : c.Advances inst d) (hinst : inst.LoopFree) (hc : c.LoopFree) : d.LoopFree := by
  obtain ⟨hcontrol, hcallers⟩ := hc
  cases h with
  | passed next => exact ⟨(hcontrol.next next).2, hcallers⟩
  | opened next opens =>
    obtain ⟨hi, hbody, hblocks⟩ := hcontrol.next next
    obtain ⟨hlabel, hfree, -⟩ := opens.lighter hi 0
    refine ⟨⟨hbody, fun b hb => ?_⟩, hcallers⟩
    rcases List.mem_cons.1 hb with rfl | hb
    · exact ⟨hlabel, hfree⟩
    · exact hblocks b hb
  | @closed b blocks open_eq =>
    exact ⟨⟨hcontrol.body, fun b' hb' => hcontrol.blocks b' (open_eq ▸ List.mem_cons_of_mem b hb')⟩, hcallers⟩
  | @branched i control s depth target outer next drop =>
    obtain ⟨-, hbody, hblocks⟩ := hcontrol.next next
    have hmem {b : OpenBlock} (hb : b ∈ target :: outer) : b ∈ control.blocks := List.mem_of_mem_drop (drop ▸ hb)
    obtain ⟨hlabel, -⟩ := hblocks target (hmem List.mem_cons_self)
    refine ⟨⟨hbody, fun b hb => ?_⟩, hcallers⟩
    rw [hlabel] at hb
    exact hblocks b (hmem (List.mem_cons_of_mem target hb))
  | entered next calls body_eq control_eq =>
    refine ⟨Control.loopFree_start (hinst _ calls.mem _ body_eq), fun caller hcaller => ?_⟩
    rcases List.mem_cons.1 hcaller with rfl | hcaller
    · exact control_eq ▸ (hcontrol.next next).2
    · exact hcallers caller hcaller
  | left waiting =>
    rw [waiting] at hcallers
    exact ⟨hcallers _ List.mem_cons_self, fun caller hcaller => hcallers caller (List.mem_cons_of_mem _ hcaller)⟩

/-- less is before the active function, and the waiting ones are the same -/
theorem weight_within {room : Nat} {s : State} {k : Control}
    (h : ∀ called, k.weight called < c.control.weight called) :
    weight inst room ⟨s, k, c.callers⟩ < c.weight inst room :=
  Nat.add_lt_add_right (h _) _

/-- **Without loops, every step that goes on has less before it**, if it enters a function only where a call is left -/
theorem Advances.lighter {room : Nat} (h : c.Advances inst d) (hc : c.LoopFree)
    (hroom : c.callers.length < d.callers.length → c.callers.length < room) :
    d.weight inst room < c.weight inst room := by
  obtain ⟨hcontrol, -⟩ := hc
  cases h with
  | passed next => exact weight_within fun called => Control.next_lighter called next
  | opened next opens => exact weight_within fun called => Control.enter_lighter called hcontrol next opens
  | closed open_eq => exact weight_within fun called => Control.outer_lighter called 0 open_eq
  | @branched i control s depth target outer next drop =>
    have hmem : target ∈ control.blocks := List.mem_of_mem_drop (drop ▸ List.mem_cons_self)
    obtain ⟨hlabel, -⟩ := (hcontrol.next next).2.blocks target hmem
    simp only [hlabel, Bool.false_eq_true, if_false]
    exact weight_within fun called =>
      Nat.lt_trans (Control.outer_lighter called depth drop) (Control.next_lighter called next)
  | @entered i control s f body caller next calls body_eq control_eq =>
    -- the call weighs more than any function does under the calls that are left to it
    obtain ⟨left, hleft⟩ := Nat.exists_eq_add_of_lt (hroom (Nat.lt_succ_self _))
    have hcaller : room - c.callers.length = left + 1 := by omega
    have hcallee : room - (c.callers.length + 1) = left := by omega
    have hnext := Control.weight_next (inst.callWeight (left + 1)) next
    have hcall := calls.weight (inst.callWeight (left + 1))
    have hbody := Instance.weight_le_callWeight calls.mem body_eq left
    simp only [weight, Caller.weights, List.length_cons, hcaller, hcallee, control_eq, Control.weight_start]
    omega
  | @left s caller callers waiting =>
    have hpos := c.control.weight_pos (inst.callWeight (room - c.callers.length))
    simp only [weight]
    rw [waiting] at hpos ⊢
    exact Nat.lt_add_of_pos_left hpos

/-- the count of active functions goes up and down with the functions that wait; one more is entered only below the limit -/
theorem step_level {entered : Nat} (hd : c.state.store.depth = entered + c.callers.length)
    (h : c.step inst = .running d) :
    d.state.store.depth = entered + d.callers.length ∧
      (c.callers.length < d.callers.length → entered + c.callers.length < inst.maxCallDepth) := by
  have hsteps := @step_cases inst c
  rw [h] at hsteps
  cases hsteps with
  | within changes => exact ⟨changes.depth.trans hd, fun hlt => absurd hlt (Nat.lt_irrefl _)⟩
  | @entered s _ _ _ _ _ _ changes room =>
    have hs : s.store.depth = entered + c.callers.length := changes.depth.trans hd
    refine ⟨?_, fun _ => hs ▸ room⟩
    show s.store.depth + 1 = entered + (c.callers.length + 1)
    omega
  | @left s stack caller callers changes waiting =>
    have hs : s.store.depth = entered + c.callers.length := changes.depth.trans hd
    rw [waiting, List.length_cons] at hs ⊢
    refine ⟨?_, fun hlt => absurd hlt (Nat.not_lt_of_lt (Nat.lt_succ_self _))⟩
    show s.store.depth - 1 = entered + callers.length
    omega

/-- **A run without loops comes to its end**, within as many steps as it weighs at the start -/
theorem run_ends {entered : Nat} (hinst : inst.LoopFree) (hc : c.LoopFree)
    (hd : c.state.store.depth = entered + c.callers.length) :
    ∃ o, ∀ fuel, c.weight inst (inst.maxCallDepth - entered) ≤ fuel → run inst fuel c = some o := by
  -- by induction on the weight, which is never zero, so there is always a step left for what is being done
  induction hw : c.weight inst (inst.maxCallDepth - entered) using Nat.strongRecOn generalizing c with
  | ind w ih =>
    have hpos : 0 < w := hw ▸ c.weight_pos _
    cases hs : c.step inst with
    | ended o =>
      refine ⟨o, fun fuel hfuel => ?_⟩
      obtain ⟨fuel, rfl⟩ := Nat.exists_eq_add_of_lt (Nat.lt_of_lt_of_le hpos hfuel)
      rw [Nat.zero_add, run, hs]
    | running d =>
      obtain ⟨hlevel, hroom⟩ := step_level hd hs
      have hadvances := step_advances hs
      have hlighter : d.weight inst (inst.maxCallDepth - entered) < c.weight inst (inst.maxCallDepth - entered) :=
        hadvances.lighter hc fun hlt => Nat.lt_sub_of_add_lt (Nat.add_comm _ _ ▸ hroom hlt)
      rw [hw] at hlighter
      obtain ⟨o, ho⟩ := ih _ hlighter (hadvances.loopFree hinst hc) hlevel rfl
      refine ⟨o, fun fuel hfuel => ?_⟩
      obtain ⟨fuel, rfl⟩ := Nat.exists_eq_add_of_lt (Nat.lt_of_lt_of_le hpos hfuel)
      rw [Nat.zero_add, run, hs]
      exact ho fuel (by omega)

/-- a sequence from its start, in any state -/
theorem start_ends (hinst : inst.LoopFree) {code : List Instr} (hcode : Instr.LoopFree code) (s : State) :
    ∃ o, ∀ fuel, Instr.weightAll (inst.callWeight (inst.maxCallDepth - s.store.depth)) code + 1 ≤ fuel →
      run inst fuel (.start s code) = some o := by
  have hstart : LoopFree (.start s code) := ⟨Control.loopFree_start hcode, fun _ h => nomatch h⟩
  have hlevel : (start s code).state.store.depth = s.store.depth + (start s code).callers.length := rfl
  have hweight : (start s code).weight inst (inst.maxCallDepth - s.store.depth) =
      Instr.weightAll (inst.callWeight (inst.maxCallDepth - s.store.depth)) code + 1 :=
    Control.weight_start _ code
  rw [← hweight]
  exact run_ends hinst hstart hlevel

end Config

end WasmCore
