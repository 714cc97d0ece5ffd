/-
The entries of callers.

On one control stack, the entries of a function lie above those of its callers. Over whatever entries these are, a step does
the same with those above them, and leaves them as they are (`Flat.step_atop`): it takes none of them away, starts none of
them again, and reads none of them. It may only not have fewer of them than the active function's number says, and the
entries above have to be one of a function and then those of constructs.
-/
import WasmCore.Proofs.Structured.FlatStack

namespace WasmCore.Flat

variable {inst : Instance} {m : Flat} {n : Nat} {s : State} {top : Flat.Entry} {labels : List Label}

/-- with other entries below those that there are -/
def atop (lower : List Flat.Entry) (m : Flat) : Flat :=
  { m with ctrl := lower ++ m.ctrl }

def Progress.atop (lower : List Flat.Entry) : Progress → Progress
  | .running m => .running (m.atop lower)
  | .ended o => .ended o

theorem atop_withState (lower : List Flat.Entry) (m : Flat) (s : State) :
    (m.atop lower).withState s = (m.withState s).atop lower := by
  obtain ⟨store, outer, ctrl, calls⟩ := m
  rcases List.eq_nil_or_concat' calls with rfl | ⟨calls, act, rfl⟩
  · rfl
  · simp only [atop, withState, List.getLast?_concat]

theorem atop_advance (lower : List Flat.Entry) (hne : m.ctrl ≠ []) (top : Flat.Entry) :
    (m.atop lower).advance top = (m.advance top).atop lower := by
  simp only [atop, advance, List.dropLast_append_of_ne_nil hne, List.append_assoc]

theorem map_owner_advance (htop : m.ctrl.getLast? = some top) :
    (m.advance top).ctrl.map Entry.owner = m.ctrl.map Entry.owner := by
  conv_rhs => rw [← List.dropLast_append_getLast? top htop]
  simp [advance]

/-! ## Parts of a round -/

/-- over any entries of this number, the part ends in the same way and leaves them as they are -/
inductive Blind (n : Nat) (m : Flat) (x : Part Unit) : Prop
  | ok (m' : Flat) (same : ∀ lower, lower.length = n → x (m.atop lower) = .ok () (m'.atop lower)) : Blind n m x
  | error (t : Trap) (m' : Flat) (same : ∀ lower, lower.length = n → x (m.atop lower) = .error t (m'.atop lower)) :
      Blind n m x

theorem Blind.congr {x y : Part Unit} (h : m.Blind n x)
    (hxy : ∀ lower, lower.length = n → y (m.atop lower) = x (m.atop lower)) : m.Blind n y := by
  cases h with
  | ok m' same => exact .ok m' fun lower hlower => (hxy lower hlower).trans (same lower hlower)
  | error t m' same => exact .error t m' fun lower hlower => (hxy lower hlower).trans (same lower hlower)

/-- leaving the function leaves exactly what lies below it -/
theorem blind_leaveFunction (hfloor : m.floor = n) : m.Blind n (leaveFunction n) := by
  by_cases hn : n = 0
  · subst hn
    refine .ok { m with ctrl := [] } fun lower hlower => ?_
    rw [List.length_eq_zero_iff.1 hlower]
    rfl
  · rcases List.eq_nil_or_concat' m.calls with hcalls | ⟨calls, act, hcalls⟩
    · rw [floor, hcalls] at hfloor
      exact absurd hfloor.symm hn
    · have hpart (lower : List Flat.Entry) (hlower : lower.length = n) := leaveFunction_called (m := m.atop lower) hcalls hn
      have htake (lower : List Flat.Entry) (hlower : lower.length = n) : (m.atop lower).ctrl.take n = lower ++ [] := by
        rw [List.append_nil]
        exact List.take_left' hlower
      cases hu : m.store.stack.unwind act.base act.arity with
      | error t =>
        refine .error t ⟨{ m.store with depth := m.store.depth - 1 }, m.outer, [], calls⟩ fun lower hlower => ?_
        rw [hpart lower hlower, htake lower hlower]
        simp only [atop, hu]
      | ok stack =>
        refine .ok ⟨{ m.store with stack, depth := m.store.depth - 1 }, m.outer, [], calls⟩ fun lower hlower => ?_
        rw [hpart lower hlower, htake lower hlower]
        simp only [atop, hu]

/-- a branch counts the entries above, and not those below -/
theorem blind_branch (hfloor : m.floor = n) (howners : m.ctrl.map Entry.owner = .function :: labels.map .construct)
    (depth : UInt32) : m.Blind n (branch depth) := by
  obtain ⟨own, above, hctrl, hown, habove⟩ := List.map_eq_cons_iff.1 howners
  have hover (lower : List Flat.Entry) : (m.atop lower).ctrl = lower ++ own :: above := congrArg (lower ++ ·) hctrl
  have hbelow (lower : List Flat.Entry) (hlower : lower.length = n) : (m.atop lower).floor = lower.length :=
    hfloor.trans hlower.symm
  rcases Nat.lt_trichotomy above.length depth.toNat with hbeyond | hout | hin
  · refine .error (.invalidBranchDepth depth) m fun lower hlower => ?_
    refine branch_invalid ?_
    rw [hbelow lower hlower, hover, List.length_append, List.length_cons]
    omega
  · refine (blind_leaveFunction hfloor).congr fun lower hlower => ?_
    rw [branch_function (hover lower) hout hown (hbelow lower hlower)]
    exact congrArg (leaveFunction · (m.atop lower)) hfloor
  · obtain ⟨outer, e, inner, rfl, hinner⟩ : ∃ outer e inner, above = outer ++ e :: inner ∧ inner.length = depth.toNat := by
      refine ⟨above.take (above.length - 1 - depth.toNat), above[above.length - 1 - depth.toNat],
        above.drop (above.length - 1 - depth.toNat + 1), ?_, ?_⟩
      · rw [← List.drop_eq_getElem_cons, List.take_append_drop]
      · rw [List.length_drop]
        omega
    obtain ⟨label, -, hlabel⟩ : ∃ label ∈ labels, Owner.construct label = e.owner := by
      rw [← List.mem_map, ← habove]
      exact List.mem_map_of_mem (by simp)
    -- what lies below the target, atop any entries
    have hsplit (lower : List Flat.Entry) : (m.atop lower).ctrl = (lower ++ own :: outer) ++ e :: inner := by
      rw [hover, List.append_assoc, List.cons_append]
    have hle (lower : List Flat.Entry) (hlower : lower.length = n) : (m.atop lower).floor ≤ (lower ++ own :: outer).length := by
      rw [hbelow lower hlower, List.length_append]
      exact Nat.le_add_right _ _
    cases hu : m.store.stack.unwind label.height label.branchArity with
    | error t =>
      refine .error t m fun lower hlower => ?_
      rw [branch_construct (hsplit lower) hinner hlabel.symm (hle lower hlower)]
      simp only [atop, hu]
    | ok stack =>
      refine .ok { m with
        store.stack := stack
        ctrl := if label.restarts then own :: outer ++ [{ e with pc := 0 }] else own :: outer } fun lower hlower => ?_
      rw [branch_construct (hsplit lower) hinner hlabel.symm (hle lower hlower)]
      simp only [atop, hu]
      cases label.restarts <;> simp

/-- a function of the host knows nothing of control -/
theorem blind_callHost (h : HostFunc) : m.Blind n (callHost h) := by
  have hpart (lower : List Flat.Entry) := callHost_eq h (m.atop lower)
  rcases hcall : h.call m.store.stack with ⟨t | _, stack⟩
  · refine .error t { m with store.stack := stack } fun lower _ => ?_
    rw [hpart]
    simp only [atop, hcall]
  · refine .ok { m with store.stack := stack } fun lower _ => ?_
    rw [hpart]
    simp only [atop, hcall]

/-- the number that is put aside counts the entries below, and that is all -/
theorem blind_enterGuest (f : Function) (code : List Instr) : m.Blind n (enterGuest inst f code) := by
  have hpart (lower : List Flat.Entry) := @enterGuest_eq inst f code (m.atop lower)
  cases henter : f.enter inst m.store with
  | error t =>
    refine .error t m fun lower _ => ?_
    rw [hpart]
    simp only [atop, henter]
  | ok entered =>
    obtain ⟨frame, store⟩ := entered
    refine .ok ⟨store, m.outer, m.ctrl ++ [⟨code, 0, .function⟩],
      m.calls ++ [⟨frame, store.stack.height, f.type.results.length, n + m.ctrl.length⟩]⟩ fun lower hlower => ?_
    rw [hpart]
    simp only [atop, henter, List.append_assoc, List.length_append, hlower]

theorem blind_enterCall (i : UInt32) : m.Blind n (enterCall inst i) := by
  cases hf : inst.function i with
  | error t => exact .error t m fun lower _ => enterCall_missing hf
  | ok f =>
    cases hbody : f.body with
    | host h => exact (blind_callHost h).congr fun lower _ => enterCall_host hf hbody
    | code code => exact (blind_enterGuest f code).congr fun lower _ => enterCall_guest hf hbody

theorem blind_follow (hfloor : m.floor = n) (howners : m.ctrl.map Entry.owner = .function :: labels.map .construct)
    (flow : Flow) : m.Blind n (follow inst flow) := by
  cases flow with
  | next => exact .ok m fun _ _ => rfl
  | enter label body =>
    refine .ok { m with ctrl := m.ctrl ++ [⟨body, 0, .construct label⟩] } fun lower _ => ?_
    simp only [atop, ← List.append_assoc]
    rfl
  | branch depth => exact blind_branch hfloor howners depth
  | ret => exact (blind_leaveFunction hfloor).congr fun lower _ => congrArg (leaveFunction · (m.atop lower)) hfloor
  | call i => exact blind_enterCall i

/-- the uppermost sequence is the function's own if there is none above it -/
theorem blind_finishSequence (hfloor : m.floor = n) (howners : m.ctrl.map Entry.owner = .function :: labels.map .construct)
    (htop : m.ctrl.getLast? = some top) : m.Blind n (finishSequence top) := by
  obtain ⟨own, above, hctrl, hown, habove⟩ := List.map_eq_cons_iff.1 howners
  rcases List.eq_nil_or_concat' above with rfl | ⟨above, e, rfl⟩
  · obtain rfl : own = top := by
      rw [hctrl] at htop
      exact Option.some.inj htop
    refine (blind_leaveFunction hfloor).congr fun lower hlower => ?_
    have hidx : (m.atop lower).ctrl.length - 1 = n := by
      simp only [atop, hctrl, List.length_append, hlower, List.length_singleton, Nat.add_sub_cancel]
    unfold finishSequence
    rw [hown, ← hidx]
    rfl
  · obtain rfl : e = top := by
      rw [hctrl, ← List.cons_append, List.getLast?_concat] at htop
      exact Option.some.inj htop
    obtain ⟨label, -, hlabel⟩ : ∃ label ∈ labels, Owner.construct label = e.owner := by
      rw [← List.mem_map, ← habove]
      exact List.mem_map_of_mem (by simp)
    refine .ok { m with ctrl := own :: above } fun lower _ => ?_
    have hdrop : (m.atop lower).ctrl.dropLast = lower ++ own :: above := by
      simp only [atop, hctrl, ← List.cons_append, ← List.append_assoc, List.dropLast_concat]
    unfold finishSequence
    rw [← hlabel]
    exact congrArg (fun ctrl => EStateM.Result.ok () { m with ctrl }) hdrop

/-! ## A step -/

/-- the run ends with the outermost function, atop whatever entries -/
theorem Blind.settle {x : Part Unit} (h : m.Blind n x) (site : Option Site) :
    ∃ p, ∀ lower, lower.length = n → Flat.settle site (x (m.atop lower)) = Progress.atop lower p := by
  cases h with
  | error t m' same =>
    refine ⟨.ended (m'.finish (.error ⟨t, site⟩)), fun lower hlower => ?_⟩
    rw [same lower hlower]
    rfl
  | ok m' same =>
    by_cases hend : n = 0 ∧ m'.ctrl = []
    · refine ⟨.ended (m'.finish (.ok ())), fun lower hlower => ?_⟩
      rw [same lower hlower, List.length_eq_zero_iff.1 (hlower.trans hend.1)]
      simp only [Flat.settle, goOn, atop, hend.2]
      rfl
    · refine ⟨.running m', fun lower hlower => ?_⟩
      rw [same lower hlower]
      refine goOn_running fun hctrl => hend ?_
      obtain ⟨rfl, hctrl⟩ := List.append_eq_nil_iff.1 hctrl
      exact ⟨hlower.symm, hctrl⟩

/-- **A function does not come near the entries of its callers.** -/
theorem step_atop (hfloor : m.floor = n) (howners : m.ctrl.map Entry.owner = .function :: labels.map .construct) :
    ∃ p, ∀ lower, lower.length = n → (m.atop lower).step inst = Progress.atop lower p := by
  have hne : m.ctrl ≠ [] := by
    intro hnil
    rw [hnil] at howners
    cases howners
  obtain ⟨top, htop⟩ := Option.isSome_iff_exists.1 (List.getLast?_isSome.2 hne)
  have hover (lower : List Flat.Entry) : (m.atop lower).ctrl.getLast? = some top := by
    simp only [atop, List.getLast?_append, htop, Option.some_or]
  cases hi : top.code[top.pc]? with
  | none =>
    obtain ⟨p, hp⟩ := (blind_finishSequence hfloor howners htop).settle none
    exact ⟨p, fun lower hlower => (step_finishSequence (hover lower) hi).trans (hp lower hlower)⟩
  | some i =>
    have htaken (lower : List Flat.Entry) (s : State) :
        ((m.atop lower).advance top).withState s = ((m.advance top).withState s).atop lower := by
      rw [atop_advance lower hne, atop_withState]
    cases hexec : i.exec inst ⟨m.store, m.frame⟩ with
    | error t s =>
      refine ⟨.ended (((m.advance top).withState s).finish (.error (.located t ⟨i.opcode, top.pc⟩))), fun lower _ => ?_⟩
      rw [step_error (hover lower) hi hexec, htaken]
      rfl
    | ok flow s =>
      have hfloor' : ((m.advance top).withState s).floor = n := (withState_floor _ _).trans hfloor
      have howners' : ((m.advance top).withState s).ctrl.map Entry.owner = .function :: labels.map .construct := by
        rw [withState_ctrl, map_owner_advance htop, howners]
      have hblind : ((m.advance top).withState s).Blind n (follow inst flow) := blind_follow hfloor' howners' flow
      obtain ⟨p, hp⟩ := hblind.settle (some ⟨i.opcode, top.pc⟩)
      refine ⟨p, fun lower hlower => ?_⟩
      rw [step_ok (hover lower) hi hexec, htaken]
      exact hp lower hlower

end WasmCore.Flat
