/-
The control stack of a run.

A configuration keeps the open constructs of each function apart from those of its callers. Read one after another, the
outermost first, they are one control stack, on which each function has an entry of its own below those of its constructs
(`Config.controlStack`); `Config.labelIndices` says where the functions that were called within the run have theirs. A step
that goes on does one of few things to control (`Config.step_advances`).
-/
import WasmCore.Proofs.Structured.IndirectCalls

namespace WasmCore

variable {inst : Instance}

/-! ## Entries -/

/-- an entry of the control stack: a function with its own sequence, or a construct that is open in it -/
inductive Entry where
  | function (body : Sequence)
  | construct (block : OpenBlock)

/-- the entries of a function, its own first and that of the innermost construct last -/
def Control.entries (k : Control) : List Entry :=
  .function k.body :: (k.blocks.map .construct).reverse

/-- the entries of the waiting functions, those of the outermost one first -/
def Caller.entries : List Caller → List Entry
  | [] => []
  | caller :: callers => Caller.entries callers ++ caller.control.entries

/-- where the entry of each function is that was called by one of these, the outermost first -/
def Caller.indices : List Caller → List Nat
  | [] => []
  | caller :: callers => Caller.indices callers ++ [(Caller.entries (caller :: callers)).length]

namespace Config

def controlStack (c : Config) : List Entry :=
  Caller.entries c.callers ++ c.control.entries

/-- where the functions that were called within the run have their own entries -/
def labelIndices (c : Config) : List Nat :=
  Caller.indices c.callers

/-- where the active function has its own entry -/
def floor (c : Config) : Nat :=
  c.labelIndices.getLast?.getD 0

end Config

theorem Control.length_entries (k : Control) : k.entries.length = k.blocks.length + 1 := by
  simp [entries]

theorem Control.entries_cons (b : OpenBlock) (blocks : List OpenBlock) (body : Sequence) :
    (Control.mk (b :: blocks) body).entries = (Control.mk blocks body).entries ++ [.construct b] := by
  simp [entries]

theorem Control.function_iff (k : Control) (n : Nat) : (∃ q, k.entries[n]? = some (.function q)) ↔ n = 0 := by
  cases n with
  | zero => simp [entries]
  | succ n =>
    have hconstruct : ∀ q, (k.blocks.map Entry.construct).reverse[n]? ≠ some (.function q) := by
      intro q hq
      obtain ⟨b, -, hb⟩ := List.mem_map.1 (List.mem_reverse.1 (List.mem_of_getElem? hq))
      cases hb
    simp [entries, hconstruct]

namespace Caller

/-- the last of them is that of the active function -/
theorem getLast_indices (callers : List Caller) : (indices callers).getLast?.getD 0 = (entries callers).length := by
  cases callers with
  | nil => rfl
  | cons caller callers => simp [indices]

theorem le_of_mem_indices {callers : List Caller} {n : Nat} (h : n ∈ indices callers) :
    1 ≤ n ∧ n ≤ (entries callers).length := by
  induction callers with
  | nil => cases h
  | cons caller callers ih =>
    have hlen : (entries (caller :: callers)).length = (entries callers).length + (caller.control.blocks.length + 1) := by
      rw [entries, List.length_append, Control.length_entries]
    rcases List.mem_append.1 h with hn | hn
    · have := ih hn
      omega
    · rw [List.mem_singleton.1 hn]
      omega

theorem pairwise_indices (callers : List Caller) : (indices callers).Pairwise (· < ·) := by
  induction callers with
  | nil => exact .nil
  | cons caller callers ih =>
    refine List.pairwise_append.2 ⟨ih, List.pairwise_singleton _ _, ?_⟩
    intro n hn k hk
    rw [List.mem_singleton.1 hk, entries, List.length_append, Control.length_entries]
    have := (le_of_mem_indices hn).2
    omega

/-- the entries of functions are the first one and those at the indices -/
theorem function_iff (callers : List Caller) (k : Control) (n : Nat) :
    (∃ q, (entries callers ++ k.entries)[n]? = some (.function q)) ↔ n = 0 ∨ n ∈ indices callers := by
  induction callers generalizing k with
  | nil =>
    rw [entries, List.nil_append, k.function_iff, indices]
    simp
  | cons caller callers ih =>
    rcases Nat.lt_or_ge n (entries (caller :: callers)).length with hn | hn
    · have hne : n ∉ [(entries (caller :: callers)).length] := by
        rw [List.mem_singleton]
        omega
      rw [List.getElem?_append_left hn, entries, ih caller.control, indices, List.mem_append, or_iff_left hne]
    · have hpos : n ≠ 0 := by
        rw [entries, List.length_append, Control.length_entries] at hn
        omega
      have hold : n ∉ indices callers := by
        intro hmem
        have := (le_of_mem_indices hmem).2
        rw [entries, List.length_append, Control.length_entries] at hn
        omega
      rw [List.getElem?_append_right hn, k.function_iff, indices, List.mem_append, List.mem_singleton,
        or_iff_right hpos, or_iff_right hold]
      omega

end Caller

namespace Config

theorem floor_eq (c : Config) : c.floor = (Caller.entries c.callers).length :=
  Caller.getLast_indices c.callers

end Config

/-! ## What an instruction asks of control -/

/-- the instruction is a construct, and this is what is open once it is entered: its first or its second body, which may have
run to any point, under the label that goes with it -/
inductive Instr.Opens : Instr → (second : Bool) → OpenBlock → Prop
  | block {type body height rest} : Opens (.block type body) false ⟨⟨false, height, type.arity⟩, ⟨body, rest⟩⟩
  | loop {type body height rest} : Opens (.loop type body) false ⟨⟨true, height, type.arity⟩, ⟨body, rest⟩⟩
  | ite {type body otherwise height rest} : Opens (.ite type body otherwise) false ⟨⟨false, height, type.arity⟩, ⟨body, rest⟩⟩
  | otherwise {type body otherwise height rest} :
      Opens (.ite type body otherwise) true ⟨⟨false, height, type.arity⟩, ⟨otherwise, rest⟩⟩

/-- the instruction calls the function, or may find it through a table -/
inductive Instr.MayCall (inst : Instance) : Instr → Function → Prop
  | call {i f} (function : inst.functions[i.toNat]? = some f) : MayCall inst (.call i) f
  | indirect {typeIndex tableIndex f} (function : f ∈ inst.functions)
      (type : inst.types[typeIndex.toNat]? = some f.type) : MayCall inst (.callIndirect typeIndex tableIndex) f

/-- what a flow says about the instruction that it comes from -/
def Instr.Gives (inst : Instance) (i : Instr) : Flow → Prop
  | .enter label body => ∃ second, i.Opens second ⟨label, .start body⟩
  | .call j => ∀ f, inst.function j = .ok f → i.MayCall inst f
  | _ => True

open Exec in
theorem Instr.exec_gives (inst : Instance) (i : Instr) (s : State) :
    Ends (i.exec inst) s (fun flow _ => i.Gives inst flow) fun _ _ => True := by
  cases i with
  | block type body => exact ends_bind.2 (ends_get.2 ⟨false, .block⟩)
  | loop type body => exact ends_bind.2 (ends_get.2 ⟨false, .loop⟩)
  | ite type body otherwise =>
    refine ends_bind_any fun condition s => ?_
    cases condition.isTrue with
    | true => exact ends_bind.2 (ends_get.2 ⟨false, .ite⟩)
    | false => exact ends_bind.2 (ends_get.2 ⟨true, .otherwise⟩)
  | br | ret => trivial
  | brIf depth =>
    refine ends_bind_any fun condition s => ?_
    cases condition.isTrue <;> trivial
  | brTable targets fallback => exact ends_bind_any fun _ _ => trivial
  | call j => exact fun f hf => .call (Instance.function_ok_iff.1 hf)
  | callIndirect typeIndex tableIndex =>
    unfold Ends
    rw [Task.exec_callIndirect]
    simp only [bind, EStateM.bind]
    cases htarget : indirectTarget inst typeIndex tableIndex s with
    | error t s => trivial
    | ok j s =>
      intro f hf
      obtain ⟨g, hg, hty⟩ := indirectTarget_ok htarget
      obtain rfl := Option.some.inj (hg.symm.trans (Instance.function_ok_iff.1 hf))
      exact .indirect (Array.mem_of_getElem? hg) hty
  | _ =>
    refine (exec_next rfl s).mono (fun flow s hflow => ?_) fun _ _ h => h
    rw [hflow]
    trivial

/-! ## Steps -/

namespace Config

variable {c d : Config}

/-- What a step that goes on does to control. In all but two cases it stays within the active function. -/
inductive Advances (inst : Instance) (c : Config) : Config → Prop
  /-- an instruction is done, or has called a host function -/
  | passed {i : Instr} {control : Control} {s : State} (next : c.control.next? = some (i, control)) :
      Advances inst c ⟨s, control, c.callers⟩
  | opened {i : Instr} {control : Control} {s : State} {second : Bool} {label : Label} {body : List Instr}
      (next : c.control.next? = some (i, control)) (opens : i.Opens second ⟨label, .start body⟩) :
      Advances inst c ⟨s, control.enter label body, c.callers⟩
  /-- the innermost sequence has come to its end -/
  | closed {b : OpenBlock} {blocks : List OpenBlock} (open_eq : c.control.blocks = b :: blocks) :
      Advances inst c ⟨c.state, { c.control with blocks }, c.callers⟩
  | branched {i : Instr} {control : Control} {s : State} {depth : Nat} {target : OpenBlock} {outer : List OpenBlock}
      (next : c.control.next? = some (i, control)) (drop : control.blocks.drop depth = target :: outer) :
      Advances inst c ⟨s, { control with
        blocks := if target.label.restarts then { target with body := .start target.body.code } :: outer else outer },
        c.callers⟩
  | entered {i : Instr} {control : Control} {s : State} {f : Function} {body : List Instr} {caller : Caller}
      (next : c.control.next? = some (i, control)) (calls : i.MayCall inst f) (body_eq : f.body = .code body)
      (control_eq : caller.control = control) : Advances inst c ⟨s, .start body, caller :: c.callers⟩
  | left {s : State} {caller : Caller} {callers : List Caller} (waiting : c.callers = caller :: callers) :
      Advances inst c ⟨s, caller.control, callers⟩

theorem leave_advances {s : State} {control : Control} {site : Option Site}
    (h : leave ⟨s, control, c.callers⟩ site = .running d) : c.Advances inst d := by
  unfold leave at h
  cases hcallers : c.callers with
  | nil =>
    simp only [hcallers] at h
    cases h
  | cons caller callers =>
    simp only [hcallers] at h
    split at h
    · cases h
      exact .left hcallers
    · cases h

theorem branch_advances {i : Instr} {control : Control} {s : State} {depth : UInt32} {site : Site}
    (hnext : c.control.next? = some (i, control)) (h : branch ⟨s, control, c.callers⟩ depth site = .running d) :
    c.Advances inst d := by
  unfold branch at h
  cases hdrop : control.blocks.drop depth.toNat with
  | nil =>
    simp only [hdrop] at h
    split at h
    · exact leave_advances h
    · cases h
  | cons target outer =>
    simp only [hdrop] at h
    split at h
    · cases h
    · cases h
      exact .branched hnext hdrop

theorem call_advances {i : Instr} {control : Control} {s : State} {j : UInt32} {site : Site}
    (hnext : c.control.next? = some (i, control)) (hgives : i.Gives inst (.call j))
    (h : call inst ⟨s, control, c.callers⟩ j site = .running d) : c.Advances inst d := by
  cases hf : inst.function j with
  | error t =>
    rw [call_missing hf] at h
    cases h
  | ok f =>
    cases hbody : f.body with
    | host host =>
      rw [call_host hf hbody] at h
      split at h
      · cases h
      · cases h
        exact .passed hnext
    | code body =>
      rw [call_code hf hbody] at h
      split at h
      · cases h
      · cases h
        exact .entered hnext (hgives f hf) hbody rfl

/-- **A step that goes on does one of these things to control**, in valid and in invalid code -/
theorem step_advances (h : c.step inst = .running d) : c.Advances inst d := by
  unfold step at h
  cases hnext : c.control.next? with
  | none =>
    simp only [hnext, finishSequence] at h
    cases hblocks : c.control.blocks with
    | nil =>
      rw [hblocks] at h
      exact leave_advances h
    | cons b blocks =>
      rw [hblocks] at h
      cases h
      exact .closed hblocks
  | some next =>
    obtain ⟨i, control⟩ := next
    have hgives := i.exec_gives inst c.state
    unfold Exec.Ends at hgives
    simp only [hnext] at h
    cases hexec : i.exec inst c.state with
    | error t s =>
      rw [hexec] at h
      cases h
    | ok flow s =>
      simp only [hexec] at h hgives
      cases flow with
      | next =>
        cases h
        exact .passed hnext
      | enter label body =>
        cases h
        obtain ⟨second, hopens⟩ := hgives
        exact .opened hnext hopens
      | branch depth => exact branch_advances hnext h
      | ret => exact leave_advances h
      | call j => exact call_advances hnext hgives h

end Config

end WasmCore
