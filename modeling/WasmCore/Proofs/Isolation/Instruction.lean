/-
Instructions over more cells.

`s.Over base t` says that `t` is `s` with the cells `base` underneath its stack. An instruction does over `base` what it
does without, as long as it does not run out of cells: it answers or traps alike, and leaves `base` underneath
(`Instr.exec_framed`). The one thing that tells is the label of a body that is entered, whose height counts the cells of
`base` too.
-/
import WasmCore.Proofs.Primitives
import WasmCore.Proofs.StackCells

namespace WasmCore

variable {base : List Cell}

/-! ## Stacks -/

namespace OperandStack

/-- the same cells over the cells `base`; the room may differ -/
def Over (base : List Cell) (s t : OperandStack) : Prop :=
  t.cells = s.cells ++ base

variable {s s' t : OperandStack}

theorem Over.height (h : s.Over base t) : t.height = s.height + base.length := by
  rw [t.height_eq, s.height_eq, h, List.length_append]

theorem Over.push (h : s.Over base t) (c : Cell) : (s.push c).Over base (t.push c) := by
  show c :: t.cells = (c :: s.cells) ++ base
  rw [h, List.cons_append]

theorem Over.pushAll (h : s.Over base t) (cs : List Cell) : (s.pushAll cs).Over base (t.pushAll cs) := by
  show (t.pushAll cs).cells = (s.pushAll cs).cells ++ base
  rw [cells_pushAll, cells_pushAll, h, List.append_assoc]

theorem Over.pop {c : Cell} (h : s.Over base t) (hs : s.pop = .ok (c, s')) :
    ∃ t', t.pop = .ok (c, t') ∧ s'.Over base t' := by
  have hcells : t.cells = c :: (s'.cells ++ base) := by
    rw [h, pop_ok hs, List.cons_append]
  exact pop_cons hcells

theorem Over.peek {c : Cell} (h : s.Over base t) (hs : s.peek = .ok c) : t.peek = .ok c := by
  unfold OperandStack.peek at hs
  split at hs
  · cases hs
  · rename_i hcells
    cases hs
    apply peek_cons
    rw [h, hcells, List.cons_append]

theorem Over.popMany {n : Nat} {cs : List Cell} (h : s.Over base t) (hs : s.popMany n = .ok (cs, s')) :
    ∃ t', t.popMany n = .ok (cs, t') ∧ s'.Over base t' := by
  obtain ⟨hlen, hcells⟩ := popMany_ok hs
  have hcells : t.cells = cs.reverse ++ (s'.cells ++ base) := by
    rw [h, hcells, List.append_assoc]
  have hpop := popMany_append hcells
  rw [List.length_reverse, hlen, List.reverse_reverse] at hpop
  exact hpop

theorem Over.truncate (h : s.Over base t) (n : Nat) : (s.truncate n).Over base (t.truncate (n + base.length)) := by
  have hdrop : t.height - (n + base.length) = s.height - n := by
    rw [h.height, Nat.add_sub_add_right]
  have hle : s.height - n ≤ s.cells.length := by
    rw [s.height_eq]
    exact Nat.sub_le _ _
  show t.cells.drop (t.height - (n + base.length)) = s.cells.drop (s.height - n) ++ base
  rw [hdrop, h, List.drop_append_of_le_length hle]

/-- a height within the stack is higher by the cells underneath -/
theorem Over.unwind {height keep : Nat} (h : s.Over base t) (hs : s.unwind height keep = .ok s') :
    ∃ t', t.unwind (height + base.length) keep = .ok t' ∧ s'.Over base t' := by
  obtain ⟨top, mid, rest, htop, hrest, hcells, hcut⟩ := unwind_ok hs
  have hcells : t.cells = top ++ (mid ++ (rest ++ base)) := by
    rw [h, hcells, List.append_assoc, List.append_assoc]
  obtain ⟨t', hu, ht⟩ := unwind_append top mid (rest ++ base) hcells
  rw [List.length_append, hrest, htop] at hu
  refine ⟨t', hu, ?_⟩
  show t'.cells = s'.cells ++ base
  rw [ht, hcut, List.append_assoc]

end OperandStack

/-! ## States -/

/-- the same store, apart from the cells underneath the stack -/
structure Store.Over (base : List Cell) (s t : Store) : Prop where
  stack : s.stack.Over base t.stack
  memory : t.memory = s.memory
  globals : t.globals = s.globals
  depth : t.depth = s.depth

structure State.Over (base : List Cell) (s t : State) : Prop where
  store : s.store.Over base t.store
  frame : t.frame = s.frame

theorem State.Over.eq_withStack {s t : State} (h : s.Over base t) : t = { s with store.stack := t.store.stack } := by
  obtain ⟨⟨stack, memory, globals, depth⟩, frame⟩ := s
  obtain ⟨⟨stack', memory', globals', depth'⟩, frame'⟩ := t
  obtain ⟨⟨-, hmemory, hglobals, hdepth⟩, hframe⟩ := h
  cases hmemory
  cases hglobals
  cases hdepth
  cases hframe
  rfl

theorem State.Over.withMemory {s t : State} (h : s.Over base t) (memory : Memory) :
    State.Over base { s with store.memory := memory } { t with store.memory := memory } :=
  ⟨⟨h.store.stack, rfl, h.store.globals, h.store.depth⟩, h.frame⟩

/-- the label of a body that was entered over `n` more cells -/
def Label.over (n : Nat) (l : Label) : Label :=
  { l with height := l.height + n }

def Flow.over (n : Nat) : Flow → Flow
  | .enter label body => .enter (label.over n) body
  | flow => flow

/-! ## Computations -/

namespace Exec

variable {α β : Type}

/-- how a computation ends over the cells `base`, compared with how it ends without: alike, or it has run out of cells -/
inductive Alike (base : List Cell) (R : α → α → Prop) : EStateM.Result Trap State α → EStateM.Result Trap State α → Prop
  | ok {a b : α} {s t : State} (answer : R a b) (state : s.Over base t) : Alike base R (.ok a s) (.ok b t)
  | error {e : Trap} {s t : State} (state : s.Over base t) : Alike base R (.error e s) (.error e t)
  | short {needed depth : Nat} {s : State} {r : EStateM.Result Trap State α} :
      Alike base R (.error (.stackUnderflow needed depth) s) r

/-- the computation ends alike over the cells `base`, with answers that `R` relates -/
def Framed (base : List Cell) (R : α → α → Prop) (x : Exec α) : Prop :=
  ∀ s t, s.Over base t → Alike base R (x s) (x t)

variable {x : Exec α} {R : α → α → Prop}

theorem framed_bind {S : β → β → Prop} {f : α → Exec β} (hx : Framed base Eq x) (hf : ∀ a, Framed base S (f a)) :
    Framed base S (x >>= f) := by
  intro s t hst
  have h := hx s t hst
  simp only [bind, EStateM.bind]
  generalize x s = p at h ⊢
  generalize x t = q at h ⊢
  cases h with
  | ok answer state =>
    cases answer
    exact hf _ _ _ state
  | error state => exact .error state
  | short => exact .short

theorem framed_pure {a : α} (h : R a a) : Framed base R (pure a) :=
  fun _ _ hst => .ok h hst

theorem framed_throw (e : Trap) : Framed base R (throw e : Exec α) :=
  fun _ _ hst => .error hst

theorem framed_ofExcept (r : Except Trap α) : Framed base Eq (ofExcept r) := by
  cases r with
  | ok a => exact framed_pure rfl
  | error e => exact framed_throw e

theorem framed_get {f : State → Exec α} (h : ∀ s t, s.Over base t → Alike base R (f s s) (f t t)) :
    Framed base R (get >>= f) :=
  h

theorem framed_modify {f : State → State} (h : ∀ s t, s.Over base t → (f s).Over base (f t)) :
    Framed base Eq (modify f) :=
  fun s t hst => .ok rfl (h s t hst)

/-! ## Primitives -/

theorem framed_push (c : Cell) : Framed base Eq (push c) := by
  apply framed_modify
  intro s t hst
  exact ⟨⟨hst.store.stack.push c, hst.store.memory, hst.store.globals, hst.store.depth⟩, hst.frame⟩

theorem framed_pop : Framed base Eq pop := by
  apply framed_get
  intro s t hst
  cases hs : s.store.stack.pop with
  | error e =>
    rw [OperandStack.error_pop hs]
    exact .short
  | ok popped =>
    obtain ⟨c, s'⟩ := popped
    obtain ⟨t', ht, hst'⟩ := hst.store.stack.pop hs
    rw [ht]
    exact .ok rfl ⟨⟨hst', hst.store.memory, hst.store.globals, hst.store.depth⟩, hst.frame⟩

theorem framed_peek : Framed base Eq peek := by
  apply framed_get
  intro s t hst
  cases hs : s.store.stack.peek with
  | error e =>
    rw [OperandStack.error_peek hs]
    exact .short
  | ok c =>
    rw [hst.store.stack.peek hs]
    exact .ok rfl hst

theorem framed_readMemory (address length : Nat) : Framed base Eq (readMemory address length) := by
  apply framed_get
  intro s t hst
  rw [hst.store.memory]
  exact framed_ofExcept _ s t hst

theorem framed_writeMemory (address length n : Nat) : Framed base Eq (writeMemory address length n) := by
  have hwrite : Framed base Eq (modify fun s : State =>
      { s with store.memory := s.store.memory.patch address (toLittleEndian length n) }) := by
    apply framed_modify
    intro s t hst
    rw [hst.store.memory]
    exact hst.withMemory _
  apply framed_get
  intro s t hst
  rw [hst.store.memory]
  exact framed_bind (framed_ofExcept _) (fun _ => hwrite) s t hst

theorem framed_pages : Framed base Eq pages := by
  apply framed_get
  intro s t hst
  rw [hst.store.memory]
  exact .ok rfl hst

theorem framed_growMemory (delta : Nat) : Framed base Eq (growMemory delta) := by
  have hgrow : Framed base Eq (modify fun s : State => { s with store.memory := s.store.memory.extend delta }) := by
    apply framed_modify
    intro s t hst
    rw [hst.store.memory]
    exact hst.withMemory _
  apply framed_get
  intro s t hst
  rw [hst.store.memory]
  by_cases h : s.store.memory.canGrow delta
  · rw [if_pos h]
    exact framed_bind hgrow (fun _ => framed_pure rfl) s t hst
  · rw [if_neg h]
    exact .ok rfl hst

theorem framed_readLocal (i : UInt32) : Framed base Eq (readLocal i) := by
  apply framed_get
  intro s t hst
  rw [hst.frame]
  exact framed_ofExcept _ s t hst

theorem framed_writeLocal (i : UInt32) (c : Cell) : Framed base Eq (writeLocal i c) := by
  apply framed_get
  intro s t hst
  rw [hst.frame]
  by_cases h : i.toNat < s.frame.size
  · rw [if_pos h]
    exact .ok rfl ⟨hst.store, congrArg (Frame.write · i c) hst.frame⟩
  · rw [if_neg h]
    exact .error hst

theorem framed_readGlobal (i : UInt32) : Framed base Eq (readGlobal i) := by
  apply framed_get
  intro s t hst
  have hglobal : t.store.global i = s.store.global i := by
    simp only [Store.global, hst.store.globals]
  rw [hglobal]
  exact framed_bind (framed_ofExcept _) (fun _ => framed_pure rfl) s t hst

theorem framed_writeGlobal (i : UInt32) (c : Cell) : Framed base Eq (writeGlobal i c) := by
  have hwrite : Framed base Eq (modify fun s : State => { s with store := s.store.writeGlobal i c }) := by
    apply framed_modify
    intro s t hst
    refine ⟨⟨hst.store.stack, hst.store.memory, ?_, hst.store.depth⟩, hst.frame⟩
    simp only [Store.writeGlobal, hst.store.globals]
  apply framed_get
  intro s t hst
  have hglobal : t.store.mutableGlobal i = s.store.mutableGlobal i := by
    simp only [Store.mutableGlobal, Store.global, hst.store.globals]
  rw [hglobal]
  exact framed_bind (framed_ofExcept _) (fun _ => hwrite) s t hst

theorem Primitive.framed (h : Primitive x) : Framed base Eq x := by
  cases h with
  | ofExcept r => exact framed_ofExcept r
  | push c => exact framed_push c
  | pop => exact framed_pop
  | peek => exact framed_peek
  | readMemory address length => exact framed_readMemory address length
  | writeMemory address length n => exact framed_writeMemory address length n
  | pages => exact framed_pages
  | growMemory delta => exact framed_growMemory delta
  | readLocal i => exact framed_readLocal i
  | writeLocal i c => exact framed_writeLocal i c
  | readGlobal i => exact framed_readGlobal i
  | writeGlobal i c => exact framed_writeGlobal i c

theorem Built.framed {x : Exec Flow} (h : Built x) : Framed base (fun a b => b = a.over base.length) x := by
  induction h with
  | next | branch | ret | call => exact framed_pure rfl
  | throw t => exact framed_throw t
  | enter restarts type body =>
    apply framed_get
    intro s t hst
    rw [hst.store.stack.height]
    exact .ok rfl hst
  | after hx _ ih => exact framed_bind hx.framed ih

end Exec

/-- **An instruction does over more cells what it does without them**, unless it runs out of cells -/
theorem Instr.exec_framed (inst : Instance) (i : Instr) :
    (i.exec inst).Framed base fun a b => b = a.over base.length :=
  (i.exec_built inst).framed

end WasmCore
