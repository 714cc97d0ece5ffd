/-
What a single instruction changes.

The operations that an instruction is built of replace the operand stack, write bytes within the memory or add pages that
the memory may have, and write a local that exists or a global that may be written. `Store.Evolves` and `State.Evolves`
are any number of such changes. `Instr.exec_evolves` says that an instruction makes no others, also when it traps, so that
what holds along every change holds across every instruction.
-/
import Mathlib.Logic.Relation
import WasmCore.Proofs.Primitives

namespace WasmCore

/-- one change of what outlives a function; calls and returns change the depth -/
inductive Store.Change : Store → Store → Prop
  | stack {s : Store} (stack : OperandStack) : Change s { s with stack }
  | depth {s : Store} (depth : Nat) : Change s { s with depth }
  | write {s : Store} {address length n : Nat} (h : s.memory.check address length = .ok ()) :
      Change s { s with memory := s.memory.patch address (toLittleEndian length n) }
  | grow {s : Store} {delta : Nat} (h : s.memory.canGrow delta) : Change s { s with memory := s.memory.extend delta }
  | setGlobal {s : Store} {i : UInt32} {g : Global} {c : Cell} (h : s.mutableGlobal i = .ok g) :
      Change s (s.writeGlobal i c)

/-- one change by an instruction, which by itself neither enters nor leaves a function -/
inductive State.Change : State → State → Prop
  | store {s : State} {t : Store} (h : s.store.Change t) (depth : t.depth = s.store.depth) : Change s { s with store := t }
  | setLocal {s : State} {i : UInt32} {c : Cell} (h : i.toNat < s.frame.size) :
      Change s { s with frame := s.frame.write i c }

/-- changes one after another -/
abbrev Store.Evolves : Store → Store → Prop :=
  Relation.ReflTransGen Store.Change

/-- changes by instructions one after another -/
abbrev State.Evolves : State → State → Prop :=
  Relation.ReflTransGen State.Change

namespace State.Evolves

variable {s t : State}

theorem of_store {store : Store} (h : s.store.Change store) (hd : store.depth = s.store.depth) :
    s.Evolves { s with store } :=
  .single (.store h hd)

theorem store (h : s.Evolves t) : s.store.Evolves t.store := by
  induction h with
  | refl => exact .refl
  | tail _ hc ih =>
    cases hc with
    | store h _ => exact ih.tail h
    | setLocal _ => exact ih

theorem depth (h : s.Evolves t) : t.store.depth = s.store.depth := by
  induction h with
  | refl => rfl
  | tail _ hc ih =>
    cases hc with
    | store _ hd => exact hd.trans ih
    | setLocal _ => exact ih

end State.Evolves

namespace Exec

variable {α β : Type} {x : Exec α}

/-- the computation makes no other changes, whether it answers or traps -/
def Moves (x : Exec α) : Prop :=
  ∀ s, Ends x s (fun _ t => s.Evolves t) fun _ t => s.Evolves t

theorem moves_pure (a : α) : Moves (pure a) :=
  fun _ => .refl

theorem moves_bind {f : α → Exec β} (hx : Moves x) (hf : ∀ a, Moves (f a)) : Moves (x >>= f) := by
  intro s
  apply ends_bind.2
  apply (hx s).mono
  · intro a t ht
    exact (hf a t).mono (fun _ _ h => ht.trans h) fun _ _ h => ht.trans h
  · intro _ t ht
    exact ht

theorem moves_ofExcept (r : Except Trap α) : Moves (ofExcept r) :=
  fun _ => ends_ofExcept (fun _ _ => .refl) fun _ _ => .refl

/-- what is computed from the state alone leaves it as it is -/
theorem moves_get {f : State → Exec β} (hf : ∀ s, Ends (f s) s (fun _ t => s.Evolves t) fun _ t => s.Evolves t) :
    Moves (get >>= f) :=
  fun s => ends_bind.2 (ends_get.2 (hf s))

/-! ## Primitives -/

theorem moves_push (c : Cell) : Moves (push c) :=
  fun _ => ends_modify.2 (.of_store (.stack _) rfl)

theorem moves_pop : Moves pop := by
  apply moves_get
  intro s
  apply ends_bind.2
  apply ends_ofExcept
  · intro r _
    exact .of_store (.stack r.2) rfl
  · intro _ _
    exact .refl

theorem moves_peek : Moves peek :=
  moves_get fun s => moves_ofExcept _ s

theorem moves_readMemory (address length : Nat) : Moves (readMemory address length) :=
  moves_get fun s => moves_ofExcept _ s

theorem moves_writeMemory (address length n : Nat) : Moves (writeMemory address length n) := by
  apply moves_get
  intro s
  apply ends_bind.2
  apply ends_ofExcept
  · intro _ hcheck
    exact .of_store (.write hcheck) rfl
  · intro _ _
    exact .refl

theorem moves_pages : Moves pages :=
  moves_get fun _ => .refl

theorem moves_growMemory (delta : Nat) : Moves (growMemory delta) := by
  apply moves_get
  intro s
  by_cases hgrow : s.store.memory.canGrow delta
  · rw [if_pos hgrow]
    exact ends_bind.2 (ends_modify.2 (.of_store (.grow hgrow) rfl))
  · rw [if_neg hgrow]
    exact .refl

theorem moves_readLocal (i : UInt32) : Moves (readLocal i) :=
  moves_get fun s => moves_ofExcept _ s

theorem moves_writeLocal (i : UInt32) (c : Cell) : Moves (writeLocal i c) := by
  apply moves_get
  intro s
  by_cases hi : i.toNat < s.frame.size
  · rw [if_pos hi]
    exact .single (.setLocal hi)
  · rw [if_neg hi]
    exact .refl

theorem moves_readGlobal (i : UInt32) : Moves (readGlobal i) :=
  moves_get fun s => moves_bind (moves_ofExcept _) (fun _ => moves_pure _) s

theorem moves_writeGlobal (i : UInt32) (c : Cell) : Moves (writeGlobal i c) := by
  apply moves_get
  intro s
  apply ends_bind.2
  apply ends_ofExcept
  · intro g hg
    exact .of_store (.setGlobal hg) rfl
  · intro _ _
    exact .refl

theorem Primitive.moves (h : Primitive x) : Moves x := by
  cases h with
  | ofExcept r => exact moves_ofExcept r
  | push c => exact moves_push c
  | pop => exact moves_pop
  | peek => exact moves_peek
  | readMemory address length => exact moves_readMemory address length
  | writeMemory address length n => exact moves_writeMemory address length n
  | pages => exact moves_pages
  | growMemory delta => exact moves_growMemory delta
  | readLocal i => exact moves_readLocal i
  | writeLocal i c => exact moves_writeLocal i c
  | readGlobal i => exact moves_readGlobal i
  | writeGlobal i c => exact moves_writeGlobal i c

theorem Built.moves {x : Exec Flow} (h : Built x) : Moves x := by
  induction h with
  | next | branch | ret | call | throw => exact fun _ => .refl
  | enter restarts type body => exact moves_get fun _ => .refl
  | after hx _ ih => exact moves_bind hx.moves ih

end Exec

/-- **An instruction changes the state by these changes only**, in valid and in invalid code, also if it traps -/
theorem Instr.exec_evolves (inst : Instance) (i : Instr) : (i.exec inst).Moves :=
  (i.exec_built inst).moves

end WasmCore
