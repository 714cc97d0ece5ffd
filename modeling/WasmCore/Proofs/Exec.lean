/-
How a single instruction ends.

`x.Ends s Q E` says that the computation `x`, started in the state `s`, either answers a value and a state that satisfy
`Q`, or traps in a state that satisfies `E`; since an instruction always ends in one of the two ways, this is all there
is to say about it. The rules below take a computation apart, one for each way in which it is put together.
-/
import WasmCore.Machine.Exec

namespace WasmCore

/-- the same state over other cells -/
def State.withCells (s : State) (cells : List Cell) : State :=
  { s with store.stack := s.store.stack.withCells cells }

/-- the same state over other cells, with a result on top of them -/
def State.withResult (s : State) (rest : List Cell) (c : Cell) : State :=
  { s with store.stack := (s.store.stack.withCells rest).push c }

theorem State.cells_withResult (s : State) (rest : List Cell) (c : Cell) : (s.withResult rest c).store.stack.cells = c :: rest :=
  rfl

namespace Exec

variable {α β : Type} {x : Exec α} {s : State} {Q Q' : α → State → Prop} {E E' : Trap → State → Prop}

/-- the computation answers in `Q` or traps in `E` -/
def Ends (x : Exec α) (s : State) (Q : α → State → Prop) (E : Trap → State → Prop) : Prop :=
  match x s with
  | .ok a s => Q a s
  | .error t s => E t s

theorem Ends.mono (h : Ends x s Q E) (hQ : ∀ a s, Q a s → Q' a s) (hE : ∀ t s, E t s → E' t s) :
    Ends x s Q' E' := by
  unfold Ends at h ⊢
  cases hx : x s with
  | ok a s => rw [hx] at h; exact hQ a s h
  | error t s => rw [hx] at h; exact hE t s h

theorem ends_pure {a : α} : Ends (pure a) s Q E ↔ Q a s := Iff.rfl

theorem ends_bind {f : α → Exec β} {Q : β → State → Prop} :
    Ends (x >>= f) s Q E ↔ Ends x s (fun a s => Ends (f a) s Q E) E := by
  simp only [Ends, bind, EStateM.bind]
  cases x s <;> rfl

/-- a computation whose first part does not matter, as long as a trap is allowed -/
theorem ends_bind_any {f : α → Exec β} {Q : β → State → Prop} (h : ∀ a s, Ends (f a) s Q fun _ _ => True) :
    Ends (x >>= f) s Q fun _ _ => True := by
  rw [ends_bind, Ends]
  cases x s with
  | ok a s => exact h a s
  | error t s => trivial

theorem ends_get {Q : State → State → Prop} : Ends get s Q E ↔ Q s s := Iff.rfl

theorem ends_modify {f : State → State} {Q : Unit → State → Prop} : Ends (modify f) s Q E ↔ Q () (f s) := Iff.rfl

/-- a check that does not look at the state leaves it as it is -/
theorem ends_ofExcept {r : Except Trap α} (hQ : ∀ a, r = .ok a → Q a s) (hE : ∀ t, r = .error t → E t s) :
    Ends (ofExcept r) s Q E := by
  cases r with
  | ok a => exact hQ a rfl
  | error t => exact hE t rfl

/-! ## Taking a cell off -/

theorem pop_eq (s : State) : pop s =
    match s.store.stack.pop with
    | .error t => .error t s
    | .ok (c, stack) => .ok c { s with store.stack := stack } := by
  have hstate : pop s =
      EStateM.bind (ofExcept s.store.stack.pop) (fun p s => .ok p.1 { s with store.stack := p.2 }) s := rfl
  rw [hstate]
  cases s.store.stack.pop <;> rfl

theorem pop_withCells (s : State) (c : Cell) (rest : List Cell) :
    pop (s.withCells (c :: rest)) = .ok c (s.withCells rest) :=
  pop_eq _

/-! ## Memory -/

theorem readMemory_eq (address length : Nat) (s : State) : readMemory address length s =
    match s.store.memory.read address length with
    | .error t => .error t s
    | .ok n => .ok n s := by
  have hstate : readMemory address length s = (ofExcept (s.store.memory.read address length) : Exec Nat) s := rfl
  rw [hstate]
  cases s.store.memory.read address length <;> rfl

theorem writeMemory_eq (address length n : Nat) (s : State) : writeMemory address length n s =
    match s.store.memory.check address length with
    | .error t => .error t s
    | .ok _ => .ok () { s with store.memory := s.store.memory.patch address (toLittleEndian length n) } := by
  have hstate : writeMemory address length n s =
      EStateM.bind (ofExcept (s.store.memory.check address length))
        (fun _ s => .ok () { s with store.memory := s.store.memory.patch address (toLittleEndian length n) }) s := rfl
  rw [hstate]
  cases s.store.memory.check address length <;> rfl

end Exec

/-! ## Operators -/

namespace Instr

variable {inst : Instance} {s : State} {rest : List Cell}

/-- an operator takes its operand and pushes what it computes -/
theorem exec_unary (op : UnaryOp) (c : Cell) :
    (unary op).exec inst (s.withCells (c :: rest)) = .ok .next (s.withResult rest (op.eval c)) := by
  simp only [exec, bind, EStateM.bind, Exec.pop_withCells]
  rfl

/-- an operator takes both operands, the second one from the top, also when it traps -/
theorem exec_binary (op : BinaryOp) (a b : Cell) :
    (binary op).exec inst (s.withCells (b :: a :: rest)) =
      match op.eval a b with
      | .error t => .error t (s.withCells rest)
      | .ok c => .ok .next (s.withResult rest c) := by
  simp only [exec, bind, EStateM.bind, Exec.pop_withCells]
  cases op.eval a b <;> rfl

end Instr

end WasmCore
