/-
The operand stack.

All functions of a machine share one stack of cells, its top at the head of the list. The height is carried along with the
cells. The capacity follows the highest the stack ever was: a push on a full stack makes room for half as many cells
again, and nothing gives room back.
-/
import WasmCore.Cell
import WasmCore.Trap

namespace WasmCore

structure OperandStack where
  /-- the cells, the top one first -/
  cells : List Cell
  /-- how many there are -/
  height : Nat
  /-- how many there is room for -/
  capacity : Nat
  height_eq : height = cells.length

namespace OperandStack

/-- room that a machine starts with unless told otherwise -/
def defaultCapacity : Nat := 1024

/-- the largest count of cells that can be asked for -/
def maxCount : Nat := UInt64.size - 1

def empty (capacity : Nat) : OperandStack :=
  ⟨[], 0, max capacity 1, rfl⟩

/-- room after one more push -/
def grownCapacity (height capacity : Nat) : Nat :=
  if height = capacity then capacity + max (capacity / 2) 1 else capacity

def push (s : OperandStack) (c : Cell) : OperandStack where
  cells := c :: s.cells
  height := s.height + 1
  capacity := grownCapacity s.height s.capacity
  height_eq := by simp [s.height_eq]

/-- pushes the cells one after another -/
def pushAll (s : OperandStack) (cs : List Cell) : OperandStack :=
  cs.foldl push s

/-- keeps the lowest `n` cells -/
def truncate (s : OperandStack) (n : Nat) : OperandStack where
  cells := s.cells.drop (s.height - n)
  height := min s.height n
  capacity := s.capacity
  height_eq := by simp [s.height_eq]; omega

/-- the cells replaced by others -/
def withCells (s : OperandStack) (cs : List Cell) : OperandStack :=
  ⟨cs, cs.length, s.capacity, rfl⟩

/-! ## Operations that fail on too few cells -/

def pop (s : OperandStack) : Except Trap (Cell × OperandStack) :=
  match h : s.cells with
  | [] => .error (.stackUnderflow 1 0)
  | c :: rest => .ok (c, ⟨rest, s.height - 1, s.capacity, by simp [s.height_eq, h]⟩)

/-- the top cell, left where it is -/
def peek (s : OperandStack) : Except Trap Cell :=
  match s.cells with
  | [] => .error (.stackUnderflow 1 0)
  | c :: _ => .ok c

/-- fails unless there are `n` cells -/
def require (s : OperandStack) (n : Nat) : Except Trap Unit :=
  if s.height < n then .error (.stackUnderflow n s.height) else .ok ()

/-- the top `n` cells, the lowest first -/
def top (s : OperandStack) (n : Nat) : Except Trap (List Cell) :=
  (s.require n).map fun _ => (s.cells.take n).reverse

/-- takes the top `n` cells off, the lowest first -/
def popMany (s : OperandStack) (n : Nat) : Except Trap (List Cell × OperandStack) :=
  (s.top n).map fun cs => (cs, s.truncate (s.height - n))

/-- fails unless there are `a + b` cells; a sum that is no count of cells is named as the largest count -/
def requireSum (s : OperandStack) (a b : Nat) : Except Trap Unit :=
  if s.height < a + b then .error (.stackUnderflow (min (a + b) maxCount) s.height) else .ok ()

/-- the `count` cells from the height `source` on, copied to the height `dest` over what is there -/
def copyWithin (s : OperandStack) (source dest count : Nat) : OperandStack :=
  let block := (s.cells.drop (s.height - (source + count))).take count
  s.withCells (s.cells.take (s.height - (dest + count)) ++ block ++ s.cells.drop (s.height - dest))

/-- removes `drop` cells from under the top `keep` cells -/
def dropKeep (s : OperandStack) (drop keep : Nat) : Except Trap OperandStack :=
  if drop = 0 then .ok s
  else
    (s.requireSum drop keep).map fun _ =>
      let keptFrom := s.height - keep
      let dest := s.height - (drop + keep)
      (s.copyWithin keptFrom dest keep).truncate (dest + keep)

/-- the height goes with the cells -/
theorem eq_of_cells {s t : OperandStack} (hcells : s.cells = t.cells) (hcapacity : s.capacity = t.capacity) : s = t := by
  obtain ⟨cells, height, capacity, hheight⟩ := s
  obtain ⟨cells', height', capacity', hheight'⟩ := t
  subst hheight hheight' hcells hcapacity
  rfl

/-- Copying the kept cells down and cutting off what is above them takes the dropped ones out of the list. -/
theorem dropKeep_eq (s : OperandStack) (drop keep : Nat) :
    s.dropKeep drop keep =
      if drop = 0 then .ok s
      else if s.height < drop + keep then .error (.stackUnderflow (min (drop + keep) maxCount) s.height)
      else .ok (s.withCells (s.cells.take keep ++ s.cells.drop (keep + drop))) := by
  unfold dropKeep requireSum
  by_cases hfew : s.height < drop + keep
  · rw [if_pos hfew, if_pos hfew]
    rfl
  · rw [if_neg hfew, if_neg hfew]
    have hheight := s.height_eq
    -- where the block lies, counted from the top
    have hblock : s.height - (s.height - keep + keep) = 0 := by omega
    have habove : s.height - (s.height - (drop + keep) + keep) = drop := by omega
    have hunder : s.height - (s.height - (drop + keep)) = drop + keep := by omega
    have htop : (s.cells.take drop).length = drop := by
      rw [List.length_take]
      omega
    have hcut : (s.cells.take drop ++ s.cells.take keep ++ s.cells.drop (drop + keep)).length -
        (s.height - (drop + keep) + keep) = drop := by
      simp only [List.length_append, List.length_take, List.length_drop]
      omega
    have hdropped : (s.copyWithin (s.height - keep) (s.height - (drop + keep)) keep).truncate
        (s.height - (drop + keep) + keep) = s.withCells (s.cells.take keep ++ s.cells.drop (keep + drop)) := by
      refine eq_of_cells ?_ rfl
      simp only [copyWithin, truncate, withCells, hblock, habove, hunder, hcut, List.drop_zero]
      rw [List.append_assoc, List.drop_left' htop, Nat.add_comm drop]
    rw [← hdropped]
    rfl

/-- cuts the stack down to a height, under its top `keep` cells -/
def unwind (s : OperandStack) (height keep : Nat) : Except Trap OperandStack :=
  if s.height < height + keep then .error (.stackUnderflow (height + keep) s.height)
  else s.dropKeep (s.height - (height + keep)) keep

end OperandStack

end WasmCore
