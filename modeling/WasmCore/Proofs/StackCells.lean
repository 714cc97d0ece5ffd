/-
The operand stack seen as its cells.

Every operation on a stack is described by what it does to the list of cells, the top one first. Taking cells off or
cutting the stack down speaks of a stack whose cells are known to be `top ++ rest`, so that a proof about a run never
counts heights.
-/
import WasmCore.Machine.State

namespace WasmCore.OperandStack

variable {s : OperandStack}

@[simp] theorem cells_push (s : OperandStack) (c : Cell) : (s.push c).cells = c :: s.cells := rfl

@[simp] theorem cells_withCells (s : OperandStack) (cs : List Cell) : (s.withCells cs).cells = cs := rfl

theorem cells_pushAll (s : OperandStack) (cs : List Cell) : (s.pushAll cs).cells = cs.reverse ++ s.cells := by
  induction cs generalizing s with
  | nil => rfl
  | cons c cs ih =>
    have h : s.pushAll (c :: cs) = (s.push c).pushAll cs := rfl
    simp [h, ih]

/-! ## Taking cells off -/

theorem pop_cons {c : Cell} {rest : List Cell} (h : s.cells = c :: rest) :
    ∃ t, s.pop = .ok (c, t) ∧ t.cells = rest := by
  unfold pop
  split
  · rename_i h'; rw [h] at h'; cases h'
  · rename_i h'; rw [h] at h'; cases h'; exact ⟨_, rfl, rfl⟩

theorem pop_nil (h : s.cells = []) : s.pop = .error (.stackUnderflow 1 0) := by
  unfold pop
  split
  · rfl
  · rename_i h'; rw [h] at h'; cases h'

theorem peek_cons {c : Cell} {rest : List Cell} (h : s.cells = c :: rest) : s.peek = .ok c := by
  simp [peek, h]

/-- cutting down to the height of the lower part leaves the lower part -/
theorem cells_truncate {top rest : List Cell} (h : s.cells = top ++ rest) :
    (s.truncate rest.length).cells = rest := by
  have hn : s.height - rest.length = top.length := by rw [s.height_eq, h, List.length_append]; omega
  simp [truncate, hn, h]

/-- what is left of the stack is as high as it was, or as high as it was cut down to -/
theorem height_truncate (s : OperandStack) (n : Nat) : (s.truncate n).height = min s.height n := rfl

theorem height_pushAll (s : OperandStack) (cs : List Cell) : (s.pushAll cs).height = s.height + cs.length := by
  rw [height_eq, cells_pushAll, List.length_append, List.length_reverse, s.height_eq, Nat.add_comm]

theorem popMany_eq {n : Nat} (h : n ≤ s.height) :
    s.popMany n = .ok ((s.cells.take n).reverse, s.truncate (s.height - n)) := by
  simp only [popMany, top, require, if_neg (Nat.not_lt.2 h)]
  rfl

theorem popMany_append {top rest : List Cell} (h : s.cells = top ++ rest) :
    ∃ t, s.popMany top.length = .ok (top.reverse, t) ∧ t.cells = rest := by
  have hlen : s.height = top.length + rest.length := by rw [s.height_eq, h, List.length_append]
  have hcut : s.height - top.length = rest.length := by omega
  refine ⟨s.truncate rest.length, ?_, cells_truncate h⟩
  simp only [popMany, OperandStack.top, require, hcut, h, List.take_left]
  rw [if_neg (by omega)]
  rfl

theorem popMany_of_le {n : Nat} (h : n ≤ s.height) : ∃ cs t, s.popMany n = .ok (cs, t) :=
  ⟨_, _, popMany_eq h⟩

/-- with too few cells none is taken off -/
theorem popMany_short {n : Nat} (h : s.height < n) : s.popMany n = .error (.stackUnderflow n s.height) := by
  simp only [popMany, top, require, if_pos h]
  rfl

/-! ## What taking cells off says of the stack -/

theorem pop_ok {t : OperandStack} {c : Cell} (h : s.pop = .ok (c, t)) : s.cells = c :: t.cells := by
  unfold pop at h
  split at h
  · cases h
  · rename_i hcells
    cases h
    exact hcells

theorem error_pop {e : Trap} (h : s.pop = .error e) : e = .stackUnderflow 1 0 := by
  unfold pop at h
  split at h
  · cases h
    rfl
  · cases h

theorem error_peek {e : Trap} (h : s.peek = .error e) : e = .stackUnderflow 1 0 := by
  unfold peek at h
  split at h
  · cases h
    rfl
  · cases h

theorem popMany_ok {t : OperandStack} {n : Nat} {cs : List Cell} (h : s.popMany n = .ok (cs, t)) :
    cs.length = n ∧ s.cells = cs.reverse ++ t.cells := by
  unfold popMany top require at h
  by_cases hlt : s.height < n
  · rw [if_pos hlt] at h
    cases h
  · rw [if_neg hlt] at h
    cases h
    have hlen := s.height_eq
    refine ⟨?_, ?_⟩
    · rw [List.length_reverse, List.length_take]
      omega
    · have hcut : s.height - (s.height - n) = n := by omega
      rw [List.reverse_reverse]
      show s.cells = s.cells.take n ++ s.cells.drop (s.height - (s.height - n))
      rw [hcut, List.take_append_drop]

theorem error_popMany {n : Nat} {e : Trap} (h : s.popMany n = .error e) : e = .stackUnderflow n s.height := by
  unfold popMany top require at h
  by_cases hlt : s.height < n
  · rw [if_pos hlt] at h
    cases h
    rfl
  · rw [if_neg hlt] at h
    cases h

/-! ## Cutting under the top cells -/

/-- `unwind` keeps the top cells and the lowest ones -/
theorem unwind_append (keep drop rest : List Cell) (h : s.cells = keep ++ (drop ++ rest)) :
    ∃ t, s.unwind rest.length keep.length = .ok t ∧ t.cells = keep ++ rest := by
  have hlen : s.height = keep.length + (drop.length + rest.length) := by
    rw [s.height_eq, h]; simp only [List.length_append]
  unfold unwind
  rw [if_neg (by omega), dropKeep_eq]
  split
  · rename_i h0
    have : drop = [] := List.length_eq_zero_iff.1 (by omega)
    exact ⟨s, rfl, by rw [h, this, List.nil_append]⟩
  · rw [if_neg (by omega)]
    refine ⟨_, rfl, ?_⟩
    have hd : keep.length + (s.height - (rest.length + keep.length)) = (keep ++ drop).length := by
      rw [List.length_append]; omega
    rw [cells_withCells, hd, h, List.take_left, ← List.append_assoc, List.drop_left]

/-- so the cells underneath stay, and of those above them as many as are kept -/
theorem unwind_over {top base : List Cell} {keep : Nat} (h : s.cells = top ++ base) (hk : keep ≤ top.length) :
    ∃ t, s.unwind base.length keep = .ok t ∧ t.cells = top.take keep ++ base := by
  have hlen : (top.take keep).length = keep := by rw [List.length_take, Nat.min_eq_left hk]
  have hsplit : s.cells = top.take keep ++ (top.drop keep ++ base) := by
    rw [← List.append_assoc, List.take_append_drop, h]
  obtain ⟨t, hu, ht⟩ := unwind_append _ _ _ hsplit
  rw [hlen] at hu
  exact ⟨t, hu, ht⟩

theorem unwind_short {height keep : Nat} (h : s.height < height + keep) :
    s.unwind height keep = .error (.stackUnderflow (height + keep) s.height) :=
  if_pos h

/-- `unwind` fails for want of cells only -/
theorem error_unwind {height keep : Nat} {t : Trap} (h : s.unwind height keep = .error t) :
    t = .stackUnderflow (height + keep) s.height ∧ s.height < height + keep := by
  unfold unwind at h
  by_cases hlt : s.height < height + keep
  · rw [if_pos hlt] at h
    cases h
    exact ⟨rfl, hlt⟩
  · rw [if_neg hlt, dropKeep_eq] at h
    split at h
    · cases h
    · rw [if_neg (by omega)] at h
      cases h

theorem unwind_of_le {height keep : Nat} (h : height + keep ≤ s.height) : ∃ t, s.unwind height keep = .ok t := by
  cases hu : s.unwind height keep with
  | ok t => exact ⟨t, rfl⟩
  | error e => exact absurd (error_unwind hu).2 (Nat.not_lt.2 h)

/-- the cells that `unwind` keeps and those that it cuts out -/
theorem unwind_ok {t : OperandStack} {height keep : Nat} (h : s.unwind height keep = .ok t) :
    ∃ top mid rest, top.length = keep ∧ rest.length = height ∧ s.cells = top ++ (mid ++ rest) ∧ t.cells = top ++ rest := by
  have hle : height + keep ≤ s.height := by
    refine Nat.le_of_not_lt fun hlt => ?_
    rw [unwind, if_pos hlt] at h
    cases h
  have hlen := s.height_eq
  have htop : (s.cells.take keep).length = keep := by
    rw [List.length_take]
    omega
  have hrest : ((s.cells.drop keep).drop (s.height - (height + keep))).length = height := by
    simp only [List.length_drop]
    omega
  have hcells : s.cells = s.cells.take keep ++ ((s.cells.drop keep).take (s.height - (height + keep)) ++
      (s.cells.drop keep).drop (s.height - (height + keep))) := by
    rw [List.take_append_drop, List.take_append_drop]
  obtain ⟨t', hu, ht⟩ := unwind_append _ _ _ hcells
  rw [hrest, htop, h] at hu
  cases hu
  exact ⟨_, _, _, htop, hrest, hcells, ht⟩

/-- what is left are the lowest cells and the kept ones -/
theorem height_unwind {t : OperandStack} {height keep : Nat} (h : s.unwind height keep = .ok t) :
    t.height = height + keep := by
  obtain ⟨top, mid, rest, htop, hrest, -, ht⟩ := unwind_ok h
  rw [t.height_eq, ht, List.length_append, htop, hrest, Nat.add_comm]

end WasmCore.OperandStack
