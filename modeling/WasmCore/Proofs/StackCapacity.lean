/-
The capacity of the operand stack.

A push that finds the stack full makes room for half as many cells again, and nothing gives room back. A stack that was
asked to have room for `asked` cells thus goes through the capacities `rooms asked 0`, `rooms asked 1`, …, and the one it
has come to tells how high it has been: it is the least of them that has room for the greatest height so far
(`capacity_highest`). One change of the stack is followed with a bound on that height (`Fits.after`), any number of them by
induction (`Fits.afterAll`).

Room is reserved for so many cells more than there are (`reserved`), not for so many more than there was room for. The
two are the same here because it is only a full stack that grows.
-/
import Mathlib.Order.Bounds.Basic
import Mathlib.Order.Monotone.Basic
import WasmCore.OperandStack
import WasmCore.Value

namespace WasmCore.OperandStack

/-! ## Capacities -/

/-- the capacities of a stack that is asked for room, one after another -/
def rooms (asked : Nat) : Nat → Nat
  | 0 => max asked 1
  | k + 1 => rooms asked k + max (rooms asked k / 2) 1

/-- the room for `length` cells after room for `extra` more has been reserved, and not more than that -/
def reserved (length room extra : Nat) : Nat :=
  max room (length + extra)

theorem rooms_lt_succ (asked k : Nat) : rooms asked k < rooms asked (k + 1) :=
  Nat.lt_add_of_pos_right (Nat.lt_of_lt_of_le Nat.one_pos (Nat.le_max_right _ 1))

theorem rooms_strictMono (asked : Nat) : StrictMono (rooms asked) :=
  strictMono_nat_of_lt_succ (rooms_lt_succ asked)

theorem reserved_full (room extra : Nat) : reserved room room extra = room + extra :=
  Nat.max_eq_right (Nat.le_add_right room extra)

/-- a full stack reserves room before a push, and no other does -/
theorem capacity_push (s : OperandStack) (c : Cell) : (s.push c).capacity =
    if s.height = s.capacity then reserved s.height s.capacity (max (s.capacity / 2) 1) else s.capacity := by
  by_cases hfull : s.height = s.capacity
  · rw [if_pos hfull, hfull, reserved_full]
    exact if_pos hfull
  · rw [if_neg hfull]
    exact if_neg hfull

/-! ## Changes -/

/-- what can be done to a stack; a typed value is pushed as its cell -/
inductive Change where
  | push (c : Cell)
  | pushVal (v : Val)
  | pushBool (b : Bool)
  | pop
  | truncate (n : Nat)
  | dropKeep (drop keep : Nat)

def change (s : OperandStack) : Change → Except Trap OperandStack
  | .push c => .ok (s.push c)
  | .pushVal v => .ok (s.push v.toCell)
  | .pushBool b => .ok (s.push (.ofBool b))
  | .pop => s.pop.map Prod.snd
  | .truncate n => .ok (s.truncate n)
  | .dropKeep drop keep => s.dropKeep drop keep

/-- the stack after a change; one that fails leaves it as it was -/
def after (s : OperandStack) (x : Change) : OperandStack :=
  match s.change x with
  | .ok t => t
  | .error _ => s

def afterAll (s : OperandStack) (changes : List Change) : OperandStack :=
  changes.foldl after s

/-- the greatest height of the stack, from before the first change to after the last -/
def highest (s : OperandStack) : List Change → Nat
  | [] => s.height
  | x :: changes => max s.height ((s.after x).highest changes)

/-- a change pushes one cell, or it leaves no more cells and the same room -/
theorem after_cases (s : OperandStack) (x : Change) :
    (∃ c, s.after x = s.push c) ∨ ((s.after x).height ≤ s.height ∧ (s.after x).capacity = s.capacity) := by
  cases x with
  | push c => exact .inl ⟨c, rfl⟩
  | pushVal v => exact .inl ⟨v.toCell, rfl⟩
  | pushBool b => exact .inl ⟨.ofBool b, rfl⟩
  | pop =>
    right
    obtain ⟨cells, height, capacity, hheight⟩ := s
    cases cells with
    | nil => exact ⟨Nat.le_refl _, rfl⟩
    | cons c rest => exact ⟨Nat.sub_le _ _, rfl⟩
  | truncate n => exact .inr ⟨Nat.min_le_left _ _, rfl⟩
  | dropKeep drop keep =>
    right
    simp only [after, change, dropKeep_eq]
    by_cases hdrop : drop = 0
    · rw [if_pos hdrop]
      exact ⟨Nat.le_refl _, rfl⟩
    · rw [if_neg hdrop]
      by_cases hfew : s.height < drop + keep
      · rw [if_pos hfew]
        exact ⟨Nat.le_refl _, rfl⟩
      · rw [if_neg hfew]
        refine ⟨?_, rfl⟩
        have hheight := s.height_eq
        simp only [withCells, List.length_append, List.length_take, List.length_drop]
        omega

theorem capacity_le_after (s : OperandStack) (x : Change) : s.capacity ≤ (s.after x).capacity := by
  obtain ⟨c, hpush⟩ | ⟨-, hcapacity⟩ := s.after_cases x
  · rw [hpush, capacity_push]
    split
    · exact Nat.le_max_left _ _
    · exact Nat.le_refl _
  · exact Nat.le_of_eq hcapacity.symm

/-- the greatest height is that after some of the first changes -/
theorem isGreatest_highest (s : OperandStack) (changes : List Change) :
    IsGreatest {n | ∃ done, done <+: changes ∧ (s.afterAll done).height = n} (s.highest changes) := by
  induction changes generalizing s with
  | nil =>
    refine ⟨⟨[], List.prefix_rfl, rfl⟩, ?_⟩
    rintro n ⟨done, hdone, rfl⟩
    rw [List.prefix_nil.1 hdone]
    exact Nat.le_refl _
  | cons x changes ih =>
    obtain ⟨⟨done, hdone, hheight⟩, hbound⟩ := ih (s.after x)
    constructor
    · rcases Nat.le_total s.height ((s.after x).highest changes) with hle | hle
      · exact ⟨x :: done, (List.prefix_cons_inj x).2 hdone, hheight.trans (Nat.max_eq_right hle).symm⟩
      · exact ⟨[], List.nil_prefix, (Nat.max_eq_left hle).symm⟩
    · rintro n ⟨done, hdone, rfl⟩
      rcases List.prefix_cons_iff.1 hdone with rfl | ⟨first, rfl, hfirst⟩
      · exact Nat.le_max_left _ _
      · exact Nat.le_trans (hbound ⟨first, hfirst, rfl⟩) (Nat.le_max_right _ _)

/-! ## Room for the greatest height -/

/-- the stack has never been higher than `top`, and has just the room for that -/
structure Fits (asked top : Nat) (s : OperandStack) : Prop where
  height_le : s.height ≤ top
  least : IsLeast {room | room ∈ Set.range (rooms asked) ∧ top ≤ room} s.capacity

variable {asked top : Nat} {s : OperandStack}

theorem Fits.height_le_capacity (h : Fits asked top s) : s.height ≤ s.capacity :=
  Nat.le_trans h.height_le h.least.1.2

theorem fits_empty (asked : Nat) : Fits asked 0 (empty asked) where
  height_le := Nat.le_refl 0
  least := by
    refine ⟨⟨⟨0, rfl⟩, Nat.zero_le _⟩, ?_⟩
    rintro room ⟨⟨k, rfl⟩, -⟩
    exact (rooms_strictMono asked).monotone (Nat.zero_le k)

/-- A full stack is as high as it has ever been, so one cell more takes the next capacity. -/
theorem Fits.push (h : Fits asked top s) (c : Cell) : Fits asked (max top (s.height + 1)) (s.push c) := by
  refine ⟨Nat.le_max_right _ _, ?_⟩
  have hle := h.height_le_capacity
  obtain ⟨⟨⟨k, hk⟩, htop⟩, hleast⟩ := h.least
  rw [capacity_push]
  by_cases hfull : s.height = s.capacity
  · have hnext : reserved s.height s.capacity (max (s.capacity / 2) 1) = rooms asked (k + 1) := by
      rw [hfull, reserved_full, rooms, hk]
    have hhighest : max top (s.height + 1) = rooms asked k + 1 := by omega
    rw [if_pos hfull, hnext, hhighest]
    refine ⟨⟨⟨k + 1, rfl⟩, rooms_lt_succ asked k⟩, ?_⟩
    rintro room ⟨⟨j, rfl⟩, hj⟩
    have hlt : k < j := (rooms_strictMono asked).lt_iff_lt.1 hj
    exact (rooms_strictMono asked).monotone hlt
  · rw [if_neg hfull]
    refine ⟨⟨⟨k, hk⟩, by omega⟩, ?_⟩
    rintro room ⟨hroom, hmax⟩
    exact hleast ⟨hroom, Nat.le_trans (Nat.le_max_left _ _) hmax⟩

/-- **One change** leaves the stack with just the room for its greatest height -/
theorem Fits.after (h : Fits asked top s) (x : Change) : Fits asked (max top (s.after x).height) (s.after x) := by
  obtain ⟨c, hpush⟩ | ⟨hheight, hcapacity⟩ := s.after_cases x
  · rw [hpush]
    exact h.push c
  · rw [Nat.max_eq_left (Nat.le_trans hheight h.height_le)]
    exact ⟨Nat.le_trans hheight h.height_le, hcapacity ▸ h.least⟩

/-- **Any changes** do -/
theorem Fits.afterAll (h : Fits asked top s) (changes : List Change) :
    Fits asked (max top (s.highest changes)) (s.afterAll changes) := by
  induction changes generalizing s top with
  | nil =>
    rw [highest, Nat.max_eq_left h.height_le]
    exact h
  | cons x changes ih =>
    have hrest := ih (h.after x)
    have hfirst : (s.after x).height ≤ (s.after x).highest changes :=
      (isGreatest_highest _ changes).2 ⟨[], List.nil_prefix, rfl⟩
    have htop : max (max top (s.after x).height) ((s.after x).highest changes) = max top (s.highest (x :: changes)) := by
      have hheight := h.height_le
      rw [highest]
      omega
    rwa [htop] at hrest

/-- **The capacity depends on the greatest height and on nothing else.** After any pushes, pops and cuts, whether they
succeed or fail, it is the least of the capacities that start with what was asked for and grow by half, or by one, that
has room for the greatest height the stack ever had. So the cells always find room, no change takes room away, and other
changes that come up to the same height lead to the same capacity. -/
theorem capacity_highest (asked : Nat) (changes : List Change) :
    let s := (empty asked).afterAll changes
    let top := (empty asked).highest changes
    IsGreatest {n | ∃ done, done <+: changes ∧ ((empty asked).afterAll done).height = n} top ∧
    IsLeast {room | room ∈ Set.range (rooms asked) ∧ top ≤ room} s.capacity ∧
    s.height ≤ s.capacity ∧
    (∀ x, s.capacity ≤ (s.after x).capacity) ∧
    ∀ others, (empty asked).highest others = top → ((empty asked).afterAll others).capacity = s.capacity := by
  intro s top
  have fits (changes : List Change) :
      Fits asked ((empty asked).highest changes) ((empty asked).afterAll changes) := by
    have h := (fits_empty asked).afterAll changes
    rwa [Nat.zero_max] at h
  refine ⟨isGreatest_highest _ changes, (fits changes).least, (fits changes).height_le_capacity, s.capacity_le_after, ?_⟩
  intro others htop
  have hothers := (fits others).least
  rw [htop] at hothers
  exact hothers.unique (fits changes).least

/-- Two cells asked for, seven pushed, and all taken off again: the capacity has gone by 2, 3, 4 and 6 to 9. -/
example : (((empty 2).afterAll (List.replicate 7 (.push 0) ++ [.truncate 1, .pop, .pop])).capacity,
    (empty 2).highest (List.replicate 7 (.push 0) ++ [.truncate 1, .pop, .pop])) = (9, 7) := by
  decide

end WasmCore.OperandStack
