/-
Cells of a type.

The machine's cells are untyped, yet a well-typed run keeps more than their number: a cell that validation calls an
`i32` or `f32` holds a number of 32 bits and nothing above it (`Cell.Holds`). Every operator, load and host function leaves
such cells, whatever it was given; a variable does if it was so to begin with, since what is written to it is cut. How code is
typed does not depend on this: `Cells` counts, and says what the cells hold only where it is asked to be `sharp`.
-/
import Mathlib.Algebra.Group.Nat.Defs
import Mathlib.Data.List.Forall2
import WasmCore.Proofs.StackCells
import WasmCore.Proofs.Typing.Rules

namespace WasmCore

/-! ## Cells -/

/-- the cell is a number of the type: reading it as a value and writing that value gives it back -/
def Cell.Holds (t : ValType) (c : Cell) : Prop :=
  (Val.ofCell t c).toCell = c

namespace Cell

theorem holds_of {t : ValType} (b : BitVec t.width.bits) : Holds t (Cell.of b) := by
  show Cell.of ((Cell.of b).low t.width) = Cell.of b
  rw [low_of]

/-- a cell that was cut to the type -/
theorem holds_mask (t : ValType) (c : Cell) : Holds t (c.mask t.width) := by
  rw [mask_eq]
  exact holds_of _

theorem holds_toCell (v : Val) : Holds v.type v.toCell := by
  rw [Holds, Val.ofCell_toCell]

/-- any cell is a number of 64 bits -/
theorem holds_of_wide {t : ValType} (h : t.width = .w64) (c : Cell) : Holds t c := by
  show Cell.of (c.low t.width) = c
  rw [h]
  exact (BitVec.setWidth_setWidth_of_le c (by decide)).trans (BitVec.setWidth_eq c)

/-- only the width of the type matters -/
theorem Holds.cast {t u : ValType} {c : Cell} (h : Holds t c) (hw : t.width = u.width) : Holds u c := by
  have h : Cell.of (c.low t.width) = c := h
  show Cell.of (c.low u.width) = c
  rw [← hw, h]

theorem holds_i32_iff {c : Cell} : Holds .i32 c ↔ c.toNat < 2 ^ 32 := by
  have hv : (Val.ofCell .i32 c).toCell.toNat = c.toNat % 2 ^ 32 := by
    show ((c.setWidth 32).setWidth 64).toNat = _
    rw [BitVec.toNat_setWidth, BitVec.toNat_setWidth]
    omega
  rw [Holds, ← BitVec.toNat_inj, hv]
  omega

theorem holds_ofBool (b : Bool) : Holds .i32 (ofBool b) := by
  rw [holds_i32_iff]
  cases b <;> decide

/-- a number below `2 ^ k` is one of every type that has `k` bits -/
theorem holds_of_lt {t : ValType} {k : Nat} {c : Cell} (hk : k ≤ t.width.bits) (hc : c.toNat < 2 ^ k) :
    Holds t c := by
  cases hw : t.width with
  | w64 => exact holds_of_wide hw c
  | w32 =>
    rw [hw] at hk
    have : c.toNat < 2 ^ 32 := Nat.lt_of_lt_of_le hc (Nat.pow_le_pow_right (by decide) hk)
    exact (holds_i32_iff.2 this).cast hw.symm

end Cell

/-- there is a cell for each of the types, and if this is `sharp`, a number of the type -/
abbrev Cells (cs : List Cell) (ts : List ValType) (sharp : Prop := False) : Prop :=
  List.Forall₂ (fun c t => sharp → Cell.Holds t c) cs ts

/-! ## Operators -/

/-- an operator with one operand, given a number of its type, leaves one of the type of its result -/
theorem UnaryOp.holds_eval (op : UnaryOp) {c : Cell} (h : c.Holds op.operand) : (op.eval c).Holds op.result := by
  cases op with
  | eqz w => exact Cell.holds_ofBool _
  | int w op => exact Cell.holds_of (t := .int w) _
  | float w op => exact Cell.holds_of (t := .float w) _
  | extend32 => exact Cell.holds_of_wide rfl _
  | wrap => exact Cell.holds_of (t := .i32) _
  | extend s => exact Cell.holds_of_wide rfl _
  | trunc target source s => exact Cell.holds_of (t := .int target) _
  | truncSat target source s => exact Cell.holds_of (t := .int target) _
  | convert target source s => exact Cell.holds_of (t := .float target) _
  | demote => exact Cell.holds_of (t := .f32) _
  | promote => exact Cell.holds_of (t := .f64) _
  | reinterpretFloat w => exact h.cast rfl
  | reinterpretInt w => exact h.cast rfl

theorem IntBinOp.error_eval {n : Nat} {op : IntBinOp} {a b : BitVec n} {t : Trap} (h : op.eval a b = .error t) :
    t = .divisionByZero ∨ t = .integerOverflow := by
  cases op with
  | div s =>
    simp only [eval, divide] at h
    split at h
    · cases h; exact .inl rfl
    · cases s with
      | signed =>
        simp only at h
        split at h
        · cases h; exact .inr rfl
        · cases h
      | unsigned => cases h
  | rem s =>
    simp only [eval, remainder] at h
    split at h
    · cases h; exact .inl rfl
    · cases s <;> cases h
  | shr s => cases s <;> cases h
  | _ => cases h

/-- an operator with two operands leaves a number of its type, or it is a division that has no quotient -/
theorem BinaryOp.holds_eval (op : BinaryOp) (a b : Cell) :
    match op.eval a b with
    | .ok c => c.Holds op.result
    | .error t => t = .divisionByZero ∨ t = .integerOverflow := by
  cases op with
  | intRel w op => exact Cell.holds_ofBool _
  | floatRel w op => exact Cell.holds_ofBool _
  | float w op => exact Cell.holds_of (t := .float w) _
  | int w op =>
    simp only [eval]
    cases h : op.eval (a.low w) (b.low w) with
    | ok c => exact Cell.holds_of (t := .int w) _
    | error t => exact IntBinOp.error_eval h

/-! ## Memory -/

theorem littleEndian_lt (bytes : List UInt8) : littleEndian bytes < 2 ^ (8 * bytes.length) := by
  induction bytes with
  | nil => decide
  | cons b bytes ih =>
    have hb := b.toNat_lt
    have hp : 2 ^ (8 * (b :: bytes).length) = 256 * 2 ^ (8 * bytes.length) := by
      rw [List.length_cons, Nat.mul_add, Nat.pow_add]; omega
    have hs : littleEndian (b :: bytes) = b.toNat + 256 * littleEndian bytes := rfl
    omega

theorem Memory.read_lt {m : Memory} {address length n : Nat} (h : m.read address length = .ok n) :
    n < 2 ^ (8 * length) := by
  simp only [read, load, check] at h
  split at h
  · cases h
    have hlen : (m.slice address length).length = length := by simp [slice]
    have := littleEndian_lt (m.slice address length)
    rwa [hlen] at this
  · cases h

theorem Memory.error_read {m : Memory} {address length : Nat} {t : Trap} (h : m.read address length = .error t) :
    t = .memoryOutOfBounds address length m.size := by
  simp only [read, load, check] at h
  split at h
  · cases h
  · cases h; rfl

/-- a load leaves a number of its type, if what it read is no longer than it says -/
theorem LoadOp.holds_extend (op : LoadOp) {n : Nat} (h : n < 2 ^ (8 * op.bytes)) :
    (op.extend (BitVec.ofNat 64 n)).Holds op.result := by
  have hc : (BitVec.ofNat 64 n).toNat < 2 ^ (8 * op.bytes) := by
    rw [BitVec.toNat_ofNat]; exact Nat.lt_of_le_of_lt (Nat.mod_le _ _) h
  cases op with
  | full t => exact Cell.holds_of_lt (Nat.le_of_eq t.width.bits_eq.symm) hc
  | load8 w s =>
    cases s with
    | signed => exact Cell.holds_of (t := .int w) _
    | unsigned => exact Cell.holds_of_lt (by cases w <;> decide) hc
  | load16 w s =>
    cases s with
    | signed => exact Cell.holds_of (t := .int w) _
    | unsigned => exact Cell.holds_of_lt (by cases w <;> decide) hc
  | load32 s => exact Cell.holds_of_wide rfl _

/-! ## Values -/

theorem Cells.map_toCell {sharp : Prop} (vs : List Val) : Cells (vs.map Val.toCell) (vs.map Val.type) sharp := by
  induction vs with
  | nil => exact .nil
  | cons v vs ih => exact .cons (fun _ => Cell.holds_toCell v) ih

/-- where nothing is asked of the cells, they are counted -/
theorem cells_iff_length {cs : List Cell} {ts : List ValType} : Cells cs ts ↔ cs.length = ts.length := by
  constructor
  · exact List.Forall₂.length_eq
  · intro h
    exact List.forall₂_iff_zip.2 ⟨h, fun _ => False.elim⟩

end WasmCore
