/-
Cells of the operand stack.

A cell is 64 untyped bits. A number of 32 bits lies in the low half; writing one clears the high half, and reading one
ignores it. The instruction that takes a cell decides how to read it.
-/
import WasmCore.Types

namespace WasmCore

abbrev Cell : Type := BitVec 64

namespace Cell

/-- the number of width `w` that the cell holds -/
def low (w : Width) (c : Cell) : BitVec w.bits :=
  c.setWidth w.bits

/-- the cell that holds a number and nothing beyond it -/
def of {w : Width} (b : BitVec w.bits) : Cell :=
  b.setWidth 64

/-- the cell cut to a number of width `w` -/
def mask (w : Width) (c : Cell) : Cell :=
  match w with
  | .w32 => c &&& 0xFFFFFFFF
  | .w64 => c

def ofBool (b : Bool) : Cell :=
  if b then 1 else 0

/-- an integer of 32 bits as a condition -/
def isTrue (c : Cell) : Bool :=
  c.low .w32 != 0

/-- an integer of 32 bits as an unsigned index -/
def index (c : Cell) : UInt32 :=
  UInt32.ofBitVec (c.low .w32)

/-- cutting a cell is writing the number that it holds -/
theorem mask_eq (w : Width) (c : Cell) : c.mask w = of (c.low w) := by
  cases w with
  | w32 =>
    apply BitVec.eq_of_toNat_eq
    have hlow : (of (c.low .w32)).toNat = c.toNat % 2 ^ 32 % 2 ^ 64 := by
      show ((c.setWidth 32).setWidth 64).toNat = _
      rw [BitVec.toNat_setWidth, BitVec.toNat_setWidth]
    rw [hlow]
    show (c &&& 0xFFFFFFFF).toNat = _
    rw [BitVec.toNat_and]
    exact (Nat.and_two_pow_sub_one_eq_mod c.toNat 32).trans (by omega)
  | w64 => exact ((BitVec.setWidth_setWidth_of_le c (by decide)).trans (BitVec.setWidth_eq c)).symm

theorem low_of {w : Width} (b : BitVec w.bits) : (of b).low w = b := by
  cases w <;> exact BitVec.setWidth_setWidth_of_le b (by decide)

end Cell

end WasmCore
