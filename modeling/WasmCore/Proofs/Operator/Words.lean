/-
Words and the integers they are read as.

The bits of a word are one integer if they are read with a sign and another one if they are not. The two differ by a multiple
of two to the width (`read_modEq`), every integer of the range of a reading is read from a word (`read_ofInt`), and no two words
are read alike (`read_injective`).
-/
import Mathlib.Data.Int.ModEq
import WasmCore.Operator.Eval
import WasmCore.Proofs.Format.Number

namespace WasmCore.Signedness

variable {w : Width} {n : Nat} {k : Int}

/-! ## Ranges -/

theorem lowest_le_highest (s : Signedness) (w : Width) : s.lowest w ≤ s.highest w := by
  cases s <;> cases w <;> decide

theorem inRange_read (s : Signedness) (b : BitVec w.bits) : s.inRange w (s.read b) = true := by
  cases s with
  | signed => exact inRange_toInt b
  | unsigned =>
    have hlt := b.isLt
    rw [inRange_iff, read, lowest, highest]
    generalize b.toNat = k at hlt
    cases w <;> simp only [Width.highBit, Width.bits] at hlt ⊢ <;> omega

theorem inRange_wider {s : Signedness} (h : s.inRange .w32 k = true) : s.inRange .w64 k = true := by
  rw [inRange_iff] at h ⊢
  cases s <;> simp only [lowest, highest, Width.highBit] at h ⊢ <;> omega

/-- an integer of the range is what its own word is read as -/
theorem read_ofInt {s : Signedness} (h : s.inRange w k = true) : s.read (BitVec.ofInt w.bits k) = k := by
  cases s with
  | signed => exact Reader.toInt_ofInt_of_inRange h
  | unsigned =>
    have hr := inRange_iff.1 h
    rw [read, BitVec.toNat_ofInt]
    cases w <;> simp only [lowest, highest, Width.highBit, Width.bits] at hr ⊢ <;> omega

/-! ## Residues -/

theorem bmod_modEq (k : Int) (n : Nat) : k.bmod (2 ^ n) ≡ k [ZMOD 2 ^ n] := by
  have h : k.bmod (2 ^ n) % (2 ^ n : Nat) = k % (2 ^ n : Nat) := Int.bmod_emod
  exact_mod_cast h

/-- both readings have the residue that the bits are -/
theorem read_modEq (s : Signedness) (b : BitVec n) : s.read b ≡ b.toNat [ZMOD 2 ^ n] := by
  cases s with
  | unsigned => exact Int.ModEq.refl _
  | signed =>
    rw [read, BitVec.toInt_eq_toNat_bmod]
    exact bmod_modEq _ _

theorem toInt_modEq_read (s : Signedness) (b : BitVec n) : b.toInt ≡ s.read b [ZMOD 2 ^ n] :=
  (signed.read_modEq b).trans (s.read_modEq b).symm

theorem eq_of_modEq {a b : BitVec n} {s : Signedness} (h : s.read a ≡ s.read b [ZMOD 2 ^ n]) : a = b := by
  have hres : (a.toNat : Int) ≡ b.toNat [ZMOD 2 ^ n] := (s.read_modEq a).symm.trans (h.trans (s.read_modEq b))
  apply BitVec.eq_of_toNat_eq
  have hmod : a.toNat ≡ b.toNat [MOD 2 ^ n] := by
    rw [← Int.natCast_modEq_iff]
    exact_mod_cast hres
  exact hmod.eq_of_lt_of_lt a.isLt b.isLt

theorem read_injective (s : Signedness) {a b : BitVec n} (h : s.read a = s.read b) : a = b :=
  eq_of_modEq (s := s) (h ▸ Int.ModEq.refl _)

/-- a word that is an integer cut down to the width has its residue in either reading -/
theorem read_modEq_of_bmod (s : Signedness) {b : BitVec n} (h : b.toInt = k.bmod (2 ^ n)) : s.read b ≡ k [ZMOD 2 ^ n] := by
  calc s.read b ≡ b.toInt [ZMOD 2 ^ n] := (s.toInt_modEq_read b).symm
    _ = k.bmod (2 ^ n) := h
    _ ≡ k [ZMOD 2 ^ n] := bmod_modEq k n

end WasmCore.Signedness
