/-
Groups as numbers.

The readers of integers put groups together by their bits, into words. Here the same groups are read as whole numbers
without a bound (`Reader.readGroups`), and a number that is out of range is refused when all groups have been read
(`Reader.readLeb`). The two agree on all streams, with the same failures at the same places (`Reader.readU32_eq`,
`Reader.readInt_eq`): as long as a number is in range nothing is shifted out of the word, and the bits that the readers look
at in the last group tell whether it is.
-/
import Mathlib.Algebra.GroupWithZero.Nat
import Mathlib.Algebra.Ring.Int.Defs
import WasmCore.Binary.Number

namespace WasmCore

namespace Reader

/-! ## Reading without words -/

/-- the last group, by how it is read -/
def lastGroup : Signedness → UInt8 → Int
  | .unsigned, b => b.toNat
  | .signed, b => if b.toNat < 64 then b.toNat else (b.toNat : Int) - 128

/-- at most `more + 1` groups; without a last one among them the integer that starts at `offset` is malformed -/
def readGroups (s : Signedness) (offset : Nat) (more : Nat) : Reader Int := do
  let b ← readByte
  if b.toNat < 128 then return lastGroup s b
  else
    match more with
    | 0 => throw (.malformedLeb offset)
    | more + 1 => do
      let high ← readGroups s offset more
      return ((b.toNat : Int) - 128) + 128 * high

/-- an integer of the width -/
def readLeb (s : Signedness) (w : Width) : Reader Int := do
  let offset ← position
  let n ← readGroups s offset ((w.bits + 6) / 7 - 1)
  if s.inRange w n then return n else throw (.malformedLeb offset)

/-! ## Bytes -/

/-- what holds of all numbers below 256 holds of all bytes -/
theorem forall_byte {p : UInt8 → Prop} (h : ∀ n : Fin 256, p (.ofFin n)) (b : UInt8) : p b :=
  h b.toFin

theorem isLast_iff : ∀ b : UInt8, b &&& 0x80 = 0 ↔ b.toNat < 128 :=
  forall_byte (by decide +kernel)

theorem isLow_iff : ∀ b : UInt8, b &&& 0xF0 = 0 ↔ b.toNat < 16 :=
  forall_byte (by decide +kernel)

theorem isPositive_iff : ∀ b : UInt8, b &&& 0x40 = 0 ↔ b.toNat % 128 < 64 :=
  forall_byte (by decide +kernel)

/-- the bytes that say more than a sign -/
theorem not_sign_iff : ∀ b : UInt8, b ≠ 0x00 ∧ b ≠ 0x7F ↔
    ¬ (b.toNat < 128 ∧ -1 ≤ lastGroup .signed b ∧ lastGroup .signed b < 1) :=
  forall_byte (by decide +kernel)

theorem toNat_digits (b : UInt8) : (b &&& 0x7F).toNat = b.toNat % 128 := by
  rw [UInt8.toNat_and]
  exact Nat.and_two_pow_sub_one_eq_mod b.toNat 7

/-! ## Words -/

variable {n k : Nat}

/-- a group above the bits that are there is added to them -/
theorem or_shiftLeft {x : BitVec n} (h : x.toNat < 2 ^ k) (y : BitVec n) : x ||| y <<< k = x + y <<< k := by
  symm
  apply BitVec.add_eq_or_of_and_eq_zero
  apply BitVec.eq_of_getLsbD_eq
  intro i hi
  rw [BitVec.getLsbD_and, BitVec.getLsbD_shiftLeft]
  by_cases hik : i < k
  · simp [hik]
  · have hbit : x.getLsbD i = false := by
      apply Nat.testBit_lt_two_pow
      exact Nat.lt_of_lt_of_le h (Nat.pow_le_pow_right (by decide) (Nat.le_of_not_lt hik))
    simp [hbit]

theorem or_shiftLeft_lt {x y : BitVec n} {j : Nat} (h : x.toNat < 2 ^ k) (hy : y.toNat < 2 ^ j) :
    (x ||| y <<< k).toNat < 2 ^ (k + j) := by
  rw [BitVec.toNat_or]
  apply Nat.or_lt_two_pow
  · exact Nat.lt_of_lt_of_le h (Nat.pow_le_pow_right (by decide) (Nat.le_add_right k j))
  · rw [BitVec.toNat_shiftLeft, Nat.shiftLeft_eq]
    apply Nat.lt_of_le_of_lt (Nat.mod_le _ _)
    rw [Nat.add_comm k, Nat.pow_add]
    exact Nat.mul_lt_mul_of_pos_right hy (Nat.two_pow_pos k)

theorem ofBitVec_ofInt (i : Int) : UInt32.ofBitVec (BitVec.ofInt 32 i) = UInt32.ofInt i := by
  have hbits : (UInt32.ofBitVec (BitVec.ofInt 32 i)).toNat = (i % (2 ^ 32 : Nat)).toNat := BitVec.toNat_ofInt i
  apply UInt32.toNat_inj.1
  rw [hbits, UInt32.ofInt, UInt32.toNat_ofNat']
  omega

theorem setWidth_ofInt (w : Width) (i : Int) : (BitVec.ofInt 64 i).setWidth w.bits = BitVec.ofInt w.bits i := by
  apply BitVec.eq_of_toNat_eq
  rw [BitVec.toNat_setWidth, BitVec.toNat_ofInt, BitVec.toNat_ofInt]
  cases w <;> simp only [Width.bits] <;> omega

/-- nothing below the first group -/
theorem zero_add_ofInt (i : Int) : (0 : BitVec n) + BitVec.ofInt n i <<< (7 * 0) = BitVec.ofInt n i := by
  rw [Nat.mul_zero, BitVec.shiftLeft_zero]
  exact BitVec.zero_add _

/-- a whole number of groups, split into the lowest one and the others -/
theorem ofInt_groups (low : BitVec n) (digits high : Int) :
    low + BitVec.ofInt n (digits + 128 * high) <<< k =
      low + BitVec.ofInt n digits <<< k + BitVec.ofInt n high <<< (k + 7) := by
  have h128 : BitVec.ofInt n 128 = BitVec.twoPow n 7 := by
    apply BitVec.eq_of_toNat_eq
    simp [BitVec.toNat_twoPow]
  have hhigh : BitVec.ofInt n (128 * high) = BitVec.ofInt n high <<< 7 := by
    rw [BitVec.ofInt_mul, h128, BitVec.mul_comm, BitVec.mul_twoPow_eq_shiftLeft]
  rw [BitVec.ofInt_add, hhigh, BitVec.shiftLeft_add_distrib, ← BitVec.add_assoc, Nat.add_comm k, BitVec.shiftLeft_add]

/-- the digits of a byte as a word -/
theorem digits_eq (b : UInt8) : (b &&& 0x7F).toBitVec.setWidth n = BitVec.ofInt n (b.toNat % 128 : Nat) := by
  apply BitVec.eq_of_toNat_eq
  have hdigits : (b &&& 0x7F).toBitVec.toNat = b.toNat % 128 := toNat_digits b
  rw [BitVec.ofInt_natCast, BitVec.toNat_ofNat, BitVec.toNat_setWidth, hdigits]

theorem digits_lt (b : UInt8) : ((b &&& 0x7F).toBitVec.setWidth n).toNat < 2 ^ 7 := by
  have hdigits : (b &&& 0x7F).toBitVec.toNat = b.toNat % 128 := toNat_digits b
  rw [BitVec.toNat_setWidth, hdigits]
  exact Nat.lt_of_le_of_lt (Nat.mod_le _ _) (Nat.mod_lt _ (by decide))

/-! ## One group after another -/

/-- the places of `more + 1` groups, of which the lowest is number `i` -/
def shiftsFrom (i more : Nat) : List Nat :=
  (List.range' i (more + 1)).map (7 * ·)

theorem shiftsFrom_zero (i : Nat) : shiftsFrom i 0 = [7 * i] :=
  rfl

theorem shiftsFrom_succ (i more : Nat) : shiftsFrom i (more + 1) = 7 * i :: shiftsFrom (i + 1) more :=
  rfl

/-- the number that groups from the place `k` on say, above the bits that are there, if it is in range -/
def placed (offset k : Nat) (low : BitVec n) (lowest bound x : Int) : Reader (BitVec n) :=
  if lowest ≤ x ∧ x < bound then return low + BitVec.ofInt n x <<< k else throw (.malformedLeb offset)

theorem placed_of_mem {offset : Nat} {low : BitVec n} {lowest bound x : Int} (h : lowest ≤ x ∧ x < bound) :
    placed offset k low lowest bound x = pure (low + BitVec.ofInt n x <<< k) :=
  if_pos h

theorem placed_of_not_mem {offset : Nat} {low : BitVec n} {lowest bound x : Int} (h : ¬ (lowest ≤ x ∧ x < bound)) :
    placed offset k low lowest bound x = throw (.malformedLeb offset) :=
  if_neg h

/-- the lowest group taken out of the others -/
theorem placed_more {offset : Nat} {low : BitVec n} {lowest bound high : Int} {b : UInt8} (hb : ¬ b.toNat < 128) :
    placed offset k low (128 * lowest) (128 * bound) ((b.toNat : Int) - 128 + 128 * high) =
      placed offset (k + 7) (low + BitVec.ofInt n (b.toNat % 128 : Nat) <<< k) lowest bound high := by
  have hlt := b.toNat_lt
  have hdigits : (b.toNat : Int) - 128 = (b.toNat % 128 : Nat) := by omega
  have hrange : 128 * lowest ≤ (b.toNat % 128 : Nat) + 128 * high ∧ (b.toNat % 128 : Nat) + 128 * high < 128 * bound ↔
      lowest ≤ high ∧ high < bound := by omega
  unfold placed
  simp only [hdigits, hrange, ofInt_groups]

theorem readGroups_succ (s : Signedness) (offset more : Nat) {α : Type} (f : Int → Reader α) :
    readGroups s offset (more + 1) >>= f = readByte >>= fun b =>
      if b.toNat < 128 then f (lastGroup s b)
      else readGroups s offset more >>= fun high => f ((b.toNat : Int) - 128 + 128 * high) := by
  rw [readGroups, bind_assoc]
  congr 1
  funext b
  by_cases hb : b.toNat < 128
  · rw [if_pos hb, if_pos hb, pure_bind]
  · rw [if_neg hb, if_neg hb, bind_assoc]
    rfl

theorem readGroups_zero (s : Signedness) (offset : Nat) {α : Type} (f : Int → Reader α) :
    readGroups s offset 0 >>= f = readByte >>= fun b =>
      if b.toNat < 128 then f (lastGroup s b) else throw (.malformedLeb offset) := by
  rw [readGroups, bind_assoc]
  congr 1
  funext b
  by_cases hb : b.toNat < 128
  · rw [if_pos hb, if_pos hb, pure_bind]
  · rw [if_neg hb, if_neg hb]
    rfl

/-! ## Without a sign -/

theorem readUnsigned_eq (offset i more : Nat) (h : i + more = 4) (low : BitVec 32) (hlow : low.toNat < 2 ^ (7 * i)) :
    readUnsigned offset low (shiftsFrom i more) =
      readGroups .unsigned offset more >>= placed offset (7 * i) low 0 (2 ^ (32 - 7 * i)) := by
  induction more generalizing i low with
  | zero =>
    obtain rfl : i = 4 := h
    rw [shiftsFrom_zero, readUnsigned, readGroups_zero]
    congr 1
    funext b
    have hgroup : lastGroup .unsigned b = b.toNat := rfl
    by_cases hb : b.toNat < 16
    · have hhigh : b &&& 0xF0 = 0 := (isLow_iff b).2 hb
      have hlast : b &&& 0x80 = 0 := (isLast_iff b).2 (by omega)
      have hmod : b.toNat % 128 = b.toNat := Nat.mod_eq_of_lt (by omega)
      rw [if_neg (fun h0 => h0.2 hhigh), if_pos hlast, if_pos (by omega), hgroup, placed_of_mem (by omega),
        or_shiftLeft hlow, digits_eq, hmod]
    · have hhigh : b &&& 0xF0 ≠ 0 := fun h0 => hb ((isLow_iff b).1 h0)
      rw [if_pos ⟨rfl, hhigh⟩, hgroup, placed_of_not_mem (by omega)]
      split <;> rfl
  | succ more ih =>
    have hi : 7 * i ≠ 28 := by omega
    have hpow : (2 : Int) ^ (32 - 7 * i) = 128 * 2 ^ (32 - 7 * (i + 1)) := by
      have hsub : 32 - 7 * i = 32 - 7 * (i + 1) + 7 := by omega
      rw [hsub, Int.pow_add, Int.mul_comm]
      rfl
    rw [shiftsFrom_succ, readUnsigned, readGroups_succ]
    congr 1
    funext b
    have hdigits := or_shiftLeft hlow ((b &&& 0x7F).toBitVec.setWidth 32)
    rw [if_neg (fun h0 => hi h0.1)]
    by_cases hlast : b.toNat < 128
    · have hmod : b.toNat % 128 = b.toNat := Nat.mod_eq_of_lt hlast
      have hgroup : lastGroup .unsigned b = b.toNat := rfl
      have hpos : (0 : Int) < 2 ^ (32 - 7 * (i + 1)) := Int.pow_pos (by decide)
      rw [if_pos ((isLast_iff b).2 hlast), if_pos hlast, hgroup, placed_of_mem (by omega), hdigits, digits_eq, hmod]
    · have hnext : (low ||| (b &&& 0x7F).toBitVec.setWidth 32 <<< (7 * i)).toNat < 2 ^ (7 * (i + 1)) :=
        or_shiftLeft_lt hlow (digits_lt b)
      rw [if_neg (fun h0 => hlast ((isLast_iff b).1 h0)), if_neg hlast, ih (i + 1) (by omega) _ hnext]
      congr 1
      funext high
      rw [hpow, hdigits, digits_eq]
      exact (placed_more hlast).symm

theorem readU32_eq : readU32 = (do return UInt32.ofInt (← readLeb .unsigned .w32)) := by
  unfold readU32 readLeb
  rw [bind_assoc]
  congr 1
  funext offset
  have hshifts : groupShifts 32 = shiftsFrom 0 4 := rfl
  rw [hshifts, readUnsigned_eq offset 0 4 rfl 0 (by decide), bind_assoc, bind_assoc]
  congr 1
  funext n
  have hrange : Signedness.unsigned.inRange .w32 n = true ↔ 0 ≤ n ∧ n < 2 ^ 32 := by
    rw [Signedness.inRange_iff]
    simp only [Signedness.lowest, Signedness.highest, Width.highBit]
    omega
  by_cases hn : 0 ≤ n ∧ n < 2 ^ 32
  · rw [placed_of_mem hn, if_pos (hrange.2 hn), pure_bind, pure_bind, zero_add_ofInt, ofBitVec_ofInt]
  · rw [placed_of_not_mem hn, if_neg (fun h => hn (hrange.1 h))]
    rfl

/-! ## With a sign -/

/-- the last group, whose highest digit goes on above it -/
theorem signed_last {low : BitVec 64} {b : UInt8} (hlow : low.toNat < 2 ^ k) (hb : b.toNat < 128) :
    (if b &&& 0x40 = 0 then low ||| (b &&& 0x7F).toBitVec.setWidth 64 <<< k
      else low ||| (b &&& 0x7F).toBitVec.setWidth 64 <<< k ||| BitVec.allOnes 64 <<< (k + 7)) =
      low + BitVec.ofInt 64 (lastGroup .signed b) <<< k := by
  have hmod : b.toNat % 128 = b.toNat := Nat.mod_eq_of_lt hb
  have hdigits := or_shiftLeft hlow ((b &&& 0x7F).toBitVec.setWidth 64)
  by_cases hpos : b.toNat < 64
  · have hgroup : lastGroup .signed b = b.toNat := if_pos hpos
    rw [if_pos ((isPositive_iff b).2 (by omega)), hdigits, digits_eq, hmod, hgroup]
  · have hgroup : lastGroup .signed b = b.toNat + 128 * -1 := by
      simp only [lastGroup]
      rw [if_neg hpos]
      omega
    have hones : BitVec.allOnes 64 = BitVec.ofInt 64 (-1) := by decide
    have hneg : ¬ b &&& 0x40 = 0 := fun h => hpos (by rw [isPositive_iff, hmod] at h; exact h)
    rw [if_neg hneg, or_shiftLeft (or_shiftLeft_lt hlow (digits_lt b)), hdigits, digits_eq, hmod, hgroup, ofInt_groups,
      hones]

theorem lastGroup_signed_range {b : UInt8} (hb : b.toNat < 128) :
    -64 ≤ lastGroup .signed b ∧ lastGroup .signed b < 64 := by
  simp only [lastGroup]
  split <;> omega

/-- Below the tenth group there is room for all digits of a group and the sign. -/
theorem bound_succ {i : Nat} (hi : i < 9) : (2 : Int) ^ (63 - 7 * i) = 128 * 2 ^ (63 - 7 * (i + 1)) := by
  have hsub : 63 - 7 * i = 63 - 7 * (i + 1) + 7 := by omega
  rw [hsub, Int.pow_add, Int.mul_comm]
  rfl

theorem placed_last {offset i : Nat} {low : BitVec 64} {b : UInt8} (hi : i < 9) (hb : b.toNat < 128) :
    placed offset (7 * i) low (-2 ^ (63 - 7 * i)) (2 ^ (63 - 7 * i)) (lastGroup .signed b) =
      pure (low + BitVec.ofInt 64 (lastGroup .signed b) <<< (7 * i)) := by
  have hrange := lastGroup_signed_range hb
  have hpow := bound_succ hi
  have hpos : (0 : Int) < 2 ^ (63 - 7 * (i + 1)) := Int.pow_pos (by decide)
  exact placed_of_mem (by omega)

theorem readSigned_eq (offset i more : Nat) (h : i + more ≤ 9) (low : BitVec 64) (hlow : low.toNat < 2 ^ (7 * i)) :
    readSigned offset low (shiftsFrom i more) =
      readGroups .signed offset more >>= placed offset (7 * i) low (-2 ^ (63 - 7 * i)) (2 ^ (63 - 7 * i)) := by
  induction more generalizing i low with
  | zero =>
    rw [shiftsFrom_zero, readSigned, readGroups_zero]
    congr 1
    funext b
    by_cases hi : i = 9
    · subst hi
      -- one bit is left, and it is the sign
      have hbound : (2 : Int) ^ (63 - 7 * 9) = 1 := rfl
      rw [hbound]
      by_cases hbyte : b ≠ 0x00 ∧ b ≠ 0x7F
      · rw [if_pos ⟨rfl, hbyte⟩]
        by_cases hlast : b.toNat < 128
        · rw [if_pos hlast, placed_of_not_mem (fun hgroup => (not_sign_iff b).1 hbyte ⟨hlast, hgroup⟩)]
        · rw [if_neg hlast]
      · obtain ⟨hlast, hgroup⟩ := Decidable.not_not.1 (mt (not_sign_iff b).2 hbyte)
        rw [if_neg (fun h0 => hbyte h0.2), if_pos ((isLast_iff b).2 hlast), if_pos hlast, placed_of_mem hgroup,
          signed_last hlow hlast]
    · have hshift : 7 * i ≠ 63 := by omega
      rw [if_neg (fun h0 => hshift h0.1)]
      by_cases hlast : b.toNat < 128
      · rw [if_pos ((isLast_iff b).2 hlast), if_pos hlast, placed_last (by omega) hlast, signed_last hlow hlast]
      · rw [if_neg (fun h0 => hlast ((isLast_iff b).1 h0)), if_neg hlast]
        rfl
  | succ more ih =>
    have hi : i < 9 := by omega
    have hshift : 7 * i ≠ 63 := by omega
    rw [shiftsFrom_succ, readSigned, readGroups_succ]
    congr 1
    funext b
    rw [if_neg (fun h0 => hshift h0.1)]
    by_cases hlast : b.toNat < 128
    · rw [if_pos ((isLast_iff b).2 hlast), if_pos hlast, placed_last hi hlast, signed_last hlow hlast]
    · have hnext : (low ||| (b &&& 0x7F).toBitVec.setWidth 64 <<< (7 * i)).toNat < 2 ^ (7 * (i + 1)) :=
        or_shiftLeft_lt hlow (digits_lt b)
      rw [if_neg (fun h0 => hlast ((isLast_iff b).1 h0)), if_neg hlast, ih (i + 1) (by omega) _ hnext]
      congr 1
      funext high
      rw [bound_succ hi, or_shiftLeft hlow, digits_eq, ← Int.mul_neg]
      exact (placed_more hlast).symm

theorem readInt_eq (w : Width) : readInt w = (do return BitVec.ofInt w.bits (← readLeb .signed w)) := by
  have hshifts : groupShifts w.bits = shiftsFrom 0 ((w.bits + 6) / 7 - 1) := by cases w <;> rfl
  unfold readInt readLeb
  rw [bind_assoc]
  congr 1
  funext offset
  rw [hshifts, readSigned_eq offset 0 _ (by cases w <;> decide) 0 (by decide), bind_assoc, bind_assoc]
  congr 1
  funext n
  by_cases hn : -2 ^ 63 ≤ n ∧ n < 2 ^ 63
  · have hint : (BitVec.ofInt 64 n).toInt = n := BitVec.toInt_ofInt_eq_self (by decide) hn.1 hn.2
    rw [placed_of_mem hn, pure_bind, zero_add_ofInt, hint, setWidth_ofInt]
    by_cases hrange : Signedness.signed.inRange w n = true
    · rw [if_pos hrange, if_pos hrange, pure_bind]
    · rw [if_neg hrange, if_neg hrange]
      rfl
  · have hrange : ¬ Signedness.signed.inRange w n = true := by
      rw [Signedness.inRange_iff]
      cases w <;> simp only [Signedness.lowest, Signedness.highest, Width.highBit] <;> omega
    rw [placed_of_not_mem hn, if_neg hrange]
    rfl

end Reader

end WasmCore
