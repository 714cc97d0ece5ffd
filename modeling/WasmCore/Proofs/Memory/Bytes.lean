/-
The bytes of a memory.

What a memory holds is told by its bytes at each address, so every operation is described by what it does to them: a new
memory and the new part of one that grows hold zeros (`byte?_zeros`, `byte?_extend`), a write changes the bytes of its range
and no others (`byte?_patch`), and what is read are the bytes of the range (`slice_eq`). Numbers are their bytes, little end
first (`toLittleEndian_eq`, `littleEndian_eq_sum`).
-/
import Mathlib.Algebra.BigOperators.Ring.Finset
import WasmCore.Memory

namespace WasmCore

/-! ## Numbers as bytes -/

theorem getElem?_toLittleEndian (k n i : Nat) :
    (toLittleEndian k n)[i]? = if i < k then some (UInt8.ofNat (n / 256 ^ i)) else none := by
  induction k generalizing n i with
  | zero => rfl
  | succ k ih =>
    cases i with
    | zero => simp [toLittleEndian]
    | succ i =>
      rw [toLittleEndian, List.getElem?_cons_succ, ih, Nat.div_div_eq_div_mul, Nat.pow_succ']
      simp only [Nat.add_lt_add_iff_right]

/-- byte number `i` of a number, counted from its low end -/
theorem toLittleEndian_eq (k n : Nat) :
    toLittleEndian k n = (List.range k).map fun i => UInt8.ofNat (n / 256 ^ i) := by
  apply List.ext_getElem?
  intro i
  rw [getElem?_toLittleEndian, List.getElem?_map]
  by_cases h : i < k
  · rw [if_pos h, List.getElem?_range h, Option.map_some]
  · rw [if_neg h, List.getElem?_eq_none (by simpa using h), Option.map_none]

/-- each byte counts 256 times as much as the one before it -/
theorem littleEndian_eq_sum (k : Nat) (byte : Nat → UInt8) :
    littleEndian ((List.range k).map byte) = ∑ i ∈ Finset.range k, (byte i).toNat * 256 ^ i := by
  induction k generalizing byte with
  | zero => rfl
  | succ k ih =>
    have hbytes : littleEndian ((List.range (k + 1)).map byte) =
        (byte 0).toNat + 256 * littleEndian ((List.range k).map fun i => byte (i + 1)) := by
      rw [List.range_succ_eq_map, List.map_cons, List.map_map]
      rfl
    rw [hbytes, ih, Finset.sum_range_succ', Finset.mul_sum, Nat.add_comm, Nat.pow_zero, Nat.mul_one]
    congr 1
    apply Finset.sum_congr rfl
    intro i _
    rw [Nat.pow_succ, Nat.mul_comm 256, Nat.mul_assoc]

namespace Memory

variable {m : Memory}

/-! ## Single bytes -/

theorem byte?_eq (m : Memory) (i : Nat) : m.byte? i = m.bytes.data[i]? :=
  rfl

theorem byte?_of_le {i : Nat} (h : m.size ≤ i) : m.byte? i = none :=
  Array.getElem?_eq_none h

theorem data_appendZeros (bytes : ByteArray) (n : Nat) :
    (appendZeros bytes n).data = bytes.data ++ Array.replicate n 0 := by
  induction n generalizing bytes with
  | zero => simp [appendZeros]
  | succ n ih =>
    rw [appendZeros, ih]
    apply Array.ext'
    simp [List.replicate_succ]

theorem size_appendZeros (bytes : ByteArray) (n : Nat) : (appendZeros bytes n).size = bytes.size + n := by
  induction n generalizing bytes with
  | zero => rfl
  | succ n ih =>
    rw [appendZeros, ih, ByteArray.size_push]
    omega

theorem byte?_zeros (size : Nat) (maxPages : Option Nat) (i : Nat) :
    (zeros size maxPages).byte? i = if i < size then some 0 else none := by
  have hdata : (zeros size maxPages).bytes.data = Array.replicate size 0 :=
    (data_appendZeros _ _).trans Array.empty_append
  rw [byte?_eq, hdata, Array.getElem?_replicate]

theorem byte?_extend (m : Memory) (delta i : Nat) :
    (m.extend delta).byte? i =
      if i < m.size then m.byte? i else if i < (m.extend delta).size then some 0 else none := by
  have hdata : (m.extend delta).bytes.data =
      m.bytes.data ++ Array.replicate ((m.pages + delta) * pageSize - m.size) 0 := data_appendZeros _ _
  have hsize : (m.extend delta).size = m.size + ((m.pages + delta) * pageSize - m.size) := size_appendZeros _ _
  have hcount : m.bytes.data.size = m.size := rfl
  rw [byte?_eq, byte?_eq, hdata, hsize, Array.getElem?_append, hcount, Array.getElem?_replicate]
  by_cases h : i < m.size
  · rw [if_pos h, if_pos h]
  · rw [if_neg h, if_neg h]
    congr 1
    simp only [eq_iff_iff]
    omega

/-! ## Sizes -/

theorem size_zeros (size : Nat) (maxPages : Option Nat) : (zeros size maxPages).size = size := by
  have h := size_appendZeros (ByteArray.emptyWithCapacity size) size
  exact h.trans (Nat.zero_add _)

/-- what is lost of the product are whole pages -/
theorem startSize_eq (pages : Nat) : startSize pages = pages % 2 ^ 48 * pageSize :=
  Nat.mul_mod_mul_right pageSize pages (2 ^ 48)

theorem size_extend (m : Memory) (delta : Nat) : (m.extend delta).size = max m.size ((m.pages + delta) * pageSize) := by
  have h : (m.extend delta).size = m.size + ((m.pages + delta) * pageSize - m.size) := size_appendZeros _ _
  omega

theorem maxPages_extend (m : Memory) (delta : Nat) : (m.extend delta).maxPages = m.maxPages := by
  -- on `m.extend delta` itself, `rfl` would compare the bytes first
  have hfield (bytes : ByteArray) (maxPages : Option Nat) : (Memory.mk bytes maxPages).maxPages = maxPages := rfl
  exact hfield _ _

theorem pages_eq {n : Nat} (h : m.size = n * pageSize) : m.pages = n := by
  rw [pages, h, Nat.mul_div_cancel n (by decide)]

theorem size_patch (m : Memory) (address : Nat) (bytes : List UInt8) : (m.patch address bytes).size = m.size := by
  have h (target : ByteArray) (address : Nat) : (patch.patchBytes target address bytes).size = target.size := by
    induction bytes generalizing target address with
    | nil => rfl
    | cons b rest ih =>
      rw [patch.patchBytes, ih]
      exact Array.size_setIfInBounds
  exact h m.bytes address

/-! ## Ranges -/

theorem getElem?_patchBytes (target : ByteArray) (address : Nat) (bytes : List UInt8) (i : Nat)
    (h : address + bytes.length ≤ target.size) :
    (patch.patchBytes target address bytes).data[i]? =
      if address ≤ i ∧ i < address + bytes.length then bytes[i - address]? else target.data[i]? := by
  induction bytes generalizing target address with
  | nil =>
    rw [if_neg (by simp only [List.length_nil]; omega)]
    rfl
  | cons b rest ih =>
    rw [List.length_cons] at h ⊢
    have hsize : (target.set! address b).size = target.size := Array.size_setIfInBounds
    have hset : (target.set! address b).data[i]? = if address = i then some b else target.data[i]? := by
      have hlt : address < target.data.size := by
        rw [ByteArray.size_data]
        omega
      simp only [ByteArray.set!, Array.set!_eq_setIfInBounds, Array.getElem?_setIfInBounds, if_pos hlt]
    rw [patch.patchBytes, ih _ _ (by omega), hset]
    rcases Nat.lt_trichotomy i address with hlt | rfl | hlt
    · -- below the range
      rw [if_neg (by omega), if_neg (by omega), if_neg (by omega)]
    · -- its first byte
      rw [if_neg (by omega), if_pos rfl, if_pos (by omega), Nat.sub_self, List.getElem?_cons_zero]
    · have hnext : i - address = i - (address + 1) + 1 := by omega
      rw [hnext, List.getElem?_cons_succ, if_neg (Nat.ne_of_lt hlt)]
      congr 1
      simp only [eq_iff_iff]
      omega

/-- a write changes the bytes of its range and no others -/
theorem byte?_patch {address : Nat} {bytes : List UInt8} (h : address + bytes.length ≤ m.size) (i : Nat) :
    (m.patch address bytes).byte? i =
      if address ≤ i ∧ i < address + bytes.length then bytes[i - address]? else m.byte? i :=
  getElem?_patchBytes m.bytes address bytes i h

/-- the bytes that are read -/
theorem slice_eq (m : Memory) (address length : Nat) :
    m.slice address length = (List.range length).map fun i => (m.byte? (address + i)).getD 0 := by
  unfold slice
  apply List.map_congr_left
  intro i _
  exact getElem!_def _ _

/-! ## Checks -/

theorem check_of_le {address length : Nat} (h : address + length ≤ m.size) : m.check address length = .ok () :=
  if_pos h

theorem check_of_lt {address length : Nat} (h : m.size < address + length) :
    m.check address length = .error (.memoryOutOfBounds address length m.size) :=
  if_neg (Nat.not_le_of_lt h)

end Memory

end WasmCore
