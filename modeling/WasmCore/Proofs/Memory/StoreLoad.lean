/-
A store and a load of the same place.

A load finds the low bytes of what the store before it has put there, as many as it reads, and widens them to a cell
(`LoadOp.extend_low`). `Instr.store_then_load` says this of every pair of a store and a load that is not wider, with all
that decides whether the store traps: the low half of the base, the offset and the number of bytes, added up without
wrapping around.
-/
import WasmCore.Proofs.Exec
import WasmCore.Proofs.Format.Number
import WasmCore.Proofs.Memory.Bytes

namespace WasmCore

/-! ## Bytes read back -/

theorem take_toLittleEndian {k length : Nat} (h : k ≤ length) (n : Nat) :
    (toLittleEndian length n).take k = toLittleEndian k n := by
  apply List.ext_getElem?
  intro i
  rw [List.getElem?_take, getElem?_toLittleEndian, getElem?_toLittleEndian]
  by_cases hi : i < k
  · rw [if_pos hi, if_pos hi, if_pos (by omega)]
  · rw [if_neg hi, if_neg hi]

namespace Memory

variable {m : Memory} {address : Nat}

/-- the first bytes of what was written -/
theorem slice_patch {bytes : List UInt8} (h : address + bytes.length ≤ m.size) {k : Nat} (hk : k ≤ bytes.length) :
    (m.patch address bytes).slice address k = bytes.take k := by
  rw [slice_eq]
  apply List.ext_getElem?
  intro i
  rw [List.getElem?_map, List.getElem?_take]
  by_cases hi : i < k
  · have hbyte : bytes[i]? = some bytes[i] := List.getElem?_eq_getElem (by omega)
    rw [List.getElem?_range hi, Option.map_some, byte?_patch h, if_pos (by omega), if_pos hi, Nat.add_sub_cancel_left,
      hbyte, Option.getD_some]
  · rw [if_neg hi, List.getElem?_eq_none (by simpa using hi), Option.map_none]

/-- the low end of the number that was written -/
theorem read_patch {length n k : Nat} (h : address + length ≤ m.size) (hk : k ≤ length) :
    (m.patch address (toLittleEndian length n)).read address k = .ok (n % 256 ^ k) := by
  have hlength : (toLittleEndian length n).length = length := length_toLittleEndian length n
  have hcheck : (m.patch address (toLittleEndian length n)).check address k = .ok () := by
    apply check_of_le
    rw [size_patch]
    omega
  have hslice : (m.patch address (toLittleEndian length n)).slice address k = toLittleEndian k n := by
    rw [slice_patch (by rw [hlength]; exact h) (by rw [hlength]; exact hk), take_toLittleEndian hk]
  simp only [read, load, hcheck, hslice, Except.map, littleEndian_toLittleEndian]

end Memory

/-! ## Bytes widened -/

namespace LoadOp

/-- how the bytes are read; a whole number has nothing above it to be filled -/
def signedness : LoadOp → Signedness
  | full _ => .unsigned
  | load8 _ s | load16 _ s | load32 s => s

/-- the low bytes of a number as a cell: the sign goes up to the width of the result, and zeros are above it -/
def widened (op : LoadOp) (v : Cell) : Cell :=
  match op.signedness with
  | .signed => ((v.setWidth (8 * op.bytes)).signExtend op.result.width.bits).setWidth 64
  | .unsigned => (v.setWidth (8 * op.bytes)).setWidth 64

theorem bytes_le (op : LoadOp) : op.bytes ≤ op.result.width.bytes := by
  cases op with
  | full t => exact Nat.le_refl _
  | load8 w s => cases w <;> simp [bytes, result, ValType.width, Width.bytes]
  | load16 w s => cases w <;> simp [bytes, result, ValType.width, Width.bytes]
  | load32 s => simp [bytes, result, ValType.width, Width.bytes]

/-- the bytes that are read fit into the result -/
theorem bits_le (op : LoadOp) : 8 * op.bytes ≤ op.result.width.bits := by
  rw [Width.bits_eq]
  exact Nat.mul_le_mul_left 8 op.bytes_le

/-- nothing is above the width of the result -/
theorem widened_lt (op : LoadOp) (v : Cell) : (op.widened v).toNat < 2 ^ op.result.width.bits := by
  have hcut {n : Nat} (b : BitVec n) : (b.setWidth 64).toNat < 2 ^ n := by
    rw [BitVec.toNat_setWidth]
    exact Nat.lt_of_le_of_lt (Nat.mod_le _ _) b.isLt
  unfold widened
  cases op.signedness with
  | signed => exact hcut _
  | unsigned => exact Nat.lt_of_lt_of_le (hcut _) (Nat.pow_le_pow_right (by decide) op.bits_le)

theorem widen_low {k : Nat} {w : Width} (hk : k ≤ w.bits) (s : Signedness) (v : Cell) :
    widen k w s ((v.setWidth k).setWidth 64) =
      match s with
      | .signed => ((v.setWidth k).signExtend w.bits).setWidth 64
      | .unsigned => (v.setWidth k).setWidth 64 := by
  cases s with
  | unsigned => rfl
  | signed =>
    have hwide : k ≤ 64 := Nat.le_trans hk w.bits_le
    have hlow : ((((v.setWidth k).setWidth 64).setWidth w.bits).setWidth k) = v.setWidth k := by
      rw [BitVec.setWidth_setWidth_of_le _ hk, BitVec.setWidth_setWidth_of_le _ hwide, BitVec.setWidth_eq]
    simp only [widen, signExtendLow, Cell.low, Cell.of, hlow]

/-- **What a load makes of the low bytes of a number** -/
theorem extend_low (op : LoadOp) (v : Cell) :
    op.extend (BitVec.ofNat 64 (v.toNat % 256 ^ op.bytes)) = op.widened v := by
  have hpow : 256 ^ op.bytes = 2 ^ (8 * op.bytes) := by rw [Nat.pow_mul]
  have hcell : BitVec.ofNat 64 (v.toNat % 256 ^ op.bytes) = (v.setWidth (8 * op.bytes)).setWidth 64 := by
    apply BitVec.eq_of_toNat_eq
    simp [hpow]
  rw [hcell]
  cases op with
  | full t => rfl
  | load8 w s => exact widen_low (bits_le (load8 w s)) s v
  | load16 w s => exact widen_low (bits_le (load16 w s)) s v
  | load32 s => exact widen_low (bits_le (load32 s)) s v

end LoadOp

/-! ## The instructions -/

theorem Cell.toNat_index (c : Cell) : c.index.toNat = c.toNat % 2 ^ 32 := by
  have hlow : c.index.toNat = (c.setWidth 32).toNat := rfl
  rw [hlow, BitVec.toNat_setWidth]

/-- the upper half of a base is not read -/
theorem Cell.index_congr {b b' : Cell} (h : b'.toNat % 2 ^ 32 = b.toNat % 2 ^ 32) : b'.index = b.index := by
  apply UInt32.toNat_inj.1
  rw [toNat_index, toNat_index, h]

namespace Instr

variable {inst : Instance} {s : State} {rest : List Cell}

theorem exec_store (op : StoreOp) (arg : MemArg) (v b : Cell) :
    (store op arg).exec inst (s.withCells (v :: b :: rest)) =
      match s.store.memory.check (Memory.effectiveAddress b.index arg.offset) op.bytes with
      | .error t => .error t (s.withCells rest)
      | .ok _ => .ok .next { s.withCells rest with
          store.memory := s.store.memory.patch (Memory.effectiveAddress b.index arg.offset)
            (toLittleEndian op.bytes v.toNat) } := by
  have hmemory : (s.withCells rest).store.memory = s.store.memory := rfl
  simp only [exec, bind, EStateM.bind, Exec.pop_withCells, Exec.writeMemory_eq, hmemory]
  cases s.store.memory.check (Memory.effectiveAddress b.index arg.offset) op.bytes <;> rfl

theorem exec_load (op : LoadOp) (arg : MemArg) (b : Cell) :
    (load op arg).exec inst (s.withCells (b :: rest)) =
      match s.store.memory.read (Memory.effectiveAddress b.index arg.offset) op.bytes with
      | .error t => .error t (s.withCells rest)
      | .ok n => .ok .next { s with
          store.stack := (s.store.stack.withCells rest).push (op.extend (BitVec.ofNat 64 n)) } := by
  have hmemory : (s.withCells rest).store.memory = s.store.memory := rfl
  simp only [exec, bind, EStateM.bind, Exec.pop_withCells, Exec.readMemory_eq, hmemory]
  cases s.store.memory.read (Memory.effectiveAddress b.index arg.offset) op.bytes <;> rfl

/-- **A load reads back what a store of the same place has put there.** For every store, every load that is not wider, and
all cells and offsets: the address is the low half of the base and the offset, added up. If the bytes that are stored end
within the memory, the store succeeds and changes no other bytes, and a load of the same address from the memory that it
leaves pushes the low bytes of the value, as many as the load reads, with the sign or with zeros up to the width of the
result and with zeros above it. If they do not, the store traps, and the memory is as it was. The upper half of the base and
the alignment hint decide nothing. -/
theorem store_then_load (inst : Instance) (op : StoreOp) (lop : LoadOp) (hle : lop.bytes ≤ op.bytes)
    (offset align align' : UInt32) (v b b' : Cell) (hb : b'.toNat % 2 ^ 32 = b.toNat % 2 ^ 32) (s : State)
    (rest : List Cell) :
    let address := b.toNat % 2 ^ 32 + offset.toNat
    let size := s.store.memory.size
    (address + op.bytes ≤ size → ∃ memory,
      (store op ⟨align, offset⟩).exec inst (s.withCells (v :: b :: rest)) =
        .ok .next { s.withCells rest with store.memory := memory } ∧
      memory.size = size ∧
      (∀ i, ¬ (address ≤ i ∧ i < address + op.bytes) → memory.byte? i = s.store.memory.byte? i) ∧
      ∀ (t : State) (rest' : List Cell), t.store.memory = memory → ∃ c,
        (load lop ⟨align', offset⟩).exec inst (t.withCells (b' :: rest')) =
          .ok .next { t with store.stack := (t.store.stack.withCells rest').push c } ∧
        ((t.store.stack.withCells rest').push c).cells = c :: rest' ∧
        (lop.signedness = .signed →
          c = ((v.setWidth (8 * lop.bytes)).signExtend lop.result.width.bits).setWidth 64) ∧
        (lop.signedness = .unsigned → c = (v.setWidth (8 * lop.bytes)).setWidth 64) ∧
        c.toNat < 2 ^ lop.result.width.bits) ∧
    (size < address + op.bytes →
      (store op ⟨align, offset⟩).exec inst (s.withCells (v :: b :: rest)) =
        .error (.memoryOutOfBounds address op.bytes size) (s.withCells rest)) ∧
    (store op ⟨align', offset⟩).exec inst (s.withCells (v :: b' :: rest)) =
      (store op ⟨align, offset⟩).exec inst (s.withCells (v :: b :: rest)) ∧
    (load lop ⟨align', offset⟩).exec inst (s.withCells (b' :: rest)) =
      (load lop ⟨align, offset⟩).exec inst (s.withCells (b :: rest)) := by
  intro address size
  have hindex : b'.index = b.index := Cell.index_congr hb
  have haddress : Memory.effectiveAddress b.index offset = address := by
    unfold Memory.effectiveAddress
    rw [Cell.toNat_index]
  refine ⟨?_, ?_, ?_, ?_⟩
  · intro hin
    have hlength : (toLittleEndian op.bytes v.toNat).length = op.bytes := length_toLittleEndian _ _
    refine ⟨s.store.memory.patch address (toLittleEndian op.bytes v.toNat), ?_, Memory.size_patch _ _ _, ?_, ?_⟩
    · rw [exec_store, haddress, Memory.check_of_le hin]
    · intro i hi
      rw [Memory.byte?_patch (by rw [hlength]; exact hin), hlength, if_neg hi]
    · intro t rest' ht
      refine ⟨lop.widened v, ?_, rfl, ?_, ?_, lop.widened_lt v⟩
      · rw [exec_load, hindex, haddress, ht, Memory.read_patch hin hle]
        simp only [lop.extend_low]
      · intro hsigned
        unfold LoadOp.widened
        rw [hsigned]
      · intro hunsigned
        unfold LoadOp.widened
        rw [hunsigned]
  · intro hout
    rw [exec_store, haddress, Memory.check_of_lt hout]
  · rw [exec_store, exec_store, hindex]
  · rw [exec_load, exec_load, hindex]

/-- no functions and no tables -/
def bare : Instance :=
  ⟨#[], #[], #[], 0⟩

/-- one page of memory and nothing else -/
def onePage : State :=
  ⟨⟨.empty 4, .new 1 none, #[], 0⟩, ⟨#[]⟩⟩

/-- Two bytes at the end of the page, of which the low one is read with its sign, at a base with another upper half; one
address further they are not in the memory. -/
theorem store_then_load_boundary :
    (∃ memory,
      (store (.store16 .w32) ⟨1, 65534⟩).exec bare (onePage.withCells [0xFF80, 0xFFFFFFFF00000000]) =
        .ok .next { onePage.withCells [] with store.memory := memory } ∧
      (load (.load8 .w64 .signed) ⟨0, 65534⟩).exec bare (State.withCells { onePage with store.memory := memory } [0]) =
        .ok .next { onePage with store.memory := memory, store.stack := (OperandStack.empty 4).push 0xFFFFFFFFFFFFFF80 }) ∧
    (store (.store16 .w32) ⟨1, 65535⟩).exec bare (onePage.withCells [0xFF80, 0xFFFFFFFF00000000]) =
      .error (.memoryOutOfBounds 65535 2 65536) (onePage.withCells []) := by
  have hsize : onePage.store.memory.size = 65536 := Memory.size_zeros _ _
  have hfits := store_then_load bare (.store16 .w32) (.load8 .w64 .signed) (by decide) 65534 1 0 0xFF80
    0xFFFFFFFF00000000 0 (by decide) onePage []
  have hbeyond := store_then_load bare (.store16 .w32) (.load8 .w64 .signed) (by decide) 65535 1 0 0xFF80
    0xFFFFFFFF00000000 0 (by decide) onePage []
  simp only [hsize] at hfits hbeyond
  refine ⟨?_, ?_⟩
  · obtain ⟨memory, hstore, -, -, hloads⟩ := hfits.1 (by decide)
    obtain ⟨c, hload, -, hsigned, -⟩ := hloads { onePage with store.memory := memory } [] rfl
    have hc : c = 0xFFFFFFFFFFFFFF80 := (hsigned rfl).trans (by decide)
    rw [hc] at hload
    exact ⟨memory, hstore, hload⟩
  · exact hbeyond.2.1 (by decide)

end Instr

end WasmCore
