/-
Memory as a map of bytes.

Whoever holds a memory makes `Access`es to it, one after another: raw bytes, numbers of some bytes, values of a type, and
growth. What they come to is told without the bytes themselves by a `ByteMap`, which remembers how many pages there are and
what was written where: the byte at an address is the last one that was written there, and zero if there was none. An access
to a range is answered from these if the range ends within the pages, as natural numbers add up, and is refused without
any effect otherwise (`ByteMap.access`). `Memory.refines_byteMap` says that this is what a memory does, for any accesses in
any order, wherever they overlap.
-/
import WasmCore.Proofs.Memory.Bytes

namespace WasmCore

namespace Memory

/-- what is asked of a memory -/
inductive Access where
  | store (address : Nat) (bytes : List UInt8)
  /-- a number without a sign, of which `length` bytes are written -/
  | write (address length n : Nat)
  /-- an integer or a floating-point number, of which all bits are written -/
  | writeVal (address : Nat) (v : Val)
  | grow (delta : Nat)
  | load (address length : Nat)
  | read (address length : Nat)
  | readVal (address : Nat) (t : ValType)

/-- what is answered if the access succeeds -/
inductive Answer where
  | done
  | pages (n : Nat)
  | bytes (bytes : List UInt8)
  | number (n : Nat)
  | value (v : Val)
deriving DecidableEq

/-- the memory after a change, or as it was if the change failed -/
def changed (m : Memory) : Except Trap Memory → Except Trap Answer × Memory
  | .ok m => (.ok .done, m)
  | .error t => (.error t, m)

def access (m : Memory) : Access → Except Trap Answer × Memory
  | .store address bytes => m.changed (m.store address bytes)
  | .write address length n => m.changed (m.write address length n)
  | .writeVal address v => m.changed (m.writeVal address v)
  | .grow delta =>
    match m.grow delta with
    | .ok (before, m) => (.ok (.pages before), m)
    | .error t => (.error t, m)
  | .load address length => ((m.load address length).map .bytes, m)
  | .read address length => ((m.read address length).map .number, m)
  | .readVal address t => ((m.readVal address t).map .value, m)

/-- the answers to accesses one after another -/
def accessAll (m : Memory) : List Access → List (Except Trap Answer) × Memory
  | [] => ([], m)
  | a :: accesses =>
    let (answer, m) := m.access a
    let (answers, m) := m.accessAll accesses
    (answer :: answers, m)

end Memory

/-! ## The map -/

/-- number of pages, and the bytes that were written and where, the last ones first -/
structure ByteMap where
  pages : Nat
  writes : List (Nat × List UInt8)

/-- the bytes of a number, of which the first counts ones and each further one 256 times as much -/
def bytesOf (length n : Nat) : List UInt8 :=
  (List.range length).map fun i => UInt8.ofNat (n / 256 ^ i)

namespace ByteMap

open Memory (Access Answer)

def size (s : ByteMap) : Nat :=
  s.pages * 65536

/-- the last byte that was written at the address, or zero -/
def byte (s : ByteMap) (i : Nat) : UInt8 :=
  (s.writes.findSome? fun (address, bytes) => if address ≤ i then bytes[i - address]? else none).getD 0

/-- the number whose bytes are at the address -/
def number (s : ByteMap) (address length : Nat) : Nat :=
  ∑ i ∈ Finset.range length, (s.byte (address + i)).toNat * 256 ^ i

/-- an access to a range that has this answer, and leads to this map, if the range is there -/
def within (s : ByteMap) (address length : Nat) (answer : Answer) (after : ByteMap) : Except Trap Answer × ByteMap :=
  if address + length ≤ s.size then (.ok answer, after) else (.error (.memoryOutOfBounds address length s.size), s)

def write (s : ByteMap) (address : Nat) (bytes : List UInt8) : Except Trap Answer × ByteMap :=
  s.within address bytes.length .done { s with writes := (address, bytes) :: s.writes }

/-- an access where there may be at most `limit` pages -/
def access (limit : Nat) (s : ByteMap) : Access → Except Trap Answer × ByteMap
  | .store address bytes => s.write address bytes
  | .write address length n => s.write address (bytesOf length n)
  | .writeVal address v => s.write address (bytesOf v.type.width.bytes v.bits.toNat)
  | .grow delta =>
    if s.pages + delta ≤ limit then (.ok (.pages s.pages), { s with pages := s.pages + delta })
    else (.error .outOfMemory, s)
  | .load address length => s.within address length (.bytes ((List.range length).map fun i => s.byte (address + i))) s
  | .read address length => s.within address length (.number (s.number address length)) s
  | .readVal address t =>
    s.within address t.width.bytes (.value ⟨t, BitVec.ofNat t.width.bits (s.number address t.width.bytes)⟩) s

def accessAll (limit : Nat) (s : ByteMap) : List Access → List (Except Trap Answer) × ByteMap
  | [] => ([], s)
  | a :: accesses =>
    let (answer, s) := s.access limit a
    let (answers, s) := s.accessAll limit accesses
    (answer :: answers, s)

/-- The bytes 7 and 3 are above the ones under them, of the write before. -/
example : (ByteMap.mk 1 [(2, [7]), (0, [1, 2, 3, 4])]).number 1 4 = 0x040702 := by decide

/-- the last write decides where it reaches, and nowhere else -/
theorem byte_write (s : ByteMap) (address : Nat) (bytes : List UInt8) (i : Nat) :
    byte { s with writes := (address, bytes) :: s.writes } i =
      if address ≤ i ∧ i < address + bytes.length then bytes[i - address]?.getD 0 else s.byte i := by
  unfold byte
  rw [List.findSome?_cons]
  by_cases hle : address ≤ i
  · by_cases hlt : i < address + bytes.length
    · have hbyte : bytes[i - address]? = some bytes[i - address] := List.getElem?_eq_getElem (by omega)
      simp only [if_pos hle, if_pos (And.intro hle hlt), hbyte, Option.getD_some]
    · have hbyte : bytes[i - address]? = none := List.getElem?_eq_none (by omega)
      simp only [if_pos hle, if_neg (fun h : address ≤ i ∧ _ => hlt h.2), hbyte]
  · simp only [if_neg hle, if_neg (fun h : address ≤ i ∧ _ => hle h.1)]

end ByteMap

/-! ## The memory does the same -/

namespace Memory

variable {m : Memory} {s : ByteMap}

/-- the memory has the size and the bytes of the map, which holds nothing beyond them -/
structure Shows (m : Memory) (s : ByteMap) : Prop where
  size : m.size = s.size
  byte : ∀ i, i < m.size → m.byte? i = some (s.byte i)
  beyond : ∀ i, m.size ≤ i → s.byte i = 0

/-- one and the same answer, and the memory still shows the map -/
def Agrees (limit : Option Nat) (x : Except Trap Answer × Memory) (y : Except Trap Answer × ByteMap) : Prop :=
  x.1 = y.1 ∧ x.2.Shows y.2 ∧ x.2.maxPages = limit

theorem Shows.pages (h : m.Shows s) : m.pages = s.pages :=
  pages_eq h.size

/-- a memory of zeros -/
theorem shows_zeros (pages : Nat) (maxPages : Option Nat) : (zeros (pages * pageSize) maxPages).Shows ⟨pages, []⟩ where
  size := size_zeros _ maxPages
  byte := by
    intro i hi
    rw [size_zeros] at hi
    rw [byte?_zeros, if_pos hi]
    rfl
  beyond := by
    intro i _
    rfl

/-- a write within the memory -/
theorem Shows.patch (h : m.Shows s) {address : Nat} {bytes : List UInt8} (hle : address + bytes.length ≤ m.size) :
    (m.patch address bytes).Shows { s with writes := (address, bytes) :: s.writes } where
  size := (m.size_patch address bytes).trans h.size
  byte := by
    intro i hi
    rw [size_patch] at hi
    rw [byte?_patch hle, ByteMap.byte_write, h.byte i hi]
    by_cases hin : address ≤ i ∧ i < address + bytes.length
    · rw [if_pos hin, if_pos hin, List.getElem?_eq_getElem (by omega), Option.getD_some]
    · rw [if_neg hin, if_neg hin]
  beyond := by
    intro i hi
    rw [size_patch] at hi
    rw [ByteMap.byte_write, if_neg (by omega)]
    exact h.beyond i hi

/-- more pages of zeros -/
theorem Shows.extend (h : m.Shows s) (delta : Nat) :
    (m.extend delta).Shows { s with pages := s.pages + delta } where
  size := by
    rw [size_extend, h.pages, h.size]
    exact Nat.max_eq_right (Nat.mul_le_mul_right _ (Nat.le_add_right _ _))
  byte := by
    intro i hi
    rw [byte?_extend]
    by_cases hold : i < m.size
    · rw [if_pos hold]
      exact h.byte i hold
    · rw [if_neg hold, if_pos hi]
      exact congrArg some (h.beyond i (Nat.le_of_not_lt hold)).symm
  beyond := by
    intro i hi
    apply h.beyond i
    rw [size_extend] at hi
    exact Nat.le_trans (Nat.le_max_left _ _) hi

/-- the bytes of a range -/
theorem Shows.slice (h : m.Shows s) {address length : Nat} (hle : address + length ≤ m.size) :
    m.slice address length = (List.range length).map fun i => s.byte (address + i) := by
  rw [slice_eq]
  apply List.map_congr_left
  intro i hi
  have hlt := List.mem_range.1 hi
  rw [h.byte (address + i) (by omega), Option.getD_some]

/-! ### One access -/

theorem Shows.store (h : m.Shows s) (address : Nat) (bytes : List UInt8) :
    Agrees m.maxPages (m.changed (m.store address bytes)) (s.write address bytes) := by
  unfold Memory.store ByteMap.write ByteMap.within
  rw [← h.size]
  by_cases hle : address + bytes.length ≤ m.size
  · rw [check_of_le hle, if_pos hle]
    exact ⟨rfl, h.patch hle, rfl⟩
  · rw [check_of_lt (Nat.lt_of_not_le hle), if_neg hle]
    exact ⟨rfl, h, rfl⟩

theorem Shows.write (h : m.Shows s) (address length n : Nat) :
    Agrees m.maxPages (m.changed (m.write address length n)) (s.write address (bytesOf length n)) := by
  have hbytes : toLittleEndian length n = bytesOf length n := toLittleEndian_eq length n
  unfold Memory.write
  rw [hbytes]
  exact h.store address (bytesOf length n)

/-- an answer that is computed from the bytes of a range -/
theorem Shows.load (h : m.Shows s) (address length : Nat) (f : List UInt8 → Answer) :
    Agrees m.maxPages ((m.load address length).map f, m)
      (s.within address length (f ((List.range length).map fun i => s.byte (address + i))) s) := by
  unfold Memory.load ByteMap.within
  rw [← h.size]
  by_cases hle : address + length ≤ m.size
  · rw [check_of_le hle, if_pos hle, ← h.slice hle]
    exact ⟨rfl, h, rfl⟩
  · rw [check_of_lt (Nat.lt_of_not_le hle), if_neg hle]
    exact ⟨rfl, h, rfl⟩

/-- an answer that is computed from the number in a range -/
theorem Shows.read (h : m.Shows s) (address length : Nat) (f : Nat → Answer) :
    Agrees m.maxPages ((m.read address length).map f, m) (s.within address length (f (s.number address length)) s) := by
  have hload := h.load address length fun bytes => f (littleEndian bytes)
  rw [littleEndian_eq_sum] at hload
  have hmap : ((m.load address length).map littleEndian).map f =
      (m.load address length).map fun bytes => f (littleEndian bytes) := by
    cases m.load address length <;> rfl
  unfold Memory.read
  rw [hmap]
  exact hload

theorem Shows.grow (h : m.Shows s) (delta : Nat) :
    Agrees m.maxPages (m.access (.grow delta)) (s.access m.limit (.grow delta)) := by
  simp only [Memory.access, ByteMap.access, Memory.grow, canGrow, decide_eq_true_eq, h.pages]
  by_cases hle : s.pages + delta ≤ m.limit
  · rw [if_pos hle, if_pos hle]
    exact ⟨rfl, h.extend delta, m.maxPages_extend delta⟩
  · rw [if_neg hle, if_neg hle]
    exact ⟨rfl, h, rfl⟩

/-- **One access** has the same answer and the same effect -/
theorem Shows.access (h : m.Shows s) (a : Access) : Agrees m.maxPages (m.access a) (s.access m.limit a) := by
  cases a with
  | store address bytes => exact h.store address bytes
  | write address length n => exact h.write address length n
  | writeVal address v => exact h.write address v.type.width.bytes v.bits.toNat
  | grow delta => exact h.grow delta
  | load address length => exact h.load address length .bytes
  | read address length => exact h.read address length .number
  | readVal address t =>
    have hread := h.read address t.width.bytes fun n => .value ⟨t, BitVec.ofNat t.width.bits n⟩
    have hmap : (m.readVal address t).map Answer.value =
        (m.read address t.width.bytes).map fun n => .value ⟨t, BitVec.ofNat t.width.bits n⟩ := by
      unfold Memory.readVal
      cases m.read address t.width.bytes <;> rfl
    rw [← hmap] at hread
    exact hread

theorem limit_eq (m : Memory) : m.limit = min (m.maxPages.getD 65536) 65536 := by
  unfold limit
  cases m.maxPages <;> rfl

/-- the accesses of a whole list, each after the ones before it -/
theorem Shows.accessAll (h : m.Shows s) (accesses : List Access) :
    (m.accessAll accesses).1 = (s.accessAll m.limit accesses).1 ∧
      (m.accessAll accesses).2.Shows (s.accessAll m.limit accesses).2 ∧
      (m.accessAll accesses).2.maxPages = m.maxPages := by
  induction accesses generalizing m s with
  | nil => exact ⟨rfl, h, rfl⟩
  | cons a accesses ih =>
    obtain ⟨hanswer, hshows, hmax⟩ := h.access a
    have hlimit : (m.access a).2.limit = m.limit := by rw [limit_eq, limit_eq, hmax]
    obtain ⟨hanswers, hshowsAll, hmaxAll⟩ := ih hshows
    rw [hlimit] at hanswers hshowsAll
    refine ⟨?_, hshowsAll, hmaxAll.trans hmax⟩
    exact congrArg₂ List.cons hanswer hanswers

/-- **Memory is a map of bytes.** Any accesses to a memory of zeros, as every new memory is one, are answered as by a map of
what was written, and leave the size and the bytes of that map: the pages that were there first and those that were added, up to the lower of the
memory's own limit and 65536 in all, and at each address the last byte that was written there or zero. Beyond the size there
is nothing, and nothing was written, so pages that are added hold zeros. -/
theorem refines_byteMap (pages : Nat) (maxPages : Option Nat) (accesses : List Access) :
    let memory := (zeros (pages * pageSize) maxPages).accessAll accesses
    let map := (ByteMap.mk pages []).accessAll (min (maxPages.getD 65536) 65536) accesses
    memory.1 = map.1 ∧ memory.2.size = map.2.size ∧ memory.2.maxPages = maxPages ∧
      ∀ i, memory.2.byte? i = (if i < map.2.size then some (map.2.byte i) else none) ∧
        (map.2.size ≤ i → map.2.byte i = 0) := by
  have hlimit : (zeros (pages * pageSize) maxPages).limit = min (maxPages.getD 65536) 65536 := limit_eq _
  obtain ⟨hanswers, hshows, hmax⟩ := (shows_zeros pages maxPages).accessAll accesses
  rw [hlimit] at hanswers hshows
  refine ⟨hanswers, hshows.size, hmax, ?_⟩
  intro i
  rw [← hshows.size]
  refine ⟨?_, hshows.beyond i⟩
  by_cases hi : i < ((zeros (pages * pageSize) maxPages).accessAll accesses).2.size
  · rw [if_pos hi, hshows.byte i hi]
  · rw [if_neg hi, byte?_of_le (Nat.le_of_not_lt hi)]

end Memory

end WasmCore
