/-
Linear memory: bytes, in pages of 65536.

An access to a range of bytes succeeds if the range lies within the memory; addresses never wrap around. Numbers lie in
memory with their low end first. A write is in two parts, the check of its range and the change of the bytes, so that
whoever holds the memory can change it in place.
-/
import WasmCore.Binary.Number
import WasmCore.Trap
import WasmCore.Value

namespace WasmCore

structure Memory where
  bytes : ByteArray
  /-- most pages the memory may grow to, if it has a limit of its own -/
  maxPages : Option Nat

namespace Memory

def pageSize : Nat := 65536

/-- most pages that any memory may grow to -/
def pageLimit : Nat := 65536

/-- zero bytes after the others -/
def appendZeros (bytes : ByteArray) : Nat → ByteArray
  | 0 => bytes
  | n + 1 => appendZeros (bytes.push 0) n

/-- a memory of zeros -/
def zeros (size : Nat) (maxPages : Option Nat) : Memory :=
  ⟨appendZeros (ByteArray.emptyWithCapacity size) size, maxPages⟩

/-- the bytes that so many pages come to, which is a word: from 2⁴⁸ pages on, the product wraps around -/
def startSize (pages : Nat) : Nat :=
  pages * pageSize % UInt64.size

/-- a memory that starts with so many pages -/
def new (pages : Nat) (maxPages : Option Nat) : Memory :=
  zeros (startSize pages) maxPages

/-- size in bytes -/
def size (m : Memory) : Nat :=
  m.bytes.size

def pages (m : Memory) : Nat :=
  m.size / pageSize

/-- the byte at an address -/
def byte? (m : Memory) (address : Nat) : Option UInt8 :=
  m.bytes[address]?

/-- most pages that this memory may grow to -/
def limit (m : Memory) : Nat :=
  match m.maxPages with
  | some n => min n pageLimit
  | none => pageLimit

/-- whether the memory may get `delta` more pages -/
def canGrow (m : Memory) (delta : Nat) : Bool :=
  m.pages + delta ≤ m.limit

/-- the memory with zeros up to `delta` more pages -/
def extend (m : Memory) (delta : Nat) : Memory :=
  { m with bytes := appendZeros m.bytes ((m.pages + delta) * pageSize - m.size) }

/-- adds pages, and answers how many there were -/
def grow (m : Memory) (delta : Nat) : Except Trap (Nat × Memory) :=
  if m.canGrow delta then .ok (m.pages, m.extend delta) else .error .outOfMemory

/-! ## Ranges of bytes -/

/-- fails unless `length` bytes at the address are in the memory; a sum that is no word lies beyond any memory -/
def check (m : Memory) (address length : Nat) : Except Trap Unit :=
  if address + length ≤ m.size then .ok () else .error (.memoryOutOfBounds address length m.size)

/-- the bytes from an address on -/
def slice (m : Memory) (address length : Nat) : List UInt8 :=
  (List.range length).map fun i => m.bytes.get! (address + i)

/-- the memory with the bytes from an address on replaced -/
def patch (m : Memory) (address : Nat) (bytes : List UInt8) : Memory :=
  { m with bytes := patchBytes m.bytes address bytes }
where
  /-- one byte after another -/
  patchBytes (target : ByteArray) (address : Nat) : List UInt8 → ByteArray
    | [] => target
    | b :: rest => patchBytes (target.set! address b) (address + 1) rest

def load (m : Memory) (address length : Nat) : Except Trap (List UInt8) :=
  (m.check address length).map fun _ => m.slice address length

def store (m : Memory) (address : Nat) (bytes : List UInt8) : Except Trap Memory :=
  (m.check address bytes.length).map fun _ => m.patch address bytes

/-! ## Numbers -/

/-- the number in `length` bytes -/
def read (m : Memory) (address length : Nat) : Except Trap Nat :=
  (m.load address length).map littleEndian

/-- puts the low end of a number into `length` bytes -/
def write (m : Memory) (address length n : Nat) : Except Trap Memory :=
  m.store address (toLittleEndian length n)

/-- the value of a type whose bits are in the bytes -/
def readVal (m : Memory) (address : Nat) (t : ValType) : Except Trap Val :=
  (m.read address t.width.bytes).map fun n => ⟨t, BitVec.ofNat t.width.bits n⟩

/-- puts the bits of a value into as many bytes as its type has -/
def writeVal (m : Memory) (address : Nat) (v : Val) : Except Trap Memory :=
  m.write address v.type.width.bytes v.bits.toNat

/-- the address of an access: a base and an offset of 32 bits each, added without wrapping around -/
def effectiveAddress (base offset : UInt32) : Nat :=
  base.toNat + offset.toNat

end Memory

end WasmCore
