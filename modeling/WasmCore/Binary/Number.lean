/-
Numbers in the binary format.

Integers are LEB128: groups of seven bits, lowest first, each but the last with its top bit set. An encoding of an integer
of `n` bits has at most `n / 7` groups, rounded up, and may be longer than it needs to be, but its value has to be one of
`n` bits. Groups are put together by shifting, and shifting by all the bits of a number or more leaves nothing. Floating-point
numbers are their bits, little end first.
-/
import WasmCore.Binary.Reader

namespace WasmCore

/-- the number with the given bytes, lowest first -/
def littleEndian (bytes : List UInt8) : Nat :=
  bytes.foldr (fun b n => b.toNat + 256 * n) 0

/-- the lowest `k` bytes of a number, lowest first -/
def toLittleEndian (k n : Nat) : List UInt8 :=
  match k with
  | 0 => []
  | k + 1 => UInt8.ofNat n :: toLittleEndian k (n / 256)

namespace Reader

/-- the places of the groups of an integer of `n` bits -/
def groupShifts (n : Nat) : List Nat :=
  (List.range ((n + 6) / 7)).map (7 * ·)

/-- the groups at these places, above what has been read of the integer that starts at `offset`; of the highest group, four
bits are left -/
def readUnsigned (offset : Nat) (low : BitVec 32) : List Nat → Reader (BitVec 32)
  | [] => throw (.malformedLeb offset)
  | shift :: shifts => do
    let b ← readByte
    if shift = 28 ∧ b &&& 0xF0 ≠ 0 then throw (.malformedLeb offset)
    else
      let n := low ||| (b &&& 0x7F).toBitVec.setWidth 32 <<< shift
      if b &&& 0x80 = 0 then return n else readUnsigned offset n shifts

/-- The same with a sign, which is the highest bit of the last group and goes on above it. One bit is left of the tenth group,
and it is the sign. -/
def readSigned (offset : Nat) (low : BitVec 64) : List Nat → Reader (BitVec 64)
  | [] => throw (.malformedLeb offset)
  | shift :: shifts => do
    let b ← readByte
    if shift = 63 ∧ b ≠ 0x00 ∧ b ≠ 0x7F then throw (.malformedLeb offset)
    else
      let n := low ||| (b &&& 0x7F).toBitVec.setWidth 64 <<< shift
      if b &&& 0x80 = 0 then return if b &&& 0x40 = 0 then n else n ||| BitVec.allOnes 64 <<< (shift + 7)
      else readSigned offset n shifts

/-- an index, a count or another immediate of 32 bits without a sign -/
def readU32 : Reader UInt32 := do
  let offset ← position
  return UInt32.ofBitVec (← readUnsigned offset 0 (groupShifts 32))

/-- an integer of the width, as its bits; it is read as one of 64 bits -/
def readInt (w : Width) : Reader (BitVec w.bits) := do
  let offset ← position
  let n ← readSigned offset 0 (groupShifts w.bits)
  if Signedness.signed.inRange w n.toInt then return n.setWidth w.bits else throw (.malformedLeb offset)

/-- a floating-point number of the width, as its bits -/
def readFloat (w : Width) : Reader (BitVec w.bits) := do
  return BitVec.ofNat w.bits (littleEndian (← readBytes w.bytes))

end Reader

end WasmCore
