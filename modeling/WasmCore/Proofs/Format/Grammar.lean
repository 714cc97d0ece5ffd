/-
The grammar of function bodies.

`EncodesAll code bs` relates a body to the byte strings that denote it, with no mention of how they are read. An
instruction is its opcode and what follows it: immediates, or bodies in the case of `block`, `loop` and `if`. Integers
are LEB128 in any admissible length, so a body has many encodings; an `if` without a second body and one with an empty
second body are one instruction. `Instr.nesting` counts how deep constructs are nested, which the grammar does not
bound.
-/
import WasmCore.Binary.Body
import WasmCore.Proofs.Format.Groups

namespace WasmCore

/-! ## Numbers -/

/-- The groups of an integer, the lowest first. All but the last have their top bit set; seven bits of each are digits.
-/
inductive Groups (s : Signedness) : Int → List UInt8 → Prop
  | last {b} (h : b.toNat < 128) : Groups s (Reader.lastGroup s b) [b]
  | more {b n bs} (h : 128 ≤ b.toNat) (rest : Groups s n bs) : Groups s ((b.toNat : Int) - 128 + 128 * n) (b :: bs)

/-- an integer of a width, in as many groups as it needs or in more of them, up to what a number of the width can fill
-/
structure EncodesInt (s : Signedness) (w : Width) (n : Int) (bs : List UInt8) : Prop where
  groups : Groups s n bs
  length : bs.length ≤ (w.bits + 6) / 7
  range : s.inRange w n

/-- an immediate of 32 bits without a sign -/
def EncodesU32 (x : UInt32) (bs : List UInt8) : Prop :=
  EncodesInt .unsigned .w32 x.toNat bs

/-- one after another -/
inductive EncodesEach {α : Type} (G : α → List UInt8 → Prop) : List α → List UInt8 → Prop
  | nil : EncodesEach G [] []
  | cons {x xs a b} (h : G x a) (hs : EncodesEach G xs b) : EncodesEach G (x :: xs) (a ++ b)

/-! ## Immediates -/

namespace Instr

/-- the instruction is one byte -/
def isBare : Instr → Bool
  | unreachable | nop | ret | drop | select | binary _ => true
  | unary op => op.opcode = .byte op.opcode.lead
  | _ => false

/-- the immediate of an instruction that has one number and nothing else -/
def number? : Instr → Option UInt32
  | br depth | brIf depth => some depth
  | call i | localGet i | localSet i | localTee i | globalGet i | globalSet i => some i
  | _ => none

/-- what follows the opcode of an instruction without bodies -/
inductive Immediates : Instr → List UInt8 → Prop
  | bare {i} (h : i.isBare) : Immediates i []
  | number {i x bs} (h : i.number? = some x) (hx : EncodesU32 x bs) : Immediates i bs
  | prefixed {op n bs} (h : op.opcode = .prefixed n) (hn : EncodesU32 n bs) : Immediates (.unary op) bs
  | int {w x bs} (h : EncodesInt .signed w x.toInt bs) : Immediates (.const ⟨.int w, x⟩) bs
  | float {w x} : Immediates (.const ⟨.float w, x⟩) (toLittleEndian w.bytes x.toNat)
  | load {op arg a b} (align : EncodesU32 arg.align a) (offset : EncodesU32 arg.offset b) :
      Immediates (.load op arg) (a ++ b)
  | store {op arg a b} (align : EncodesU32 arg.align a) (offset : EncodesU32 arg.offset b) :
      Immediates (.store op arg) (a ++ b)
  | memorySize : Immediates .memorySize [0]
  | memoryGrow : Immediates .memoryGrow [0]
  | callIndirect {typeIndex tableIndex a b} (type : EncodesU32 typeIndex a) (table : EncodesU32 tableIndex b) :
      Immediates (.callIndirect typeIndex tableIndex) (a ++ b)
  | brTable {targets fallback count a b c} (length : EncodesU32 count a) (count_eq : targets.length = count.toNat)
      (each : EncodesEach EncodesU32 targets b) (last : EncodesU32 fallback c) :
      Immediates (.brTable targets fallback) (a ++ (b ++ c))

/-! ## Instructions and bodies -/

mutual

inductive Encodes : Instr → List UInt8 → Prop
  | plain {i bs} (h : Immediates i bs) : Encodes i (i.opcode :: bs)
  | block {t body bs} (h : EncodesAll body bs) :
      Encodes (.block t body) (Opcode.block :: t.byte :: (bs ++ [Opcode.endMarker]))
  | loop {t body bs} (h : EncodesAll body bs) :
      Encodes (.loop t body) (Opcode.loop :: t.byte :: (bs ++ [Opcode.endMarker]))
  | ite {t body bs} (h : EncodesAll body bs) :
      Encodes (.ite t body []) (Opcode.ite :: t.byte :: (bs ++ [Opcode.endMarker]))
  | iteOtherwise {t body otherwise a b} (h : EncodesAll body a) (ho : EncodesAll otherwise b) :
      Encodes (.ite t body otherwise)
        (Opcode.ite :: t.byte :: (a ++ [Opcode.otherwise] ++ (b ++ [Opcode.endMarker])))

inductive EncodesAll : List Instr → List UInt8 → Prop
  | nil : EncodesAll [] []
  | cons {i rest a b} (h : Encodes i a) (hr : EncodesAll rest b) : EncodesAll (i :: rest) (a ++ b)

end

mutual

/-- how many constructs lie within one another -/
def nesting : Instr → Nat
  | block _ body | loop _ body => nestingAll body + 1
  | ite _ body otherwise => max (nestingAll body) (nestingAll otherwise) + 1
  | _ => 0

/-- the deepest nesting in a body -/
def nestingAll : List Instr → Nat
  | [] => 0
  | i :: rest => max (nesting i) (nestingAll rest)

end

end Instr

end WasmCore
