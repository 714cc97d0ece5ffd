/-
The canonical encoding of a body, and what the decoder accepts.

Every number takes as few groups as it can, and an `if` has a second body only where that is not empty. Each body has
this encoding, as long as the number of targets of every `br_table` is one of 32 bits; so the decoder, which accepts
exactly the encodings of bodies that do not nest too deep, gets such a body back from it.
-/
import WasmCore.Proofs.Format.Body

namespace WasmCore

/-! ## Numbers -/

/-- as few groups as say `n`, at most `more + 1` -/
def encodeGroups (s : Signedness) (more : Nat) (n : Int) : List UInt8 :=
  let low := UInt8.ofNat (n % 128).toNat
  match more with
  | 0 => [low]
  | more + 1 => if Reader.lastGroup s low = n then [low] else (low + 128) :: encodeGroups s more (n / 128)

def encodeInt (s : Signedness) (w : Width) (n : Int) : List UInt8 :=
  encodeGroups s ((w.bits + 6) / 7 - 1) n

def encodeU32 (x : UInt32) : List UInt8 :=
  encodeInt .unsigned .w32 x.toNat

/-- the integers that `more + 1` groups can say -/
def GroupRange (more : Nat) (n : Int) : Signedness → Prop
  | .unsigned => 0 ≤ n ∧ n < 128 * (128 ^ more : Nat)
  | .signed => -(64 * (128 ^ more : Nat)) ≤ n ∧ n < 64 * (128 ^ more : Nat)

/-- dividing by 128 takes a group off -/
theorem GroupRange.high {s : Signedness} {more : Nat} {n : Int} (h : GroupRange (more + 1) n s) :
    GroupRange more (n / 128) s := by
  cases s with
  | unsigned =>
    obtain ⟨h₁, h₂⟩ := h
    rw [Nat.pow_succ] at h₂
    exact ⟨by omega, by omega⟩
  | signed =>
    obtain ⟨h₁, h₂⟩ := h
    rw [Nat.pow_succ] at h₁ h₂
    exact ⟨by omega, by omega⟩

theorem toNat_low (n : Int) : (UInt8.ofNat (n % 128).toNat).toNat = (n % 128).toNat := by
  rw [UInt8.toNat_ofNat']; omega

/-- one group says an integer of its range -/
theorem lastGroup_low {s : Signedness} {n : Int} (h : GroupRange 0 n s) :
    Reader.lastGroup s (UInt8.ofNat (n % 128).toNat) = n := by
  cases s with
  | unsigned =>
    obtain ⟨h₁, h₂⟩ := h
    simp only [Reader.lastGroup, toNat_low]
    omega
  | signed =>
    obtain ⟨h₁, h₂⟩ := h
    simp only [Reader.lastGroup, toNat_low]
    split <;> omega

theorem groups_low {s : Signedness} {n : Int} (h : Reader.lastGroup s (UInt8.ofNat (n % 128).toNat) = n) :
    Groups s n [UInt8.ofNat (n % 128).toNat] := by
  have hg := Groups.last (s := s) (b := UInt8.ofNat (n % 128).toNat) (by rw [toNat_low]; omega)
  rwa [h] at hg

/-- the lowest group put below the others -/
theorem groups_high {s : Signedness} {n : Int} {bs : List UInt8} (h : Groups s (n / 128) bs) :
    Groups s n ((UInt8.ofNat (n % 128).toNat + 128) :: bs) := by
  have hb : (UInt8.ofNat (n % 128).toNat + 128).toNat = (n % 128).toNat + 128 := by
    have h128 : (128 : UInt8).toNat = 128 := rfl
    rw [UInt8.toNat_add, toNat_low, h128]
    omega
  have hmore := Groups.more (b := UInt8.ofNat (n % 128).toNat + 128) (by rw [hb]; omega) h
  have hn : ((UInt8.ofNat (n % 128).toNat + 128).toNat : Int) - 128 + 128 * (n / 128) = n := by
    rw [hb]; omega
  rwa [hn] at hmore

theorem encodeGroups_groups {s : Signedness} {more : Nat} {n : Int} (h : GroupRange more n s) :
    Groups s n (encodeGroups s more n) ∧ (encodeGroups s more n).length ≤ more + 1 := by
  induction more generalizing n with
  | zero => exact ⟨groups_low (lastGroup_low h), Nat.le_refl _⟩
  | succ more ih =>
    by_cases hlast : Reader.lastGroup s (UInt8.ofNat (n % 128).toNat) = n
    · simp only [encodeGroups, if_pos hlast]
      exact ⟨groups_low hlast, Nat.succ_le_succ (Nat.zero_le _)⟩
    · obtain ⟨hg, hlen⟩ := ih h.high
      simp only [encodeGroups, if_neg hlast]
      exact ⟨groups_high hg, Nat.succ_le_succ hlen⟩

theorem encodeInt_encodes {s : Signedness} {w : Width} {n : Int} (h : s.inRange w n) :
    EncodesInt s w n (encodeInt s w n) := by
  have hrange : GroupRange ((w.bits + 6) / 7 - 1) n s := by
    have hr := Signedness.inRange_iff.1 h
    cases s <;> cases w <;>
      (simp only [Signedness.lowest, Signedness.highest, Width.highBit] at hr
       simp only [GroupRange, Width.bits]
       omega)
  obtain ⟨hg, hlen⟩ := encodeGroups_groups hrange
  refine ⟨hg, ?_, h⟩
  cases w <;> exact hlen

theorem encodeU32_encodes (x : UInt32) : EncodesU32 x (encodeU32 x) := by
  refine encodeInt_encodes (Signedness.inRange_iff.2 ?_)
  have hx := x.toNat_lt
  simp only [Signedness.lowest, Signedness.highest, Width.highBit]
  omega

theorem encodeSigned_encodes {w : Width} (x : BitVec w.bits) :
    EncodesInt .signed w x.toInt (encodeInt .signed w x.toInt) :=
  encodeInt_encodes (Signedness.inRange_toInt x)

/-! ## Instructions and bodies -/

namespace Instr

/-- what follows the opcode of an instruction without bodies -/
def immediates : Instr → List UInt8
  | br x | brIf x | call x | localGet x | localSet x | localTee x | globalGet x | globalSet x => encodeU32 x
  | callIndirect typeIndex tableIndex => encodeU32 typeIndex ++ encodeU32 tableIndex
  | brTable targets fallback =>
    encodeU32 (UInt32.ofNat targets.length) ++ (targets.flatMap encodeU32 ++ encodeU32 fallback)
  | load _ arg | store _ arg => encodeU32 arg.align ++ encodeU32 arg.offset
  | memorySize | memoryGrow => [0]
  | const ⟨.int w, x⟩ => encodeInt .signed w x.toInt
  | const ⟨.float w, x⟩ => toLittleEndian w.bytes x.toNat
  | unary op =>
    match op.opcode with
    | .byte _ => []
    | .prefixed n => encodeU32 n
  | _ => []

mutual

/-- the shortest encoding -/
def encode : Instr → List UInt8
  | block t body => Opcode.block :: t.byte :: (encodeAll body ++ [Opcode.endMarker])
  | loop t body => Opcode.loop :: t.byte :: (encodeAll body ++ [Opcode.endMarker])
  | ite t body [] => Opcode.ite :: t.byte :: (encodeAll body ++ [Opcode.endMarker])
  | ite t body (i :: otherwise) =>
    Opcode.ite :: t.byte :: (encodeAll body ++ [Opcode.otherwise] ++ (encodeAll (i :: otherwise) ++ [Opcode.endMarker]))
  | i => i.opcode :: i.immediates

def encodeAll : List Instr → List UInt8
  | [] => []
  | i :: rest => encode i ++ encodeAll rest

end

theorem each_encodes (xs : List UInt32) : EncodesEach EncodesU32 xs (xs.flatMap encodeU32) := by
  induction xs with
  | nil => exact .nil
  | cons x xs ih => exact .cons (encodeU32_encodes x) ih

theorem const_encodes (v : Val) : Immediates (.const v) (immediates (.const v)) := by
  obtain ⟨t, x⟩ := v
  cases t with
  | int w => exact .int (encodeSigned_encodes x)
  | float w => exact .float

theorem unary_encodes (op : UnaryOp) : Immediates (.unary op) (immediates (.unary op)) := by
  cases h : op.opcode with
  | byte b =>
    have hbare : (unary op).isBare = true := by simp only [isBare, h, Opcode.lead, decide_true]
    simp only [immediates, h]
    exact .bare hbare
  | prefixed n =>
    simp only [immediates, h]
    exact .prefixed h (encodeU32_encodes n)

theorem brTable_encodes {targets : List UInt32} (fallback : UInt32) (h : targets.length < UInt32.size) :
    Immediates (.brTable targets fallback) (immediates (.brTable targets fallback)) := by
  have hcount : targets.length = (UInt32.ofNat targets.length).toNat := by
    rw [UInt32.toNat_ofNat', Nat.mod_eq_of_lt h]
  exact .brTable (encodeU32_encodes _) hcount (each_encodes targets) (encodeU32_encodes fallback)

/-- every number of targets is one of 32 bits -/
def Countable (code : List Instr) : Prop :=
  ∀ targets fallback, brTable targets fallback ∈ flattenAll code → targets.length < UInt32.size

theorem countable_nil : Countable [] :=
  fun _ _ hmem => nomatch hmem

theorem countable_cons {i : Instr} {rest : List Instr} : Countable (i :: rest) ↔ Countable [i] ∧ Countable rest := by
  simp only [Countable, flattenAll, List.append_nil, List.mem_append, or_imp, forall_and]

theorem countable_block {t : BlockType} {body : List Instr} : Countable [block t body] ↔ Countable body := by
  simp only [Countable, flattenAll, flatten, List.append_nil, List.mem_cons, reduceCtorEq, false_or]

theorem countable_loop {t : BlockType} {body : List Instr} : Countable [loop t body] ↔ Countable body := by
  simp only [Countable, flattenAll, flatten, List.append_nil, List.mem_cons, reduceCtorEq, false_or]

theorem countable_ite {t : BlockType} {body otherwise : List Instr} :
    Countable [ite t body otherwise] ↔ Countable body ∧ Countable otherwise := by
  simp only [Countable, flattenAll, flatten, List.append_nil, List.mem_cons, reduceCtorEq, false_or, List.mem_append,
    or_imp, forall_and]

theorem countable_brTable {targets : List UInt32} {fallback : UInt32} :
    Countable [brTable targets fallback] ↔ targets.length < UInt32.size := by
  constructor
  · exact fun h => h targets fallback (List.mem_singleton.2 rfl)
  · intro h targets' fallback' hmem
    cases List.mem_singleton.1 hmem
    exact h

mutual

theorem encode_encodes : ∀ i : Instr, Countable [i] → Encodes i (encode i)
  | block _ body, h => .block (encodeAll_encodes body (countable_block.1 h))
  | loop _ body, h => .loop (encodeAll_encodes body (countable_loop.1 h))
  | ite _ body [], h => .ite (encodeAll_encodes body (countable_ite.1 h).1)
  | ite _ body (i :: otherwise), h =>
    .iteOtherwise (encodeAll_encodes body (countable_ite.1 h).1)
      (encodeAll_encodes (i :: otherwise) (countable_ite.1 h).2)
  | brTable _ fallback, h => .plain (brTable_encodes fallback (countable_brTable.1 h))
  | const v, _ => .plain (const_encodes v)
  | unary op, _ => .plain (unary_encodes op)
  | binary _, _ => .plain (.bare rfl)
  | unreachable, _ => .plain (.bare rfl)
  | nop, _ => .plain (.bare rfl)
  | ret, _ => .plain (.bare rfl)
  | drop, _ => .plain (.bare rfl)
  | select, _ => .plain (.bare rfl)
  | br x, _ => .plain (.number rfl (encodeU32_encodes x))
  | brIf x, _ => .plain (.number rfl (encodeU32_encodes x))
  | call x, _ => .plain (.number rfl (encodeU32_encodes x))
  | localGet x, _ => .plain (.number rfl (encodeU32_encodes x))
  | localSet x, _ => .plain (.number rfl (encodeU32_encodes x))
  | localTee x, _ => .plain (.number rfl (encodeU32_encodes x))
  | globalGet x, _ => .plain (.number rfl (encodeU32_encodes x))
  | globalSet x, _ => .plain (.number rfl (encodeU32_encodes x))
  | callIndirect x y, _ => .plain (.callIndirect (encodeU32_encodes x) (encodeU32_encodes y))
  | load _ arg, _ => .plain (.load (encodeU32_encodes arg.align) (encodeU32_encodes arg.offset))
  | store _ arg, _ => .plain (.store (encodeU32_encodes arg.align) (encodeU32_encodes arg.offset))
  | memorySize, _ => .plain .memorySize
  | memoryGrow, _ => .plain .memoryGrow

theorem encodeAll_encodes : ∀ code : List Instr, Countable code → EncodesAll code (encodeAll code)
  | [], _ => .nil
  | i :: rest, h =>
    .cons (encode_encodes i (countable_cons.1 h).1) (encodeAll_encodes rest (countable_cons.1 h).2)

end

/-! Without the bound on the targets there is no encoding. -/

theorem countable_of_immediates {i : Instr} {bs : List UInt8} (h : Immediates i bs) : Countable [i] := by
  have plain (hi : flatten i = [i]) : ∀ targets fallback, brTable targets fallback ∈ flattenAll [i] →
      i = brTable targets fallback := by
    intro targets fallback hmem
    rw [flattenAll, flattenAll, List.append_nil, hi] at hmem
    exact (List.mem_singleton.1 hmem).symm
  cases i with
  | brTable targets fallback =>
    cases h with
    | bare h => cases h
    | number h hx => cases h
    | brTable length count_eq each last =>
      rw [countable_brTable, count_eq]
      exact UInt32.toNat_lt_size _
  | block | loop | ite => cases Reader.nesting_of_immediates h
  | _ => exact fun targets fallback hmem => nomatch plain rfl targets fallback hmem

mutual

theorem Encodes.countable : ∀ {i : Instr} {bs : List UInt8}, Encodes i bs → Countable [i]
  | _, _, .plain h => countable_of_immediates h
  | _, _, .block h => countable_block.2 h.countable
  | _, _, .loop h => countable_loop.2 h.countable
  | _, _, .ite h => countable_ite.2 ⟨h.countable, countable_nil⟩
  | _, _, .iteOtherwise h ho => countable_ite.2 ⟨h.countable, ho.countable⟩

theorem EncodesAll.countable : ∀ {code : List Instr} {bs : List UInt8}, EncodesAll code bs → Countable code
  | _, _, .nil => countable_nil
  | _, _, .cons h hr => countable_cons.2 ⟨h.countable, hr.countable⟩

end

end Instr

/-! ## The decoder -/

namespace Reader

open Instr

/-- **The decoder accepts exactly its grammar.** A byte string decodes to a body if and only if it is an encoding of
that body and one end marker, and no construct of the body lies more than 128 deep. The canonical encoding of a body
that does not nest too deep decodes to it, as soon as the body has an encoding at all; and no byte string encodes two
bodies. -/
theorem decodeBody_grammar :
    (∀ bytes code, decodeBody bytes = .ok code ↔
      ∃ bs, bytes = bs ++ [Opcode.endMarker] ∧ EncodesAll code bs ∧ nestingAll code ≤ maxNesting) ∧
    (∀ code, decodeBody (encodeAll code ++ [Opcode.endMarker]) = .ok code ↔
      nestingAll code ≤ maxNesting ∧ Countable code) ∧
    (∀ bs code code', EncodesAll code bs → EncodesAll code' bs → code = code') := by
  refine ⟨fun bytes code => decodeBody_iff, fun code => ?_, fun bs code code' h h' => encodesAll_unique h h'⟩
  constructor
  · intro h
    obtain ⟨bs, -, hcode, hle⟩ := decodeBody_iff.1 h
    exact ⟨hle, hcode.countable⟩
  · intro hbytes
    rcases hbytes with ⟨hle, hcode⟩
    exact decodeBody_iff.2 ⟨_, rfl, encodeAll_encodes code hcode, hle⟩

/-- a constant in one group more than it needs, within a block -/
theorem decodeBody_block : decodeBody [0x02, 0x40, 0x41, 0xFF, 0x7F, 0x1A, 0x0B, 0x0B] =
    .ok [.block .empty [.const ⟨.int .w32, -1⟩, .drop]] := by
  have hvalue : ((0xFF : UInt8).toNat : Int) - 128 + 128 * lastGroup .signed 0x7F = -1 := by decide
  have hgroups : Groups .signed (-1) [0xFF, 0x7F] := hvalue ▸ .more (by decide) (.last (by decide))
  have hconst : Immediates (.const ⟨.int .w32, -1⟩) [0xFF, 0x7F] := .int ⟨hgroups, by decide, by decide⟩
  have hbody : EncodesAll [.const ⟨.int .w32, -1⟩, .drop] [0x41, 0xFF, 0x7F, 0x1A] :=
    .cons (.plain hconst) (.cons (.plain (.bare rfl)) .nil)
  exact (decodeBody_grammar.1 _ _).2 ⟨_, rfl, .cons (.block hbody) .nil, by decide⟩

end Reader

end WasmCore
