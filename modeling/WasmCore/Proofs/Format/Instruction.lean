/-
Instructions are read by their grammar.

All lemmas on instructions with bodies assume of `nested`, the reader of nested bodies, that it reads bodies which nest
less than `levels` deep (`NestedBody`); then `readInstr nested` reads instructions that nest at most so deep. This is
what the reader of bodies needs to know to go one level further up.
-/
import WasmCore.Proofs.Format.Number
import WasmCore.Proofs.Format.Opcode

namespace WasmCore.Reader

open Instr (Encodes EncodesAll Immediates nesting nestingAll)

/-! ## Immediates -/

theorem readBlockType_reads : Reads readBlockType fun t bs => bs = [t.byte] := by
  refine .position fun offset => ?_
  refine Reads.congr (readByte_reads.bind fun b => .ite (fun _ => .pure _) fun _ =>
    .lookup (ValType.ofByte? b) BlockType.value (fun v => ValType.ofByte?_iff)
      (fun v h => by rw [h]) fun h => ⟨_, by rw [h]⟩) fun t bs => ?_
  constructor
  · intro hbytes
    rcases hbytes with ⟨b, _, _, rfl, rfl, ⟨rfl, rfl, rfl⟩ | ⟨-, ⟨v, rfl, rfl⟩, rfl⟩⟩
    · rfl
    · rfl
  · rintro rfl
    cases t with
    | empty => exact ⟨_, _, [], rfl, rfl, .inl ⟨rfl, rfl, rfl⟩⟩
    | value v => exact ⟨_, _, [], rfl, rfl, .inr ⟨v.byte_ne, ⟨v, rfl, rfl⟩, rfl⟩⟩

theorem readMemArg_reads : Reads readMemArg fun arg bs =>
    ∃ a b, bs = a ++ b ∧ EncodesU32 arg.align a ∧ EncodesU32 arg.offset b := by
  refine (readU32_reads.bind fun align => readU32_reads.map (MemArg.mk align)).congr fun arg bs => ?_
  constructor
  · intro hbytes
    rcases hbytes with ⟨align, a, b, rfl, ha, offset, rfl, hb⟩
    exact ⟨a, b, rfl, ha, hb⟩
  · intro hbytes
    rcases hbytes with ⟨a, b, rfl, ha, hb⟩
    exact ⟨_, a, b, rfl, ha, _, rfl, hb⟩

theorem readReserved_reads : Reads readReserved fun _ bs => bs = [0] := by
  refine .position fun offset => ?_
  refine (readByte_reads.bind fun b => .ite (fun _ => .throw _) fun _ => .pure ()).congr fun _ bs => ?_
  constructor
  · intro hbytes
    rcases hbytes with ⟨b, _, _, rfl, rfl, ⟨-, h⟩ | ⟨hb, -, rfl⟩⟩
    · exact h.elim
    · rw [Decidable.not_not.1 hb]; rfl
  · rintro rfl
    exact ⟨0, [0], [], rfl, rfl, .inr ⟨fun h => h rfl, rfl, rfl⟩⟩

/-! ## Nested bodies -/

/-- a body that nests less than `levels` deep, and its terminator -/
def NestedBody (levels : Nat) (x : List Instr × Terminator) (bs : List UInt8) : Prop :=
  ∃ body, bs = body ++ [x.2.byte] ∧ EncodesAll x.1 body ∧ nestingAll x.1 < levels

variable {nested : NestedReader} {levels : Nat}

theorem readClosed_reads (hn : ∀ offset, Reads (nested offset) (NestedBody levels)) (offset : Nat) :
    Reads (readClosed nested offset) fun code => NestedBody levels (code, .endMarker) := by
  refine ((hn offset).bind (K := fun x code bs => x.2 = .endMarker ∧ code = x.1 ∧ bs = []) ?_).congr fun code bs => ?_
  · intro hbytes
    rcases hbytes with ⟨body, terminator⟩
    cases terminator with
    | endMarker => exact (Reads.pure body).congr fun code bs => by simp only [true_and]
    | otherwise =>
      refine Reads.position fun n => (Reads.throw _).congr fun code bs => ?_
      simp only [reduceCtorEq, false_and]
  · constructor
    · intro hbytes
      rcases hbytes with ⟨⟨body, terminator⟩, a, _, rfl, h, rfl, rfl, rfl⟩
      rwa [List.append_nil]
    · intro h
      exact ⟨(code, .endMarker), bs, [], (List.append_nil bs).symm, h, rfl, rfl, rfl⟩

/-- the second body of an `if`, after the terminator of the first -/
theorem readOtherwise_reads (hn : ∀ offset, Reads (nested offset) (NestedBody levels)) (offset : Nat) (t : Terminator) :
    Reads (readOtherwise nested offset t) fun code bs =>
      match t with
      | .endMarker => code = [] ∧ bs = []
      | .otherwise => NestedBody levels (code, .endMarker) bs := by
  cases t with
  | endMarker => exact .pure []
  | otherwise => exact readClosed_reads hn offset

/-! ## Operators -/

/-- the opcodes that `readInstr` does not look up -/
def ownBytes : List UInt8 :=
  [0x02, 0x03, 0x04, 0x0C, 0x0D, 0x0E, 0x10, 0x11, 0x20, 0x21, 0x22, 0x23, 0x24, 0x3F, 0x40, 0x41, 0x42, 0x43, 0x44,
    0xFC]

theorem readInstr_operator {b : UInt8} (hb : b ∉ ownBytes) (offset : Nat) :
    readInstr nested b offset = readOperator b offset := by
  unfold readInstr
  split <;> first | exact absurd (by decide) hb | rfl

theorem readOperator_sound {b : UInt8} {offset : Nat} {c c' : Cursor} {i : Instr}
    (h : readOperator b offset c = .ok i c') : ∃ bs, c.Consumes bs c' ∧ i.opcode = b ∧ Immediates i bs := by
  cases hload : LoadOp.ofByte? b with
  | some op =>
    simp only [readOperator, hload] at h
    obtain ⟨_, hc, arg, rfl, x, y, rfl, hx, hy⟩ := (readMemArg_reads.map (Instr.load op)).sound h
    exact ⟨x ++ y, hc, LoadOp.ofByte?_iff.1 hload, .load hx hy⟩
  | none =>
    cases hstore : StoreOp.ofByte? b with
    | some op =>
      simp only [readOperator, hload, hstore] at h
      obtain ⟨_, hc, arg, rfl, x, y, rfl, hx, hy⟩ := (readMemArg_reads.map (Instr.store op)).sound h
      exact ⟨x ++ y, hc, StoreOp.ofByte?_iff.1 hstore, .store hx hy⟩
    | none =>
      cases hbare : Instr.ofByte? b with
      | some i =>
        simp only [readOperator, hload, hstore, hbare] at h
        obtain ⟨hi, hb⟩ := Instr.ofByte?_iff.1 hbare
        obtain ⟨_, hc, rfl, rfl⟩ := (Reads.pure i).sound h
        exact ⟨[], hc, hb, .bare hi⟩
      | none =>
        simp only [readOperator, hload, hstore, hbare] at h
        cases h

theorem readInstr_load (op : LoadOp) (offset : Nat) :
    readInstr nested op.opcode offset = do return .load op (← readMemArg) := by
  have hown : ∀ op ∈ LoadOp.all, op.opcode ∉ ownBytes := by decide +kernel
  simp only [readInstr_operator (hown op op.mem_all), readOperator, LoadOp.ofByte?_iff.2 rfl]

theorem readInstr_store (op : StoreOp) (offset : Nat) :
    readInstr nested op.opcode offset = do return .store op (← readMemArg) := by
  have hown : ∀ op ∈ StoreOp.all, op.opcode ∉ ownBytes ∧ LoadOp.ofByte? op.opcode = none := by decide +kernel
  obtain ⟨hb, hload⟩ := hown op op.mem_all
  simp only [readInstr_operator hb, readOperator, hload, StoreOp.ofByte?_iff.2 rfl]

/-- no instruction of one byte has the opcode of another kind of instruction -/
theorem opcode_of_isBare {i : Instr} (hi : i.isBare = true) :
    i.opcode ∉ ownBytes ∧ LoadOp.ofByte? i.opcode = none ∧ StoreOp.ofByte? i.opcode = none := by
  cases i with
  | unreachable | nop | ret | drop | select => decide
  | binary op =>
    have h : ∀ op ∈ BinaryOp.all,
        op.opcode ∉ ownBytes ∧ LoadOp.ofByte? op.opcode = none ∧ StoreOp.ofByte? op.opcode = none := by decide +kernel
    exact h op op.mem_all
  | unary op =>
    have h : ∀ op ∈ UnaryOp.all, op.opcode = .byte op.opcode.lead → op.opcode.lead ∉ ownBytes ∧
        LoadOp.ofByte? op.opcode.lead = none ∧ StoreOp.ofByte? op.opcode.lead = none := by decide +kernel
    exact h op op.mem_all (of_decide_eq_true hi)
  | _ => cases hi

theorem readInstr_bare {i : Instr} (hi : i.isBare = true) (offset : Nat) :
    readInstr nested i.opcode offset = pure i := by
  obtain ⟨hb, hload, hstore⟩ := opcode_of_isBare hi
  simp only [readInstr_operator hb, readOperator, hload, hstore, Instr.ofByte?_iff.2 ⟨hi, rfl⟩]

/-- a saturating truncation, from its number on -/
theorem readPrefixed_reads (offset : Nat) : Reads (readPrefixed offset) fun i bs =>
    ∃ op n, i = .unary op ∧ op.opcode = .prefixed n ∧ EncodesU32 n bs := by
  refine Reads.congr (readU32_reads.bind fun n =>
    .lookup (UnaryOp.ofOpcode? (.prefixed n)) Instr.unary (fun op => UnaryOp.ofOpcode?_iff)
      (fun op h => by rw [h]) fun h => ⟨_, by rw [h]⟩) fun i bs => ?_
  constructor
  · intro hbytes
    rcases hbytes with ⟨n, a, _, rfl, ha, ⟨op, rfl, hop⟩, rfl⟩
    exact ⟨op, n, rfl, hop, by rwa [List.append_nil]⟩
  · intro hbytes
    rcases hbytes with ⟨op, n, rfl, hop, hn⟩
    exact ⟨n, bs, [], (List.append_nil bs).symm, hn, ⟨op, rfl, hop⟩, rfl⟩

/-! ## Instructions -/

/-- instructions without bodies do not nest -/
theorem nesting_of_immediates {i : Instr} {bs : List UInt8} (h : Immediates i bs) : nesting i = 0 := by
  cases h with
  | bare h => cases i <;> first | rfl | cases h
  | number h => cases i <;> first | rfl | cases h
  | _ => rfl

theorem readIndirect_reads :
    Reads (do
      let typeIndex ← readU32
      return .callIndirect typeIndex (← readU32)) fun i bs =>
      ∃ typeIndex tableIndex, i = .callIndirect typeIndex tableIndex ∧ Immediates i bs := by
  refine (readU32_reads.bind fun typeIndex => readU32_reads.map (Instr.callIndirect typeIndex)).congr fun i bs => ?_
  constructor
  · intro hbytes
    rcases hbytes with ⟨typeIndex, a, b, rfl, ha, tableIndex, rfl, hb⟩
    exact ⟨typeIndex, tableIndex, rfl, .callIndirect ha hb⟩
  · intro hbytes
    rcases hbytes with ⟨typeIndex, tableIndex, rfl, h⟩
    cases h with
    | callIndirect ha hb => exact ⟨typeIndex, _, _, rfl, ha, tableIndex, rfl, hb⟩
    | bare h => cases h
    | number h => cases h

theorem readTable_reads :
    Reads (do
      let count ← readU32
      let targets ← replicate count.toNat readU32
      return .brTable targets (← readU32)) fun i bs =>
      ∃ targets fallback, i = .brTable targets fallback ∧ Immediates i bs := by
  refine (readU32_reads.bind fun count => (replicate_reads readU32_reads count.toNat).bind fun targets =>
    readU32_reads.map (Instr.brTable targets)).congr fun i bs => ?_
  constructor
  · intro hbytes
    rcases hbytes with ⟨count, a, _, rfl, ha, targets, b, c, rfl, ⟨hlen, hb⟩, fallback, rfl, hc⟩
    exact ⟨targets, fallback, rfl, .brTable ha hlen hb hc⟩
  · intro hbytes
    rcases hbytes with ⟨targets, fallback, rfl, h⟩
    cases h with
    | brTable ha hlen hb hc => exact ⟨_, _, _, rfl, ha, targets, _, _, rfl, ⟨hlen, hb⟩, fallback, rfl, hc⟩
    | bare h => cases h
    | number h => cases h

/-- a construct with one body, after its opcode -/
theorem readConstruct_reads (hn : ∀ offset, Reads (nested offset) (NestedBody levels)) (offset : Nat) {b : UInt8}
    {f : BlockType → List Instr → Instr}
    (hf : ∀ t code bs, Encodes (f t code) (b :: bs) ∧ nesting (f t code) ≤ levels ↔
      ∃ body, bs = t.byte :: (body ++ [Opcode.endMarker]) ∧ EncodesAll code body ∧ nestingAll code < levels) :
    Reads (do
      let t ← readBlockType
      return f t (← readClosed nested offset)) fun i bs =>
      (∃ t body, i = f t body) ∧ Encodes i (b :: bs) ∧ nesting i ≤ levels := by
  refine (readBlockType_reads.bind fun t => (readClosed_reads hn offset).map (f t)).congr fun i bs => ?_
  constructor
  · intro hbytes
    rcases hbytes with ⟨t, _, _, rfl, rfl, code, rfl, body, rfl, hbody, hlt⟩
    exact ⟨⟨t, code, rfl⟩, (hf t code _).2 ⟨body, rfl, hbody, hlt⟩⟩
  · intro hbytes
    rcases hbytes with ⟨⟨t, code, rfl⟩, h⟩
    obtain ⟨body, rfl, hbody, hlt⟩ := (hf t code bs).1 h
    exact ⟨t, [t.byte], _, rfl, rfl, code, rfl, body, rfl, hbody, hlt⟩

theorem encodes_block (t : BlockType) (code : List Instr) (bs : List UInt8) :
    Encodes (.block t code) (Opcode.block :: bs) ∧ nesting (.block t code) ≤ levels ↔
      ∃ body, bs = t.byte :: (body ++ [Opcode.endMarker]) ∧ EncodesAll code body ∧ nestingAll code < levels := by
  constructor
  · intro hbytes
    rcases hbytes with ⟨h, hle⟩
    cases h with
    | block hbody => exact ⟨_, rfl, hbody, hle⟩
    | plain h => cases nesting_of_immediates h
  · intro hbytes
    rcases hbytes with ⟨body, rfl, hbody, hlt⟩
    exact ⟨.block hbody, hlt⟩

theorem encodes_loop (t : BlockType) (code : List Instr) (bs : List UInt8) :
    Encodes (.loop t code) (Opcode.loop :: bs) ∧ nesting (.loop t code) ≤ levels ↔
      ∃ body, bs = t.byte :: (body ++ [Opcode.endMarker]) ∧ EncodesAll code body ∧ nestingAll code < levels := by
  constructor
  · intro hbytes
    rcases hbytes with ⟨h, hle⟩
    cases h with
    | loop hbody => exact ⟨_, rfl, hbody, hle⟩
    | plain h => cases nesting_of_immediates h
  · intro hbytes
    rcases hbytes with ⟨body, rfl, hbody, hlt⟩
    exact ⟨.loop hbody, hlt⟩

/-- an `if`, after its opcode -/
theorem readIf_reads (hn : ∀ offset, Reads (nested offset) (NestedBody levels)) (offset : Nat) :
    Reads (do
      let t ← readBlockType
      let (body, terminator) ← nested offset
      return .ite t body (← readOtherwise nested offset terminator)) fun i bs =>
      (∃ t body otherwise, i = .ite t body otherwise) ∧ Encodes i (Opcode.ite :: bs) ∧ nesting i ≤ levels := by
  refine (readBlockType_reads.bind fun t => (hn offset).bind fun x =>
    (readOtherwise_reads hn offset x.2).map (Instr.ite t x.1)).congr fun i bs => ?_
  constructor
  · intro hbytes
    rcases hbytes with ⟨t, _, _, rfl, rfl, ⟨code, terminator⟩, _, b, rfl, ⟨body, rfl, hbody, hlt⟩, otherwise, rfl, ho⟩
    refine ⟨⟨t, code, otherwise, rfl⟩, ?_⟩
    cases terminator with
    | endMarker =>
      obtain ⟨rfl, rfl⟩ := ho
      rw [List.append_nil]
      exact ⟨.ite hbody, Nat.succ_le_of_lt (Nat.max_lt.2 ⟨hlt, Nat.lt_of_le_of_lt (Nat.zero_le _) hlt⟩)⟩
    | otherwise =>
      obtain ⟨obody, rfl, hobody, holt⟩ := ho
      exact ⟨.iteOtherwise hbody hobody, Nat.succ_le_of_lt (Nat.max_lt.2 ⟨hlt, holt⟩)⟩
  · intro hbytes
    rcases hbytes with ⟨⟨t, code, otherwise, rfl⟩, h, hle⟩
    obtain ⟨hlt, holt⟩ := Nat.max_lt.1 (Nat.lt_of_succ_le hle)
    cases h with
    | ite hbody =>
      exact ⟨t, [t.byte], _, rfl, rfl, (code, .endMarker), _, [], (List.append_nil _).symm, ⟨_, rfl, hbody, hlt⟩, [], rfl,
        rfl, rfl⟩
    | iteOtherwise hbody hobody =>
      exact ⟨t, [t.byte], _, rfl, rfl, (code, .otherwise), _, _, rfl, ⟨_, rfl, hbody, hlt⟩, otherwise, rfl,
        ⟨_, rfl, hobody, holt⟩⟩
    | plain h => cases nesting_of_immediates h

theorem readInstr_sound (hn : ∀ offset, Reads (nested offset) (NestedBody levels)) {b : UInt8} {offset : Nat}
    {c c' : Cursor} {i : Instr} (h : readInstr nested b offset c = .ok i c') :
    ∃ bs, c.Consumes bs c' ∧ Encodes i (b :: bs) ∧ nesting i ≤ levels := by
  -- all but the first three cases are about instructions without bodies
  have plain {bs : List UInt8} (hc : c.Consumes bs c') (hi : Immediates i bs) (hb : i.opcode = b) :
      ∃ bs, c.Consumes bs c' ∧ Encodes i (b :: bs) ∧ nesting i ≤ levels := by
    subst hb
    exact ⟨bs, hc, .plain hi, by rw [nesting_of_immediates hi]; exact Nat.zero_le levels⟩
  have number {f : UInt32 → Instr} (hf : ∀ x, (f x).number? = some x) (hb : ∀ x, (f x).opcode = b)
      (h : (do return f (← readU32) : Reader Instr) c = .ok i c') :
      ∃ bs, c.Consumes bs c' ∧ Encodes i (b :: bs) ∧ nesting i ≤ levels := by
    obtain ⟨bs, hc, x, rfl, hx⟩ := (readU32_reads.map f).sound h
    exact plain hc (.number (hf x) hx) (hb x)
  unfold readInstr at h
  split at h
  · obtain ⟨bs, hc, -, hi⟩ := (readConstruct_reads hn offset encodes_block).sound h
    exact ⟨bs, hc, hi⟩
  · obtain ⟨bs, hc, -, hi⟩ := (readConstruct_reads hn offset encodes_loop).sound h
    exact ⟨bs, hc, hi⟩
  · obtain ⟨bs, hc, -, hi⟩ := (readIf_reads hn offset).sound h
    exact ⟨bs, hc, hi⟩
  · exact number (fun _ => rfl) (fun _ => rfl) h
  · exact number (fun _ => rfl) (fun _ => rfl) h
  · obtain ⟨bs, hc, targets, fallback, rfl, hi⟩ := readTable_reads.sound h
    exact plain hc hi rfl
  · exact number (fun _ => rfl) (fun _ => rfl) h
  · obtain ⟨bs, hc, typeIndex, tableIndex, rfl, hi⟩ := readIndirect_reads.sound h
    exact plain hc hi rfl
  · exact number (fun _ => rfl) (fun _ => rfl) h
  · exact number (fun _ => rfl) (fun _ => rfl) h
  · exact number (fun _ => rfl) (fun _ => rfl) h
  · exact number (fun _ => rfl) (fun _ => rfl) h
  · exact number (fun _ => rfl) (fun _ => rfl) h
  · obtain ⟨bs, hc, x, rfl, rfl⟩ := (readReserved_reads.map fun _ => Instr.memorySize).sound h
    exact plain hc .memorySize rfl
  · obtain ⟨bs, hc, x, rfl, rfl⟩ := (readReserved_reads.map fun _ => Instr.memoryGrow).sound h
    exact plain hc .memoryGrow rfl
  · obtain ⟨bs, hc, x, rfl, hx⟩ := ((readInt_reads .w32).map fun x => Instr.const (.i32 x)).sound h
    exact plain hc (.int hx) rfl
  · obtain ⟨bs, hc, x, rfl, hx⟩ := ((readInt_reads .w64).map fun x => Instr.const (.i64 x)).sound h
    exact plain hc (.int hx) rfl
  · obtain ⟨_, hc, x, rfl, rfl⟩ := ((readFloat_reads .w32).map fun x => Instr.const (.f32 x)).sound h
    exact plain hc .float rfl
  · obtain ⟨_, hc, x, rfl, rfl⟩ := ((readFloat_reads .w64).map fun x => Instr.const (.f64 x)).sound h
    exact plain hc .float rfl
  · obtain ⟨bs, hc, op, n, rfl, hop, hx⟩ := (readPrefixed_reads offset).sound h
    exact plain hc (.prefixed hop hx) (by rw [Instr.opcode, hop]; rfl)
  · obtain ⟨bs, hc, hb, hi⟩ := readOperator_sound h
    exact plain hc hi hb

theorem readInstr_complete (hn : ∀ offset, Reads (nested offset) (NestedBody levels)) {b : UInt8} (offset : Nat)
    {c c' : Cursor} {i : Instr} {bs : List UInt8} (h : Encodes i (b :: bs)) (hle : nesting i ≤ levels)
    (hc : c.Consumes bs c') : readInstr nested b offset c = .ok i c' := by
  cases h with
  | block hbody => exact (readConstruct_reads hn offset encodes_block).complete ⟨⟨_, _, rfl⟩, .block hbody, hle⟩ hc
  | loop hbody => exact (readConstruct_reads hn offset encodes_loop).complete ⟨⟨_, _, rfl⟩, .loop hbody, hle⟩ hc
  | ite hbody => exact (readIf_reads hn offset).complete ⟨⟨_, _, _, rfl⟩, .ite hbody, hle⟩ hc
  | iteOtherwise hbody ho => exact (readIf_reads hn offset).complete ⟨⟨_, _, _, rfl⟩, .iteOtherwise hbody ho, hle⟩ hc
  | plain h =>
    cases h with
    | bare hi =>
      rw [readInstr_bare hi]
      exact (Reads.pure i).complete ⟨rfl, rfl⟩ hc
    | @number _ x _ hi hx =>
      have read (f : UInt32 → Instr) := (readU32_reads.map f).complete ⟨x, rfl, hx⟩ hc
      cases i with
      | br depth => cases hi; exact read .br
      | brIf depth => cases hi; exact read .brIf
      | call index => cases hi; exact read .call
      | localGet index => cases hi; exact read .localGet
      | localSet index => cases hi; exact read .localSet
      | localTee index => cases hi; exact read .localTee
      | globalGet index => cases hi; exact read .globalGet
      | globalSet index => cases hi; exact read .globalSet
      | _ => cases hi
    | @prefixed op n _ hop hx =>
      have hlead : (Instr.unary op).opcode = 0xFC := by rw [Instr.opcode, hop]; rfl
      rw [hlead]
      exact (readPrefixed_reads offset).complete ⟨op, n, rfl, hop, hx⟩ hc
    | @int w x _ hx =>
      cases w with
      | w32 => exact ((readInt_reads .w32).map fun x => Instr.const (.i32 x)).complete ⟨x, rfl, hx⟩ hc
      | w64 => exact ((readInt_reads .w64).map fun x => Instr.const (.i64 x)).complete ⟨x, rfl, hx⟩ hc
    | @float w x =>
      cases w with
      | w32 => exact ((readFloat_reads .w32).map fun x => Instr.const (.f32 x)).complete ⟨x, rfl, rfl⟩ hc
      | w64 => exact ((readFloat_reads .w64).map fun x => Instr.const (.f64 x)).complete ⟨x, rfl, rfl⟩ hc
    | @load op arg x y hx hy =>
      rw [Instr.opcode, readInstr_load]
      exact (readMemArg_reads.map (Instr.load op)).complete ⟨arg, rfl, x, y, rfl, hx, hy⟩ hc
    | @store op arg x y hx hy =>
      rw [Instr.opcode, readInstr_store]
      exact (readMemArg_reads.map (Instr.store op)).complete ⟨arg, rfl, x, y, rfl, hx, hy⟩ hc
    | memorySize => exact (readReserved_reads.map fun _ => Instr.memorySize).complete ⟨(), rfl, rfl⟩ hc
    | memoryGrow => exact (readReserved_reads.map fun _ => Instr.memoryGrow).complete ⟨(), rfl, rfl⟩ hc
    | callIndirect hx hy => exact readIndirect_reads.complete ⟨_, _, rfl, .callIndirect hx hy⟩ hc
    | brTable ha hlen hx hy => exact readTable_reads.complete ⟨_, _, rfl, .brTable ha hlen hx hy⟩ hc

/-- an instruction, after its opcode -/
theorem readInstr_reads (hn : ∀ offset, Reads (nested offset) (NestedBody levels)) (b : UInt8) (offset : Nat) :
    Reads (readInstr nested b offset) fun i bs => Encodes i (b :: bs) ∧ nesting i ≤ levels :=
  fun _ _ _ => ⟨readInstr_sound hn, fun ⟨_, hc, h, hle⟩ => readInstr_complete hn offset h hle hc⟩

end WasmCore.Reader
