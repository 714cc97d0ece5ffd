/-
Opcodes are found again.

Each enumeration lists all of its operators, and no two of them share an opcode; so looking up an opcode answers the
operator that is written with it, and nothing else. The facts about all operators of a family are decided over its
enumeration.
-/
import WasmCore.Proofs.Format.Grammar

namespace WasmCore

/-- looking up the key of an element, if each element is found by its own key -/
theorem find?_key_iff {α κ : Type} [BEq κ] [LawfulBEq κ] {all : List α} {key : α → κ}
    (h : ∀ x, all.find? (fun y => key y == key x) = some x) {k : κ} {x : α} :
    all.find? (fun y => key y == k) = some x ↔ key x = k := by
  constructor
  · intro hx
    exact eq_of_beq (List.find?_some (p := fun y => key y == k) hx)
  · rintro rfl
    exact h x

theorem ValType.ofByte?_iff {b : UInt8} {t : ValType} : ofByte? b = some t ↔ t.byte = b := by
  refine find?_key_iff fun t => ?_
  have h : ∀ t ∈ all, all.find? (fun u => u.byte == t.byte) = some t := by decide
  exact h t (mem_all t)

/-- no type is written like an absent one -/
theorem ValType.byte_ne (t : ValType) : t.byte ≠ BlockType.emptyByte := by
  have h : ∀ t ∈ all, t.byte ≠ BlockType.emptyByte := by decide
  exact h t (mem_all t)

/-! ## Enumerations are complete -/

theorem Width.mem_all (w : Width) : w ∈ all := by
  cases w <;> decide

theorem Signedness.mem_all (s : Signedness) : s ∈ all := by
  cases s <;> decide

theorem LoadOp.mem_all (op : LoadOp) : op ∈ all := by
  cases op with
  | full t => simp [all, ValType.mem_all]
  | load8 w s => simp [all, Width.mem_all, Signedness.mem_all]
  | load16 w s => simp [all, Width.mem_all, Signedness.mem_all]
  | load32 s => simp [all, Signedness.mem_all]

theorem StoreOp.mem_all (op : StoreOp) : op ∈ all := by
  cases op with
  | full t => simp [all, ValType.mem_all]
  | store8 w => simp [all, Width.mem_all]
  | store16 w => simp [all, Width.mem_all]
  | store32 => simp [all]

theorem IntUnOp.mem_all (op : IntUnOp) : op ∈ all := by
  cases op <;> decide

theorem FloatUnOp.mem_all (op : FloatUnOp) : op ∈ all := by
  cases op <;> decide

theorem FloatBinOp.mem_all (op : FloatBinOp) : op ∈ all := by
  cases op <;> decide

theorem FloatRelOp.mem_all (op : FloatRelOp) : op ∈ all := by
  cases op <;> decide

theorem IntBinOp.mem_all (op : IntBinOp) : op ∈ all := by
  cases op <;> simp [all, Signedness.mem_all]

theorem IntRelOp.mem_all (op : IntRelOp) : op ∈ all := by
  cases op <;> simp [all, Signedness.mem_all]

theorem mem_conversions (f : Width → Width → Signedness → UnaryOp) (target source : Width) (s : Signedness) :
    f target source s ∈ conversions f := by
  simp only [conversions, List.mem_flatMap, List.mem_map]
  exact ⟨target, target.mem_all, source, source.mem_all, s, s.mem_all, rfl⟩

theorem UnaryOp.mem_all (op : UnaryOp) : op ∈ all := by
  cases op with
  | int w op => simp [all, Width.mem_all, IntUnOp.mem_all]
  | float w op => simp [all, Width.mem_all, FloatUnOp.mem_all]
  | trunc target source s => simp [all, mem_conversions]
  | truncSat target source s => simp [all, mem_conversions]
  | convert target source s => simp [all, mem_conversions]
  | eqz w | reinterpretFloat w | reinterpretInt w => simp [all, Width.mem_all]
  | extend s => simp [all, Signedness.mem_all]
  | extend32 | wrap | demote | promote => simp [all]

theorem BinaryOp.mem_all (op : BinaryOp) : op ∈ all := by
  cases op with
  | int w op => simp [all, Width.mem_all, IntBinOp.mem_all]
  | intRel w op => simp [all, Width.mem_all, IntRelOp.mem_all]
  | float w op => simp [all, Width.mem_all, FloatBinOp.mem_all]
  | floatRel w op => simp [all, Width.mem_all, FloatRelOp.mem_all]

/-! ## Looking up -/

theorem LoadOp.ofByte?_iff {b : UInt8} {op : LoadOp} : ofByte? b = some op ↔ op.opcode = b := by
  refine find?_key_iff fun op => ?_
  have h : ∀ op ∈ all, all.find? (fun o => o.opcode == op.opcode) = some op := by decide +kernel
  exact h op op.mem_all

theorem StoreOp.ofByte?_iff {b : UInt8} {op : StoreOp} : ofByte? b = some op ↔ op.opcode = b := by
  refine find?_key_iff fun op => ?_
  have h : ∀ op ∈ all, all.find? (fun o => o.opcode == op.opcode) = some op := by decide +kernel
  exact h op op.mem_all

theorem UnaryOp.ofOpcode?_iff {c : Opcode} {op : UnaryOp} : ofOpcode? c = some op ↔ op.opcode = c := by
  refine find?_key_iff fun op => ?_
  have h : ∀ op ∈ all, all.find? (fun o => o.opcode == op.opcode) = some op := by decide +kernel
  exact h op op.mem_all

theorem BinaryOp.ofByte?_iff {b : UInt8} {op : BinaryOp} : ofByte? b = some op ↔ op.opcode = b := by
  refine find?_key_iff fun op => ?_
  have h : ∀ op ∈ all, all.find? (fun o => o.opcode == op.opcode) = some op := by decide +kernel
  exact h op op.mem_all

/-! ## Instructions of one byte -/

namespace Instr

theorem isBare_of_mem_plain {i : Instr} (h : i ∈ plain) : i.isBare = true := by
  rcases List.mem_append.1 h with h | h
  · simp only [List.mem_cons, List.not_mem_nil, or_false] at h
    rcases h with rfl | rfl | rfl | rfl | rfl <;> rfl
  · obtain ⟨op, -, rfl⟩ := List.mem_map.1 h
    rfl

theorem ofByte?_binary (op : BinaryOp) : ofByte? op.opcode = some (binary op) := by
  have hunary : ∀ op ∈ BinaryOp.all, UnaryOp.ofOpcode? (.byte op.opcode) = none := by decide +kernel
  have hfirst : ∀ op ∈ BinaryOp.all,
      ([unreachable, nop, ret, drop, select].find? fun i => i.opcode == op.opcode).isNone := by decide +kernel
  have hfind : BinaryOp.all.find? (fun o => (binary o).opcode == op.opcode) = some op := BinaryOp.ofByte?_iff.2 rfl
  rw [ofByte?, hunary op op.mem_all, Option.map_none, Option.none_or, plain, List.find?_append,
    Option.isNone_iff_eq_none.1 (hfirst op op.mem_all), Option.none_or, List.find?_map]
  exact congrArg (Option.map binary) hfind

/-- an opcode that is a whole instruction -/
theorem ofByte?_iff {b : UInt8} {i : Instr} : ofByte? b = some i ↔ i.isBare = true ∧ i.opcode = b := by
  constructor
  · intro h
    rcases Option.or_eq_some_iff.1 h with h | ⟨-, h⟩
    · obtain ⟨op, hop, rfl⟩ := Option.map_eq_some_iff.1 h
      have hop := UnaryOp.ofOpcode?_iff.1 hop
      simp only [isBare, opcode, hop, Opcode.lead, decide_true, and_self]
    · have hb := List.find?_some (p := fun i : Instr => i.opcode == b) h
      exact ⟨isBare_of_mem_plain (List.mem_of_find?_eq_some h), eq_of_beq hb⟩
  · intro hbytes
    rcases hbytes with ⟨hi, rfl⟩
    cases i with
    | unreachable | nop | ret | drop | select => rfl
    | binary op => exact ofByte?_binary op
    | unary op =>
      have hop : op.opcode = .byte op.opcode.lead := of_decide_eq_true hi
      have hfound : UnaryOp.ofOpcode? (.byte op.opcode.lead) = some op := UnaryOp.ofOpcode?_iff.2 hop
      rw [opcode, ofByte?, hfound]
      rfl
    | _ => cases hi

/-- no instruction starts like the end of a body -/
theorem opcode_ne_terminator (i : Instr) (t : Terminator) : i.opcode ≠ t.byte := by
  have hload : ∀ op ∈ LoadOp.all, op.opcode ≠ Opcode.endMarker ∧ op.opcode ≠ Opcode.otherwise := by decide +kernel
  have hstore : ∀ op ∈ StoreOp.all, op.opcode ≠ Opcode.endMarker ∧ op.opcode ≠ Opcode.otherwise := by decide +kernel
  have hunary : ∀ op ∈ UnaryOp.all, op.opcode.lead ≠ Opcode.endMarker ∧ op.opcode.lead ≠ Opcode.otherwise := by
    decide +kernel
  have hbinary : ∀ op ∈ BinaryOp.all, op.opcode ≠ Opcode.endMarker ∧ op.opcode ≠ Opcode.otherwise := by decide +kernel
  have h : i.opcode ≠ Opcode.endMarker ∧ i.opcode ≠ Opcode.otherwise := by
    cases i with
    | load op => exact hload op op.mem_all
    | store op => exact hstore op op.mem_all
    | unary op => exact hunary op op.mem_all
    | binary op => exact hbinary op op.mem_all
    | const v =>
      have hconst : ∀ t ∈ ValType.all, constOpcode t ≠ Opcode.endMarker ∧ constOpcode t ≠ Opcode.otherwise := by decide
      exact hconst v.type v.type.mem_all
    | _ => simp only [opcode]; decide
  cases t with
  | endMarker => exact h.1
  | otherwise => exact h.2

/-- an instruction starts with its opcode -/
theorem Encodes.head {i : Instr} {bs : List UInt8} (h : Encodes i bs) : ∃ rest, bs = i.opcode :: rest := by
  cases h <;> exact ⟨_, rfl⟩

theorem EncodesAll.eq_nil {code : List Instr} (h : EncodesAll code []) : code = [] := by
  generalize hbs : ([] : List UInt8) = bs at h
  cases h with
  | nil => rfl
  | cons h hr =>
    obtain ⟨rest, rfl⟩ := h.head
    cases hbs

end Instr

end WasmCore
