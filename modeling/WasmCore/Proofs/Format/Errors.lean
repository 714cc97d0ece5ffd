/-
Errors of the decoder tell the truth.

An error says where it was noticed and, for most kinds, which byte stands there. Offsets are taken at different moments:
before an opcode, after the byte that ends a nested body, at the start of an integer or of a group of locals. `TrueOf` is
what each kind says of the stream. Every reader fails only with errors that are true, as long as what it has been told of
the bytes before it is true (`FailsWith`); nested bodies by induction on the levels that are left, sequences by induction
on the bytes. The one error about which nothing more is said is that of an entry whose declared size ends before its body.
-/
import WasmCore.Proofs.Format.CodeEntry
import WasmCore.Proofs.Format.Integers

namespace WasmCore

/-! ## What errors say -/

/-- an instruction or the end of a body starts with the byte -/
def Opcode.Known (b : UInt8) : Prop :=
  (∃ i : Instr, i.opcode = b) ∨ ∃ t : Terminator, t.byte = b

/-- At the offset stands a group that brings the locals of the entry up to `count`, which is too many; with the groups
before it there were not yet too many. -/
inductive GroupExceeds (bytes : List UInt8) (count offset : Nat) : Prop
  | mk {size number more : UInt32} {groups : List LocalGroup} {s n g m : List UInt8} (hsize : EncodesU32 size s)
      (hnumber : EncodesU32 number n) (hgroups : EncodesEach EncodesGroup groups g) (hmore : EncodesU32 more m)
      (declared : groups.length < number.toNat) (few : LocalGroup.total groups ≤ maxLocals)
      (count_eq : count = LocalGroup.total groups + more.toNat) (many : maxLocals < count)
      (offset_eq : offset = (s ++ (n ++ g)).length) (bytes_eq : s ++ (n ++ g) ++ m <+: bytes)

namespace DecodeError

/-- where the error was noticed -/
def offset? : DecodeError → Option Nat
  | unknownOpcode _ offset | unknownPrefixedOpcode _ _ offset | unexpectedEnd offset | malformedLeb offset
  | invalidValueType _ offset | invalidBlockType _ offset | unexpectedOpcode _ offset | missingEndMarker _ offset
  | invalidReserved _ offset | tooManyLocals _ offset | nestingTooDeep offset => some offset
  | lengthMismatch _ _ => none

/-- what the error says is true of the stream -/
def TrueOf (bytes : List UInt8) : DecodeError → Prop
  | unknownOpcode b offset => bytes[offset]? = some b ∧ ¬ Opcode.Known b
  | unknownPrefixedOpcode lead sub offset =>
    bytes[offset]? = some lead ∧ lead = Opcode.prefixByte ∧ 7 < sub.toNat ∧
      ∃ leb, EncodesU32 sub leb ∧ leb <+: bytes.drop (offset + 1)
  | unexpectedEnd offset => offset = bytes.length
  | malformedLeb offset => offset ≤ bytes.length
  | invalidValueType b offset => bytes[offset]? = some b ∧ ∀ t : ValType, t.byte ≠ b
  | invalidBlockType b offset => bytes[offset]? = some b ∧ b ≠ BlockType.emptyByte ∧ ∀ t : ValType, t.byte ≠ b
  | unexpectedOpcode b offset => bytes[offset]? = some b ∧ (b = Opcode.otherwise ∨ b = Opcode.endMarker)
  | missingEndMarker found offset =>
    offset ≤ bytes.length ∧ found = bytes[offset]? ∧ found ≠ some Opcode.endMarker
  | invalidReserved b offset => bytes[offset]? = some b ∧ b ≠ 0
  | lengthMismatch expected consumed => expected ≠ consumed
  | tooManyLocals count offset => GroupExceeds bytes count offset
  | nestingTooDeep offset => ∃ b ∈ [Opcode.block, Opcode.loop, Opcode.ite], bytes[offset]? = some b

/-- the size of an entry ends before its body, which is then missing altogether -/
def OfMissingBody (bytes : List UInt8) (e : DecodeError) : Prop :=
  ∃ size s, EncodesU32 size s ∧ s <+: bytes ∧ e = missingEndMarker none (s.length + size.toNat) ∧
    s.length + size.toNat ≤ bytes.length

variable {bytes : List UInt8} {e : DecodeError} {offset : Nat}

theorem TrueOf.offset_le (h : e.TrueOf bytes) (he : e.offset? = some offset) : offset ≤ bytes.length := by
  have of_some {b : UInt8} {o : Nat} (hb : bytes[o]? = some b) : o ≤ bytes.length :=
    Nat.le_of_lt (List.getElem?_eq_some_iff.1 hb).1
  cases e with
  | lengthMismatch => cases he
  | unexpectedEnd => cases he; exact Nat.le_of_eq h
  | malformedLeb => cases he; exact h
  | missingEndMarker => cases he; exact h.1
  | tooManyLocals =>
    cases he
    obtain ⟨-, -, -, -, -, -, -, -, rfl, hbytes⟩ := h
    exact ((List.prefix_append _ _).trans hbytes).length_le
  | nestingTooDeep =>
    cases he
    obtain ⟨b, -, hb⟩ := h
    exact of_some hb
  | _ => cases he; exact of_some h.1

theorem OfMissingBody.offset_le (h : e.OfMissingBody bytes) (he : e.offset? = some offset) : offset ≤ bytes.length := by
  obtain ⟨size, s, -, -, rfl, hle⟩ := h
  cases he
  exact hle

end DecodeError

/-! ## Places in the stream -/

theorem EncodesEach.snoc {α : Type} {G : α → List UInt8 → Prop} {xs : List α} {x : α} {a b : List UInt8}
    (h : EncodesEach G xs a) (hx : G x b) : EncodesEach G (xs ++ [x]) (a ++ b) := by
  induction h with
  | nil =>
    have hlast := EncodesEach.cons hx .nil
    rwa [List.append_nil] at hlast
  | cons hy _ ih =>
    rw [List.append_assoc]
    exact .cons hy ih

namespace Cursor

variable {bytes bs : List UInt8} {b : UInt8} {c c' : Cursor}

theorem Passes.drop (h : (start bytes).Passes c) : bytes.drop c.position = c.rest :=
  (congrArg Cursor.rest h.eq_shift).symm

theorem Passes.length (h : (start bytes).Passes c) : c.position + c.rest.length = bytes.length := by
  obtain ⟨read, hrest, hposition⟩ := h.bytes
  change bytes = read ++ c.rest at hrest
  change c.position = 0 + read.length at hposition
  rw [hposition, hrest, List.length_append, Nat.zero_add]

theorem Passes.enter (h : (start bytes).Passes c) : (start bytes).Passes c.enter :=
  ⟨h.bytes, Nat.zero_le _⟩

/-- the byte behind some that were read -/
theorem Consumes.getElem? (h : c.Consumes (bs ++ [b]) c') (hc : (start bytes).Passes c) :
    bytes[c.position + bs.length]? = some b := by
  rw [← List.getElem?_drop, hc.drop, h.rest, List.append_assoc, List.getElem?_append_right (Nat.le_refl _),
    Nat.sub_self]
  rfl

end Cursor

namespace Reader

/-! ## Rules -/

/-- a failure of the reader at this place is one of these -/
def FailsWith {α : Type} (P : DecodeError → Prop) (r : Reader α) (c : Cursor) : Prop :=
  ∀ e c', r c = .error e c' → P e

namespace FailsWith

variable {α β : Type} {P : DecodeError → Prop} {r : Reader α} {c : Cursor}

theorem pure (x : α) : FailsWith P (Pure.pure x) c :=
  nofun

theorem throw {e : DecodeError} (h : P e) : FailsWith P (MonadExcept.throw e : Reader α) c := by
  intro e' c' he
  cases he
  exact h

theorem bind {f : α → Reader β} (h : FailsWith P r c) (hf : ∀ x c', r c = .ok x c' → FailsWith P (f x) c') :
    FailsWith P (r >>= f) c := by
  intro e c'' he
  simp only [Bind.bind, EStateM.bind] at he
  cases hr : r c with
  | error e' c' =>
    rw [hr] at he
    cases he
    exact h e c'' hr
  | ok x c' =>
    rw [hr] at he
    exact hf x c' hr e c'' he

/-- what a reader answers by its grammar may be used after it -/
theorem after {G : α → List UInt8 → Prop} {bytes : List UInt8} {f : α → Reader β} (hr : Reads r G)
    (h : ∀ {c}, (Cursor.start bytes).Passes c → FailsWith P r c) (hc : (Cursor.start bytes).Passes c)
    (hf : ∀ x c' bs, (Cursor.start bytes).Passes c' → c.Consumes bs c' → G x bs → FailsWith P (f x) c') :
    FailsWith P (r >>= f) c := by
  refine (h hc).bind fun x c' hx => ?_
  obtain ⟨bs, hbs, hG⟩ := hr.sound hx
  exact hf x c' bs (hc.trans hbs.passes) hbs hG

theorem mono {Q : DecodeError → Prop} (h : FailsWith P r c) (hPQ : ∀ e, P e → Q e) : FailsWith Q r c :=
  fun e c' he => hPQ e (h e c' he)

theorem position {f : Nat → Reader α} (h : FailsWith P (f c.position) c) : FailsWith P (Reader.position >>= f) c :=
  h

theorem ite {p : Prop} [Decidable p] {r' : Reader α} (h : p → FailsWith P r c) (h' : ¬ p → FailsWith P r' c) :
    FailsWith P (if p then r else r') c := by
  by_cases hp : p
  · rw [if_pos hp]; exact h hp
  · rw [if_neg hp]; exact h' hp

/-- a reader that fails if a condition holds -/
theorem check {p : Prop} [Decidable p] {e : DecodeError} {f : Unit → Reader α} (h : p → P e)
    (h' : ¬ p → FailsWith P (f ()) c) : FailsWith P (if p then MonadExcept.throw e >>= f else f ()) c :=
  .ite (fun hp => (FailsWith.throw (h hp)).bind nofun) h'

end FailsWith

/-! ## Bytes and numbers -/

variable {bytes : List UInt8} {c : Cursor}

theorem readByte_fails (hc : (Cursor.start bytes).Passes c) : FailsWith (·.TrueOf bytes) readByte c := by
  intro e c' he
  have hlen := hc.length
  simp only [readByte] at he
  split at he
  · rename_i hrest
    cases he
    rwa [hrest] at hlen
  · cases he

theorem readBytes_fails (n : Nat) (hc : (Cursor.start bytes).Passes c) :
    FailsWith (·.TrueOf bytes) (readBytes n) c := by
  intro e c' he
  have hlen := hc.length
  simp only [readBytes] at he
  split at he
  · cases he
  · rename_i hshort
    cases he
    rw [List.length_take] at hshort
    change c.position + (c.rest.take n).length = bytes.length
    rw [List.length_take]
    omega

theorem readLeb_fails (s : Signedness) (w : Width) (hc : (Cursor.start bytes).Passes c) :
    FailsWith (·.TrueOf bytes) (readLeb s w) c := by
  intro e c' he
  have hlen := hc.length
  rw [readLeb_error he, lebFailure]
  split
  · exact hlen
  · exact Nat.le.intro hlen

theorem readU32_fails (hc : (Cursor.start bytes).Passes c) : FailsWith (·.TrueOf bytes) readU32 c := by
  rw [readU32_eq]
  exact (readLeb_fails _ _ hc).bind fun _ _ _ => .pure _

theorem readInt_fails (w : Width) (hc : (Cursor.start bytes).Passes c) :
    FailsWith (·.TrueOf bytes) (readInt w) c := by
  rw [readInt_eq]
  exact (readLeb_fails _ _ hc).bind fun _ _ _ => .pure _

theorem readFloat_fails (w : Width) (hc : (Cursor.start bytes).Passes c) :
    FailsWith (·.TrueOf bytes) (readFloat w) c :=
  (readBytes_fails _ hc).bind fun _ _ _ => .pure _

theorem replicate_fails {α : Type} {r : Reader α} {G : α → List UInt8 → Prop} (hr : Reads r G)
    (h : ∀ {c}, (Cursor.start bytes).Passes c → FailsWith (·.TrueOf bytes) r c) (n : Nat)
    (hc : (Cursor.start bytes).Passes c) : FailsWith (·.TrueOf bytes) (replicate n r) c := by
  induction n generalizing c with
  | zero => exact .pure []
  | succ n ih => exact .after hr h hc fun x c' bs hc' _ _ => (ih hc').bind fun _ _ _ => .pure _

/-! ## Immediates -/

/-- a byte, then what it is found to be -/
theorem byte_fails {α : Type} {f : UInt8 → Reader α} (hc : (Cursor.start bytes).Passes c)
    (hf : ∀ b c', (Cursor.start bytes).Passes c' → c'.position = c.position + 1 → bytes[c.position]? = some b →
      FailsWith (·.TrueOf bytes) (f b) c') : FailsWith (·.TrueOf bytes) (readByte >>= f) c := by
  refine .after readByte_reads readByte_fails hc fun b c' bs hc' hbs hb => ?_
  subst hb
  have hbs : c.Consumes ([] ++ [b]) c' := hbs
  exact hf b c' hc' hbs.position (hbs.getElem? hc)

theorem readValType_fails (hc : (Cursor.start bytes).Passes c) : FailsWith (·.TrueOf bytes) readValType c := by
  refine .position (byte_fails hc fun b c' _ _ hb => ?_)
  cases ht : ValType.ofByte? b with
  | some t => exact .pure t
  | none =>
    refine .throw ⟨hb, fun t hbyte => ?_⟩
    cases ht.symm.trans (ValType.ofByte?_iff.2 hbyte)

theorem readBlockType_fails (hc : (Cursor.start bytes).Passes c) : FailsWith (·.TrueOf bytes) readBlockType c := by
  refine .position (byte_fails hc fun b c' _ _ hb => .ite (fun _ => .pure _) fun hempty => ?_)
  cases ht : ValType.ofByte? b with
  | some t => exact .pure _
  | none =>
    refine .throw ⟨hb, hempty, fun t hbyte => ?_⟩
    cases ht.symm.trans (ValType.ofByte?_iff.2 hbyte)

theorem readMemArg_fails (hc : (Cursor.start bytes).Passes c) : FailsWith (·.TrueOf bytes) readMemArg c :=
  .after readU32_reads readU32_fails hc fun _ _ _ hc' _ _ => (readU32_fails hc').bind fun _ _ _ => .pure _

theorem readReserved_fails (hc : (Cursor.start bytes).Passes c) : FailsWith (·.TrueOf bytes) readReserved c :=
  .position (byte_fails hc fun _ _ _ _ hb => .ite (fun hne => .throw ⟨hb, hne⟩) fun _ => .pure ())

/-! ## Instructions -/

/-- an opcode that is looked up nowhere starts no instruction -/
theorem opcode_found (i : Instr) : i.opcode ∈ ownBytes ∨ (LoadOp.ofByte? i.opcode).isSome ∨
    (StoreOp.ofByte? i.opcode).isSome ∨ (Instr.ofByte? i.opcode).isSome := by
  have bare (hi : i.isBare = true) : (Instr.ofByte? i.opcode).isSome :=
    Option.isSome_iff_exists.2 ⟨i, Instr.ofByte?_iff.2 ⟨hi, rfl⟩⟩
  cases i with
  | load op => exact .inr (.inl (Option.isSome_iff_exists.2 ⟨op, LoadOp.ofByte?_iff.2 rfl⟩))
  | store op => exact .inr (.inr (.inl (Option.isSome_iff_exists.2 ⟨op, StoreOp.ofByte?_iff.2 rfl⟩)))
  | unreachable | nop | ret | drop | select | binary => exact .inr (.inr (.inr (bare rfl)))
  | unary op =>
    cases hop : op.opcode with
    | byte b =>
      have hbare : (Instr.unary op).isBare = true := by simp only [Instr.isBare, hop, Opcode.lead, decide_true]
      exact .inr (.inr (.inr (bare hbare)))
    | prefixed n =>
      have hprefix : Opcode.prefixByte ∈ ownBytes := by decide
      left
      rw [Instr.opcode, hop]
      exact hprefix
  | const v =>
    have hconst : ∀ t ∈ ValType.all, Instr.constOpcode t ∈ ownBytes := by decide
    exact .inl (hconst v.type v.type.mem_all)
  | _ => left; simp only [Instr.opcode]; decide

variable {nested : NestedReader} {levels offset : Nat} {b : UInt8}

theorem readOperator_fails (hc : (Cursor.start bytes).Passes c) (hb : bytes[offset]? = some b) (hown : b ∉ ownBytes)
    (hend : ∀ t : Terminator, t.byte ≠ b) : FailsWith (·.TrueOf bytes) (readOperator b offset) c := by
  cases hload : LoadOp.ofByte? b with
  | some op =>
    simp only [readOperator, hload]
    exact (readMemArg_fails hc).bind fun _ _ _ => .pure _
  | none =>
    cases hstore : StoreOp.ofByte? b with
    | some op =>
      simp only [readOperator, hload, hstore]
      exact (readMemArg_fails hc).bind fun _ _ _ => .pure _
    | none =>
      cases hbare : Instr.ofByte? b with
      | some i =>
        simp only [readOperator, hload, hstore, hbare]
        exact .pure i
      | none =>
        simp only [readOperator, hload, hstore, hbare]
        refine .throw ⟨hb, ?_⟩
        rintro (⟨i, rfl⟩ | ⟨t, ht⟩)
        · have hfound := opcode_found i
          simp only [hload, hstore, hbare, Option.isSome_none, Bool.false_eq_true, or_false] at hfound
          exact hown hfound
        · exact hend t ht

/-- the truncations take the numbers up to seven -/
theorem isSome_ofOpcode?_prefixed {n : UInt32} (h : n.toNat ≤ 7) : (UnaryOp.ofOpcode? (.prefixed n)).isSome := by
  have hall : ∀ k : Fin 8, (UnaryOp.ofOpcode? (.prefixed (UInt32.ofNat k))).isSome := by decide +kernel
  have hn := hall ⟨n.toNat, Nat.lt_succ_of_le h⟩
  rwa [UInt32.ofNat_toNat] at hn

theorem readPrefixed_fails (hc : (Cursor.start bytes).Passes c) (hb : bytes[offset]? = some Opcode.prefixByte)
    (hposition : c.position = offset + 1) : FailsWith (·.TrueOf bytes) (readPrefixed offset) c := by
  refine .after readU32_reads readU32_fails hc fun sub c' leb hc' hleb hsub => ?_
  cases hop : UnaryOp.ofOpcode? (.prefixed sub) with
  | some op => exact .pure _
  | none =>
    refine .throw ⟨hb, rfl, Nat.lt_of_not_le fun hle => ?_, leb, hsub, ⟨c'.rest, ?_⟩⟩
    · have hfound := isSome_ofOpcode?_prefixed hle
      rw [hop] at hfound
      cases hfound
    · rw [← hposition, hc.drop, hleb.rest]

/-- what is assumed of nested bodies: they are read by their grammar, and fail truly within a construct -/
structure NestedFails (bytes : List UInt8) (nested : NestedReader) (levels : Nat) : Prop where
  reads : ∀ offset, Reads (nested offset) (NestedBody levels)
  fails : ∀ {offset b c}, b ∈ [Opcode.block, Opcode.loop, Opcode.ite] → bytes[offset]? = some b →
    (Cursor.start bytes).Passes c → FailsWith (·.TrueOf bytes) (nested offset) c

/-- a nested body ends with the byte that says how -/
theorem NestedBody.getElem? {x : List Instr × Terminator} {bs : List UInt8} {c' : Cursor} (h : NestedBody levels x bs)
    (hbs : c.Consumes bs c') (hc : (Cursor.start bytes).Passes c) : bytes[c'.position - 1]? = some x.2.byte := by
  obtain ⟨body, rfl, -, -⟩ := h
  have hposition : c'.position - 1 = c.position + body.length := by
    rw [hbs.position, List.length_append, List.length_singleton]
    omega
  rw [hposition]
  exact hbs.getElem? hc

theorem readClosed_fails (hnested : NestedFails bytes nested levels)
    (hconstruct : b ∈ [Opcode.block, Opcode.loop, Opcode.ite]) (hb : bytes[offset]? = some b)
    (hc : (Cursor.start bytes).Passes c) : FailsWith (·.TrueOf bytes) (readClosed nested offset) c := by
  refine .after (hnested.reads offset) (hnested.fails hconstruct hb) hc fun x c' bs _ hbs hx => ?_
  obtain ⟨body, terminator⟩ := x
  cases terminator with
  | endMarker => exact .pure body
  | otherwise => exact .position (.throw ⟨hx.getElem? hbs hc, .inl rfl⟩)

theorem readOtherwise_fails (hnested : NestedFails bytes nested levels)
    (hconstruct : b ∈ [Opcode.block, Opcode.loop, Opcode.ite]) (hb : bytes[offset]? = some b) (t : Terminator)
    (hc : (Cursor.start bytes).Passes c) : FailsWith (·.TrueOf bytes) (readOtherwise nested offset t) c := by
  cases t with
  | endMarker => exact .pure []
  | otherwise => exact readClosed_fails hnested hconstruct hb hc

theorem readInstr_fails (hnested : NestedFails bytes nested levels) (hb : bytes[offset]? = some b)
    (hend : ∀ t : Terminator, t.byte ≠ b) (hc : (Cursor.start bytes).Passes c) (hposition : c.position = offset + 1) :
    FailsWith (·.TrueOf bytes) (readInstr nested b offset) c := by
  have number (f : UInt32 → Instr) : FailsWith (·.TrueOf bytes) (do return f (← readU32)) c :=
    (readU32_fails hc).bind fun _ _ _ => .pure _
  have construct (f : BlockType → List Instr → Instr) (hconstruct : b ∈ [Opcode.block, Opcode.loop, Opcode.ite]) :
      FailsWith (·.TrueOf bytes) (do
        let t ← readBlockType
        return f t (← readClosed nested offset)) c :=
    .after readBlockType_reads readBlockType_fails hc fun _ _ _ hc' _ _ =>
      (readClosed_fails hnested hconstruct hb hc').bind fun _ _ _ => .pure _
  by_cases hown : b ∈ ownBytes
  · simp only [ownBytes, List.mem_cons, List.not_mem_nil, or_false] at hown
    rcases hown with rfl | rfl | rfl | rfl | rfl | rfl | rfl | rfl | rfl | rfl | rfl | rfl | rfl | rfl | rfl | rfl | rfl |
      rfl | rfl | rfl
    · exact construct .block (by decide)
    · exact construct .loop (by decide)
    · refine .after readBlockType_reads readBlockType_fails hc fun _ _ _ hc' _ _ =>
        .after (hnested.reads offset) (hnested.fails (by decide) hb) hc' fun x _ _ hc'' _ _ => ?_
      exact (readOtherwise_fails hnested (by decide) hb x.2 hc'').bind fun _ _ _ => .pure _
    · exact number .br
    · exact number .brIf
    · refine .after readU32_reads readU32_fails hc fun count _ _ hc' _ _ =>
        .after (replicate_reads readU32_reads _) (replicate_fails readU32_reads readU32_fails _) hc'
          fun _ _ _ hc'' _ _ => ?_
      exact (readU32_fails hc'').bind fun _ _ _ => .pure _
    · exact number .call
    · exact .after readU32_reads readU32_fails hc fun _ _ _ hc' _ _ => (readU32_fails hc').bind fun _ _ _ => .pure _
    · exact number .localGet
    · exact number .localSet
    · exact number .localTee
    · exact number .globalGet
    · exact number .globalSet
    · exact (readReserved_fails hc).bind fun _ _ _ => .pure _
    · exact (readReserved_fails hc).bind fun _ _ _ => .pure _
    · exact (readInt_fails _ hc).bind fun _ _ _ => .pure _
    · exact (readInt_fails _ hc).bind fun _ _ _ => .pure _
    · exact (readFloat_fails _ hc).bind fun _ _ _ => .pure _
    · exact (readFloat_fails _ hc).bind fun _ _ _ => .pure _
    · exact readPrefixed_fails hc hb hposition
  · rw [readInstr_operator hown]
    exact readOperator_fails hc hb hown hend

theorem readItem_fails (hnested : NestedFails bytes nested levels) (hc : (Cursor.start bytes).Passes c) :
    FailsWith (·.TrueOf bytes) (readItem nested) c := by
  refine .position (byte_fails hc fun b c' hc' hposition hb => .ite (fun _ => .pure _) fun hmarker =>
    .ite (fun _ => .pure _) fun hotherwise => ?_)
  have hend (t : Terminator) : t.byte ≠ b := by
    cases t with
    | endMarker => exact fun h => hmarker h.symm
    | otherwise => exact fun h => hotherwise h.symm
  exact (readInstr_fails hnested hb hend hc' hposition).bind fun _ _ _ => .pure _

/-! ## Sequences -/

variable {item : Reader Item}

theorem readUntilTerminator_fails (hitem : Reads item (ItemBytes levels))
    (h : ∀ {c}, (Cursor.start bytes).Passes c → FailsWith (·.TrueOf bytes) item c) (fuel : List UInt8)
    (hf : c.rest.length ≤ fuel.length) (hc : (Cursor.start bytes).Passes c) :
    FailsWith (·.TrueOf bytes) (readUntilTerminator item fuel) c := by
  induction fuel generalizing c with
  | nil =>
    refine .position (.throw ?_)
    have hlen := hc.length
    rwa [Nat.le_zero.1 hf] at hlen
  | cons _ fuel ih =>
    refine .after hitem h hc fun x c' bs hc' hbs hx => ?_
    cases x with
    | terminator t => exact .pure _
    | instr i =>
      have hlt := length_lt_of_instr hbs hx.1
      rw [List.length_cons] at hf
      exact (ih (by omega) hc').bind fun _ _ _ => .pure _

theorem readUntilPosition_fails (hitem : Reads item (ItemBytes levels))
    (h : ∀ {c}, (Cursor.start bytes).Passes c → FailsWith (·.TrueOf bytes) item c) (stop : Nat) (fuel : List UInt8)
    (hf : c.rest.length ≤ fuel.length) (hc : (Cursor.start bytes).Passes c) :
    FailsWith (·.TrueOf bytes) (readUntilPosition item stop fuel) c := by
  induction fuel generalizing c with
  | nil =>
    refine .position (.ite (fun _ => .pure []) fun _ => .throw ?_)
    have hlen := hc.length
    rwa [Nat.le_zero.1 hf] at hlen
  | cons _ fuel ih =>
    refine .position (.ite (fun _ => .pure []) fun _ => .after hitem h hc fun x c' bs hc' hbs hx => ?_)
    cases x with
    | terminator t =>
      subst hx
      have hbs : c.Consumes ([] ++ [t.byte]) c' := hbs
      refine .throw ⟨hbs.getElem? hc, ?_⟩
      cases t with
      | endMarker => exact .inr rfl
      | otherwise => exact .inl rfl
    | instr i =>
      have hlt := length_lt_of_instr hbs hx.1
      rw [List.length_cons] at hf
      exact (ih (by omega) hc').bind fun _ _ _ => .pure _

/-- Without levels left, the construct that opens the body is named. -/
theorem readNested_fails (levels : Nat) : NestedFails bytes (readNested levels) levels := by
  induction levels with
  | zero => exact ⟨readNested_reads 0, fun hconstruct hb _ => .throw ⟨_, hconstruct, hb⟩⟩
  | succ levels ih =>
    refine ⟨readNested_reads (levels + 1), fun {offset b c} _ _ hc e c' he => ?_⟩
    rw [readNested_succ] at he
    have hfails : FailsWith (·.TrueOf bytes) (readUntilTerminator (readItem (readNested levels)) c.rest) c.enter :=
      readUntilTerminator_fails (readItem_reads ih.reads) (readItem_fails ih) c.rest (Nat.le_refl _) hc.enter
    cases hr : readUntilTerminator (readItem (readNested levels)) c.rest c.enter with
    | ok x c₁ =>
      rw [hr] at he
      cases he
    | error e₁ c₁ =>
      rw [hr] at he
      cases he
      exact hfails e c' hr

/-! ## Bodies and entries -/

/-- a body that has its end marker at least -/
theorem readBody_fails (expected : Nat) (hc : (Cursor.start bytes).Passes c) :
    FailsWith (·.TrueOf bytes) (readBody (expected + 1)) c := by
  have hnested : NestedFails bytes (readNested (maxNesting - c.depth)) (maxNesting - c.depth) := readNested_fails _
  refine .position (FailsWith.bind (r := get) nofun fun _ _ hget => ?_)
  cases hget
  refine (readUntilPosition_fails (readItem_reads hnested.reads) (readItem_fails hnested) _ _ (Nat.le_refl _) hc).bind
    fun code c' hcode => ?_
  have hforward := (readUntilPosition_follows (p := 0) (d := 0) (readNestedItem_follows (maxNesting - c.depth) (Nat.le_refl 0))
    (c.position + expected) c.rest c (Nat.zero_le _)).2
  rw [hcode] at hforward
  obtain ⟨bs, hbs⟩ := hforward
  have hposition := hbs.position
  refine .position (.check (fun hne => ?_) fun heq => ?_)
  · change expected ≠ c'.position - c.position
    omega
  · have hc' := hc.trans hbs.passes
    have heq := Decidable.not_not.1 heq
    refine FailsWith.bind (r := peek?) nofun fun marker _ hpeek => .check (fun hmarker => ?_) fun _ => .pure code
    cases hpeek
    refine ⟨?_, ?_, hmarker⟩
    · rw [← heq]
      exact Nat.le.intro hc'.length
    · rw [← heq, ← hc'.drop, List.head?_drop]

/-- the groups that are left, behind those that were read -/
theorem readLocals_fails {size number : UInt32} {s n g : List UInt8} {groups : List LocalGroup} {left : Nat}
    (hsize : EncodesU32 size s) (hnumber : EncodesU32 number n) (hgroups : EncodesEach EncodesGroup groups g)
    (few : LocalGroup.total groups ≤ maxLocals) (hleft : groups.length + left = number.toNat)
    (hc : (Cursor.start bytes).Consumes (s ++ (n ++ g)) c) :
    FailsWith (·.TrueOf bytes) (readLocals (LocalGroup.total groups) left) c := by
  induction left generalizing groups g c with
  | zero => exact .pure []
  | succ left ih =>
    refine .position (.after readU32_reads readU32_fails hc.passes fun more c₁ m hc₁ hm hmore =>
      .check (fun many => ?_) fun hle => ?_)
    · have hposition : c.position = (s ++ (n ++ g)).length := hc.position.trans (Nat.zero_add _)
      exact ⟨hsize, hnumber, hgroups, hmore, by omega, few, rfl, many, hposition,
        ⟨c₁.rest, (hc.trans hm).rest.symm⟩⟩
    · refine .after readValType_reads readValType_fails hc₁ fun t c₂ bs hc₂ ht hbs => ?_
      subst hbs
      have htotal : LocalGroup.total (groups ++ [⟨more, t⟩]) = LocalGroup.total groups + more.toNat := by
        simp only [LocalGroup.total, List.map_append, List.sum_append, List.map_cons, List.map_nil, List.sum_singleton]
      have hgroup : EncodesGroup ⟨more, t⟩ (m ++ [t.byte]) := .mk hmore
      have hnext := ih (hgroups.snoc hgroup) (by rw [htotal]; omega)
        (by rw [List.length_append, List.length_singleton]; omega) (c := c₂) (by
          have hconsumes := (hc.trans hm).trans ht
          rwa [List.append_assoc, List.append_assoc, List.append_assoc] at hconsumes)
      rw [htotal] at hnext
      exact hnext.bind fun _ _ _ => .pure _

theorem readCodeEntry_fails :
    FailsWith (fun e => e.TrueOf bytes ∨ e.OfMissingBody bytes) readCodeEntry (.start bytes) := by
  refine .after readU32_reads (fun hc => (readU32_fails hc).mono fun _ => .inl) (.refl _) fun size c₁ s hc₁ hs hsize =>
    .position (.after readU32_reads (fun hc => (readU32_fails hc).mono fun _ => .inl) hc₁
      fun number c₂ n hc₂ hn hnumber => ?_)
  have hlocals : FailsWith (·.TrueOf bytes) (readLocals 0 number.toNat) c₂ :=
    readLocals_fails hsize hnumber .nil (Nat.zero_le _) (Nat.zero_add _) (by
      have hconsumes := hs.trans hn
      rwa [← List.append_nil n] at hconsumes)
  refine (hlocals.mono fun _ => .inl).bind fun locals c₃ hread => .position ?_
  obtain ⟨g, hg, -⟩ := (readLocals_reads (Nat.zero_le _) _).sound hread
  have hc₃ := hc₂.trans hg.passes
  refine .check (fun hlt => .inl (Nat.ne_of_lt hlt)) fun hle => ?_
  cases hbody : size.toNat - (c₃.position - c₁.position) with
  | zero =>
    -- the header has filled the size
    refine FailsWith.bind (FailsWith.throw (.inr ?_)) nofun
    have hposition : c₃.position = s.length + size.toNat := by
      have hs' : c₁.position = s.length := hs.position.trans (Nat.zero_add _)
      have hpasses := (hn.trans hg).passes.position_le
      omega
    refine ⟨size, s, hsize, ⟨c₁.rest, hs.rest.symm⟩, by rw [hposition], ?_⟩
    rw [← hposition]
    exact Nat.le.intro hc₃.length
  | succ expected =>
    refine ((readBody_fails expected hc₃).mono fun _ => .inl).bind fun body c₄ hread => ?_
    obtain ⟨bs, hbs, -⟩ := readBody_iff.1 hread
    exact ((readByte_fails (hc₃.trans hbs.passes)).mono fun _ => .inl).bind fun _ _ _ => .pure _

end Reader

theorem Call.answer_eq_error {call : Call} {c : Cursor} {e : DecodeError} :
    (call.answer c).1 = .error e ↔ ∃ c', call.read c = .error e c' := by
  simp only [Call.answer, Reader.Outcome.answer]
  cases call.read c with
  | ok x c' =>
    constructor
    · intro h; cases h
    · rintro ⟨_, h⟩; cases h
  | error e' c' =>
    constructor
    · intro h; cases h; exact ⟨c', rfl⟩
    · rintro ⟨_, h⟩; cases h; rfl

/-- **Errors tell the truth about the stream.** When a fresh decoder fails on a body that has its end marker at least, or
on an entry, its error points into the stream or to its end, and what it says of the stream is so. If the size of an
entry ends before the body, it is the missing body that is reported, at the end of that size. -/
theorem errors_true (bytes : List UInt8) (e : DecodeError) :
    (∀ n, 1 ≤ n → ((Call.body n).answer (.start bytes)).1 = .error e →
      e.TrueOf bytes ∧ ∀ offset, e.offset? = some offset → offset ≤ bytes.length) ∧
    ((Call.entry.answer (.start bytes)).1 = .error e →
      (e.TrueOf bytes ∨ e.OfMissingBody bytes) ∧ ∀ offset, e.offset? = some offset → offset ≤ bytes.length) := by
  constructor
  · intro n hn h
    obtain ⟨expected, rfl⟩ := Nat.exists_eq_add_of_le' hn
    obtain ⟨c, hread⟩ := Call.answer_eq_error.1 h
    have htrue : e.TrueOf bytes := Reader.readBody_fails expected (.refl _) e c hread
    exact ⟨htrue, fun offset => htrue.offset_le⟩
  · intro h
    obtain ⟨c, hread⟩ := Call.answer_eq_error.1 h
    have htrue : e.TrueOf bytes ∨ e.OfMissingBody bytes := Reader.readCodeEntry_fails e c hread
    exact ⟨htrue, fun offset => htrue.elim (·.offset_le) (·.offset_le)⟩

/-- a group of 50000 locals and one more -/
theorem errors_true_groups :
    let bytes := [0x0A, 0x02, 0xD0, 0x86, 0x03, 0x7F, 0x01, 0x7F, 0x0B]
    (Call.entry.answer (.start bytes)).1 = .error (.tooManyLocals 50001 6) ∧ GroupExceeds bytes 50001 6 := by
  intro bytes
  have herror : (Call.entry.answer (.start bytes)).1 = .error (.tooManyLocals 50001 6) := rfl
  obtain ⟨htrue | ⟨size, s, -, -, hmissing, -⟩, -⟩ := (errors_true bytes (.tooManyLocals 50001 6)).2 herror
  · exact ⟨herror, htrue⟩
  · cases hmissing

end WasmCore
